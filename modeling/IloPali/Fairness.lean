import IloPali.Process
import IloPali.Lib.Transition

/-!
# Round-robin fairness

Tasks are spawned while others run.  The scheduler only keeps a cursor and the
largest pid it has seen, the task table only its slots; they agree because a new
task always gets the lowest free slot.  Between two turns of one task every other
task then has exactly one turn, whatever is spawned in between.
-/

namespace IloPali

open Transition

/-! ## 1. Spawns and ticks -/

/-- A successful `spawn_task_from_elf`, or a `timer_switch` on hart `h` in which
    `next_scheduled_task` returns `pid`. -/
inductive SchedEvent where
  | spawn (p : Loaded)
  | tick (h : Nat) (pid : Int)

/-- Nothing in `timer_switch` moves the cursor before it calls `next_scheduled_task`. -/
inductive SchedStep : Harts → SchedEvent → Harts → Prop
  | spawn {m : Harts} {p : Loaded} {pid : Nat} (hslot : freeSlot m.sys = some pid)
      (htop : p.top ≠ 0 ∧ p.top % 4096 = 0 ∧ p.top < 2 ^ 56) :
      SchedStep m (.spawn p) ⟨installTask m.sys pid p, m.current⟩
  | tick {m : Harts} {h : Nat} {r : TrapRef} {s : System}
      (hcall : timerSwitch h (m.current h) m.sys = .ok (r, s)) :
      SchedStep m (.tick h (nextScheduledTask m.sys).1) ⟨s, Function.update m.current h r⟩

/-- Before the first task: every slot is dead and every hart idles. -/
structure NoTasks (m : Harts) : Prop where
  dead : ∀ i, (m.sys.tasks i).state = .dead
  idle : ∀ h, m.current h = .hart h ∧ (m.sys.traps h).pid = -1 ∧ (m.sys.traps h).hartid = h
  cursor : m.sys.next = 0 ∧ m.sys.upTo = 0

/-- Task `i` has been spawned. -/
def Spawned (m : Harts) (i : Nat) : Prop := (i : Int) < m.sys.maxPid ∧ (m.sys.tasks i).state ≠ .dead

/-- How often the pid is selected. -/
def selections (pid : Int) : List SchedEvent → Nat
  | [] => 0
  | .spawn _ :: es => selections pid es
  | .tick _ pid' :: es => (if pid' = pid then 1 else 0) + selections pid es

theorem selections_append (pid : Int) (es fs : List SchedEvent) :
    selections pid (es ++ fs) = selections pid es + selections pid fs := by
  induction es with
  | nil => rw [List.nil_append, selections, Nat.zero_add]
  | cons e es ih =>
    cases e with
    | spawn p => exact ih
    | tick h pid' => rw [List.cons_append, selections, selections, ih, Nat.add_assoc]

/-! ## 2. The first `T` slots are taken -/

structure Filled (T : Nat) (m : Harts) : Prop where
  scheduled : Scheduled T m.sys
  fits : ∀ h, (m.current h).Fits T h
  alive : ∀ i, i < T → (m.sys.tasks i).state ≠ .dead
  free : ∀ i, T ≤ i → (m.sys.tasks i).state = .dead

theorem Filled.spawned_iff {T : Nat} {m : Harts} (hm : Filled T m) (i : Nat) :
    Spawned m i ↔ i < T := by
  have hroom := hm.scheduled.room
  constructor
  · rintro ⟨_, hstate⟩
    by_contra hge
    exact hstate (hm.free i (by omega))
  · exact fun hi => ⟨by omega, hm.alive i hi⟩

/-- What the scheduler and the table hold after the task is installed in slot `T`. -/
theorem installTask_spec (s : System) (T : Nat) (p : Loaded) (hup : s.upTo ≤ T) :
    let s' := installTask s T p
    s'.maxPid = s.maxPid ∧ s'.traps = s.traps ∧ s'.next = s.next ∧ s'.upTo = T ∧
      (s'.tasks T).pid = T ∧ (s'.tasks T).trap.pid = T ∧ (s'.tasks T).mmuData = p.top ∧
      (s'.tasks T).state = .ready ∧ ∀ i, i ≠ T → s'.tasks i = s.tasks i := by
  unfold installTask scheduleTask
  dsimp only
  split
  · simp +contextual [System.setTask]
  · rename_i hle
    have hle' : ¬ (T : Int) > s.upTo := hle
    have heq : s.upTo = T := by omega
    simp +contextual [System.setTask, heq]

/-- **A spawn** takes the next slot. -/
theorem Filled.spawn {T : Nat} {m : Harts} (hm : Filled T m) {pid : Nat}
    (hslot : freeSlot m.sys = some pid) {p : Loaded}
    (htop : p.top ≠ 0 ∧ p.top % 4096 = 0 ∧ p.top < 2 ^ 56) :
    Filled (T + 1) ⟨installTask m.sys pid p, m.current⟩ := by
  obtain ⟨hlt, hdead, hbelow⟩ := freeSlot_spec hslot
  have hpid : pid = T := by
    have h1 : ¬ pid < T := fun h => hm.alive pid h hdead
    have h2 : ¬ T < pid := fun h => hbelow T h (hm.free T (le_refl T))
    omega
  subst hpid
  have hup := hm.scheduled.upTo
  have hone := hm.scheduled.one_le
  obtain ⟨hmax, htraps, hnext, hup', hp, htp, hroot, hstate, hother⟩ :=
    installTask_spec m.sys pid p (by omega)
  have hcases : ∀ i, i < pid + 1 → i = pid ∨ i < pid := fun i hi => by omega
  refine ⟨⟨by omega, ?_, fun h => ?_, fun i hi => ?_, fun i hi => ?_, ?_, ?_⟩, fun h => ?_,
    fun i hi => ?_, fun i hi => ?_⟩
  · dsimp only
    rw [hmax]
    omega
  · dsimp only
    rw [htraps]
    exact hm.scheduled.idle h
  · dsimp only
    rcases hcases i hi with rfl | hi
    · exact ⟨hp, htp⟩
    · rw [hother i hi.ne]
      exact hm.scheduled.tasks i hi
  · dsimp only
    rcases hcases i hi with rfl | hi
    · rw [hroot]
      exact htop
    · rw [hother i hi.ne]
      exact hm.scheduled.roots i hi
  · dsimp only
    rw [hup']
    omega
  · obtain ⟨n, hn, hcur⟩ := hm.scheduled.next
    exact ⟨n, by omega, hnext.trans hcur⟩
  · rcases hm.fits h with hidle | ⟨i, hi, htask⟩
    · exact Or.inl hidle
    · exact Or.inr ⟨i, by omega, htask⟩
  · dsimp only
    rcases hcases i hi with rfl | hi
    · rw [hstate]
      exact nofun
    · rw [hother i hi.ne]
      exact hm.alive i hi
  · dsimp only
    rw [hother i (by omega)]
    exact hm.free i (by omega)

/-- **A tick** selects the task at the cursor and moves on. -/
theorem Filled.tick {T : Nat} {m : Harts} (hm : Filled T m) (h : Nat) :
    ∃ n m', n < T ∧ m.sys.next = n ∧ SchedStep m (.tick h n) m' ∧ Filled T m' ∧
      m'.sys.next = ((n + 1) % T : Nat) := by
  obtain ⟨n, hn, hnext⟩ := hm.scheduled.next
  obtain ⟨s', hcall, hsw⟩ := timerSwitch_spec hm.scheduled hn hnext (hm.fits h)
  have hstep := SchedStep.tick hcall
  rw [show (nextScheduledTask m.sys).1 = (n : Int) from hnext] at hstep
  refine ⟨n, _, hn, hnext, hstep, ⟨hsw.scheduled, fun h' => ?_, fun i hi => ?_, fun i hi => ?_⟩,
    hsw.next⟩
  · by_cases hh : h' = h
    · subst hh
      simp only [Function.update_self]
      exact Or.inr ⟨n, hn, rfl⟩
    · simp only [Function.update_of_ne hh]
      exact hm.fits h'
  · rw [hsw.state i]
    split
    · exact nofun
    · split
      · exact nofun
      · exact hm.alive i hi
  · have hout : ¬ (m.current h = .task i ∧ (m.sys.tasks i).state = .running) := by
      rintro ⟨_, hrun⟩
      rw [hm.free i hi] at hrun
      exact nomatch hrun
    rw [hsw.state i, if_neg (by omega), if_neg hout]
    exact hm.free i hi

theorem SchedStep.tick_inv {m m' : Harts} {h : Nat} {pid : Int} (hstep : SchedStep m (.tick h pid) m') :
    pid = m.sys.next ∧ ∃ r s, timerSwitch h (m.current h) m.sys = .ok (r, s) ∧
      m' = ⟨s, Function.update m.current h r⟩ := by
  rcases hstep with _ | hcall
  exact ⟨rfl, _, _, hcall, rfl⟩

/-- Every tick of a machine with filled slots is the one above. -/
theorem Filled.of_tick {T : Nat} {m m' : Harts} (hm : Filled T m) {h : Nat} {pid : Int}
    (hstep : SchedStep m (.tick h pid) m') :
    ∃ n, n < T ∧ pid = n ∧ m.sys.next = n ∧ Filled T m' ∧ m'.sys.next = ((n + 1) % T : Nat) := by
  obtain ⟨n, m'', hn, hnext, hstep', hm', hnext'⟩ := hm.tick h
  obtain ⟨hpid, r, s, hcall, rfl⟩ := hstep.tick_inv
  obtain ⟨_, r', s', hcall', rfl⟩ := hstep'.tick_inv
  rw [hcall] at hcall'
  obtain ⟨rfl, rfl⟩ := Prod.mk.inj (Except.ok.inj hcall')
  exact ⟨n, hn, hpid.trans hnext, hnext, hm', hnext'⟩

/-- One step: the filled slots grow by the task that is spawned. -/
theorem Filled.step {T : Nat} {m m' : Harts} (hm : Filled T m) {e : SchedEvent}
    (hstep : SchedStep m e m') : ∃ T', T ≤ T' ∧ Filled T' m' := by
  cases e with
  | spawn p =>
    rcases hstep with ⟨hslot, htop⟩
    exact ⟨T + 1, Nat.le_succ T, hm.spawn hslot htop⟩
  | tick h pid =>
    obtain ⟨_, _, _, _, hm', _⟩ := hm.of_tick hstep
    exact ⟨T, le_refl T, hm'⟩

theorem Filled.run {T : Nat} {m m' : Harts} (hm : Filled T m) {es : List SchedEvent}
    (hrun : Run SchedStep m es m') : ∃ T', Filled T' m' :=
  @Run.invariant _ _ _ (fun m => ∃ T, Filled T m) (fun _ _ _ ⟨_, hm⟩ hstep =>
    let ⟨T', _, hm'⟩ := hm.step hstep
    ⟨T', hm'⟩) _ _ _ hrun ⟨T, hm⟩

theorem NoTasks.spawn {m m' : Harts} (h0 : NoTasks m) {p : Loaded}
    (hstep : SchedStep m (.spawn p) m') : Filled 1 m' := by
  rcases hstep with ⟨hslot, htop⟩
  rename_i pid
  obtain ⟨hlt, _, hbelow⟩ := freeSlot_spec hslot
  have hpid : pid = 0 := by
    by_contra hne
    exact hbelow 0 (by omega) (h0.dead 0)
  subst hpid
  obtain ⟨hmax, htraps, hnext, hup', hp, htp, hroot, hstate, hother⟩ :=
    installTask_spec m.sys 0 p (by rw [h0.cursor.2]; exact le_refl _)
  have hzero : ∀ i, i < 1 → i = 0 := fun i hi => by omega
  refine ⟨⟨le_refl 1, by dsimp only; omega, fun h => ?_, fun i hi => ?_, fun i hi => ?_, ?_,
    0, by decide, hnext.trans h0.cursor.1⟩, fun h => Or.inl (h0.idle h).1, fun i hi => ?_,
    fun i hi => ?_⟩
  · dsimp only
    rw [htraps]
    exact (h0.idle h).2
  · rw [hzero i hi]
    exact ⟨hp, htp⟩
  · rw [hzero i hi]
    dsimp only
    rw [hroot]
    exact htop
  · exact hup'
  · rw [hzero i hi]
    dsimp only
    rw [hstate]
    exact nofun
  · dsimp only
    rw [hother i (by omega)]
    exact h0.dead i

/-! ## 3. One turn each -/

/-- The turns since task `p` had its own, with `T` tasks spawned by then: the cursor
    has not wrapped yet, or it has, having passed all of the `T` tasks. -/
inductive Turns (T p : Nat) (es : List SchedEvent) (next : Nat) : Prop
  | ahead (hlt : p < next)
      (hturns : ∀ q : Nat, selections q es = if p < q ∧ q < next then 1 else 0)
  | wrapped (M : Nat) (hM : T ≤ M) (hle : next ≤ p) (hlt : p < M)
      (hturns : ∀ q : Nat, selections q es = if q < next ∨ (p < q ∧ q < M) then 1 else 0)

theorem Turns.start {T p T' : Nat} (hp : p < T) (hT : T' = T) : Turns T p [] ((p + 1) % T') := by
  subst hT
  by_cases hlast : p + 1 = T'
  · rw [hlast, Nat.mod_self]
    exact .wrapped T' (le_refl _) (Nat.zero_le _) hp fun q => by
      rw [selections, if_neg (by omega)]
  · rw [Nat.mod_eq_of_lt (by omega)]
    exact .ahead (Nat.lt_succ_self p) fun q => by rw [selections, if_neg (by omega)]

/-- One more turn, of another task. -/
theorem Turns.tick {T p : Nat} {es : List SchedEvent} {n : Nat} (ht : Turns T p es n) (hne : n ≠ p)
    (hp : p < T) {T' : Nat} (hT : T ≤ T') (hn : n < T') (h : Nat) :
    Turns T p (es ++ [.tick h n]) ((n + 1) % T') := by
  have hsel : ∀ q : Nat, selections q (es ++ [.tick h n]) =
      selections q es + if n = q then 1 else 0 := by
    intro q
    rw [selections_append, selections, selections, Nat.add_zero]
    congr 1
    simp only [Nat.cast_inj]
  rcases ht with ⟨hlt, hturns⟩ | ⟨M, hM, hle, hlt, hturns⟩
  · have hup : ∀ q : Nat, selections q (es ++ [.tick h n]) = if p < q ∧ q < n + 1 then 1 else 0 := by
      intro q
      rw [hsel, hturns]
      by_cases hq : n = q
      · rw [if_neg (by omega), if_pos hq, if_pos (by omega)]
      · rw [if_neg hq, Nat.add_zero]
        congr 1
        exact propext ⟨fun h => ⟨h.1, by omega⟩, fun h => ⟨h.1, by omega⟩⟩
    by_cases hlast : n + 1 = T'
    · rw [hlast, Nat.mod_self]
      refine .wrapped (n + 1) (by omega) (Nat.zero_le _) (by omega) fun q => ?_
      rw [hup]
      congr 1
      exact propext ⟨Or.inr, fun h => h.resolve_left (Nat.not_lt_zero q)⟩
    · rw [Nat.mod_eq_of_lt (by omega)]
      exact .ahead (by omega) hup
  · rw [Nat.mod_eq_of_lt (by omega)]
    refine .wrapped M hM (by omega) hlt fun q => ?_
    rw [hsel, hturns]
    by_cases hq : n = q
    · rw [if_neg (by omega), if_pos hq, if_pos (by omega)]
    · rw [if_neg hq, Nat.add_zero]
      congr 1
      exact propext ⟨fun h => h.elim (fun h => Or.inl (by omega)) Or.inr,
        fun h => h.elim (fun h => Or.inl (by omega)) Or.inr⟩

/-- Back at task `p`, every other task has had exactly one turn. -/
theorem Turns.back {T p : Nat} {es : List SchedEvent} (ht : Turns T p es p) {q : Nat} (hq : q < T)
    (hne : q ≠ p) : selections q es = 1 := by
  rcases ht with ⟨hlt, _⟩ | ⟨M, hM, _, _, hturns⟩
  · exact absurd hlt (lt_irrefl p)
  · rw [hturns, if_pos]
    rcases Nat.lt_or_gt_of_ne hne with hlt | hgt
    · exact Or.inl hlt
    · exact Or.inr ⟨hgt, by omega⟩

/-- The turns along a run in which task `p` has none. -/
theorem Filled.turns {T p : Nat} {T1 : Nat} {m m' : Harts} (hp : p < T) (hT : T ≤ T1) (hm : Filled T1 m)
    {done es : List SchedEvent} {n : Nat} (hnext : m.sys.next = n) (ht : Turns T p done n)
    (hrun : Run SchedStep m es m') (hnone : ∀ h, SchedEvent.tick h p ∉ es) :
    ∃ n' T', T ≤ T' ∧ Filled T' m' ∧ m'.sys.next = (n' : Nat) ∧ Turns T p (done ++ es) n' := by
  induction es generalizing m T1 done n with
  | nil =>
    cases hrun
    exact ⟨n, T1, hT, hm, hnext, by rwa [List.append_nil]⟩
  | cons e es ih =>
    cases hrun with
    | cons hstep hrest =>
      have hnone' : ∀ h, SchedEvent.tick h p ∉ es := fun h hmem =>
        hnone h (List.mem_cons_of_mem _ hmem)
      have happ : done ++ e :: es = (done ++ [e]) ++ es := by simp
      rw [happ]
      cases e with
      | spawn t =>
        rcases hstep with ⟨hslot, htop⟩
        rename_i pid
        have hm1 := hm.spawn hslot htop
        have hcur : (installTask m.sys pid t).next = m.sys.next := by
          unfold installTask scheduleTask
          dsimp only
          split
          · rfl
          · rfl
        refine ih (Nat.le_succ_of_le hT) hm1 (hcur.trans hnext) ?_ hrest hnone'
        -- a spawn is nobody's turn
        have hsame : ∀ q : Int, selections q (done ++ [.spawn t]) = selections q done := by
          intro q
          rw [selections_append]
          rfl
        rcases ht with ⟨hlt, hturns⟩ | ⟨M, hM, hle, hlt, hturns⟩
        · exact .ahead hlt fun q => (hsame q).trans (hturns q)
        · exact .wrapped M hM hle hlt fun q => (hsame q).trans (hturns q)
      | tick h pid =>
        obtain ⟨n1, hn1, rfl, hcur, hm1, hnext1⟩ := hm.of_tick hstep
        have hnn : n1 = n := by
          rw [hnext] at hcur
          exact (Nat.cast_inj.mp hcur).symm
        subst hnn
        have hne : n1 ≠ p := by
          rintro rfl
          exact hnone h List.mem_cons_self
        exact ih hT hm1 hnext1 (ht.tick hne hp hT hn1 h) hrest hnone'

/-- **Bounded round-robin fairness.**  Whatever is spawned and whichever hart ticks,
    once there is a task every tick goes through and selects a spawned task, and
    between two turns of one task every other task there was at the first has
    exactly one. -/
theorem round_robin_fair (m0 : Harts) (h0 : NoTasks m0) (p : Loaded) (es : List SchedEvent)
    (m : Harts) (hrun : Run SchedStep m0 (.spawn p :: es) m) :
    (∀ h, ∃ pid m', SchedStep m (.tick h pid) m') ∧
    (∀ h pid m', SchedStep m (.tick h pid) m' → ∃ i : Nat, pid = i ∧ Spawned m i) ∧
    ∀ h h' pid mid m', Run SchedStep m (.tick h pid :: (mid ++ [.tick h' pid])) m' →
      (∀ h'', SchedEvent.tick h'' pid ∉ mid) →
        ∀ i : Nat, Spawned m i → (i : Int) ≠ pid → selections i mid = 1 := by
  obtain ⟨T, hm⟩ : ∃ T, Filled T m := by
    cases hrun with
    | cons hstep hrest => exact (h0.spawn hstep).run hrest
  refine ⟨fun h => ?_, fun h pid m' hstep => ?_, fun h h' pid mid m' hrun' hnone i hi hne => ?_⟩
  · obtain ⟨n, m', _, _, hstep, _⟩ := hm.tick h
    exact ⟨n, m', hstep⟩
  · obtain ⟨n, hn, hpid, _⟩ := hm.of_tick hstep
    exact ⟨n, hpid, (hm.spawned_iff n).mpr hn⟩
  · cases hrun' with
    | cons hfirst hrest =>
      obtain ⟨n, hn, rfl, _, hm1, hnext1⟩ := hm.of_tick hfirst
      obtain ⟨m2, hmid, hlast⟩ := hrest.split
      obtain ⟨n', T', hT', hm2, hnext2, hturns⟩ :=
        hm1.turns hn (le_refl T) hnext1 (Turns.start hn rfl) hmid hnone
      cases hlast with
      | cons hstep _ =>
        obtain ⟨n2, _, heq, hcur, _⟩ := hm2.of_tick hstep
        have hback : n' = n := by
          rw [hnext2] at hcur
          exact (Nat.cast_inj.mp hcur).trans (Nat.cast_inj.mp heq).symm
        subst hback
        rw [List.nil_append] at hturns
        exact hturns.back ((hm.spawned_iff i).mp hi) fun h => hne (congrArg _ h)

/-- A table of 64 dead slots, and harts that idle. -/
def Harts.noTasks : Harts where
  sys := { (Harts.kinit 0).sys with upTo := 0 }
  current := .hart

theorem Harts.noTasks_noTasks : NoTasks .noTasks :=
  ⟨fun i => by simp [Harts.noTasks, Harts.kinit], fun h => ⟨rfl, rfl, rfl⟩, rfl, rfl⟩

def Loaded.small : Loaded := ⟨4096, 0#64, 0#64, 0#64, 0#64⟩

/-- Two tasks: between two turns of the first the second has one. -/
theorem round_robin_fair_two : ∃ m, Run SchedStep .noTasks [.spawn .small, .spawn .small] m ∧
    ∀ h h' mid m', Run SchedStep m (.tick h 0 :: (mid ++ [.tick h' 0])) m' →
      (∀ h'', SchedEvent.tick h'' 0 ∉ mid) → selections 1 mid = 1 := by
  have htop : Loaded.small.top ≠ 0 ∧ Loaded.small.top % 4096 = 0 ∧ Loaded.small.top < 2 ^ 56 := by
    decide
  have hrun : Run SchedStep .noTasks [.spawn .small, .spawn .small] _ :=
    .cons (@SchedStep.spawn _ _ 0 (by decide) htop)
      (.cons (@SchedStep.spawn _ _ 1 (by decide) htop) (.nil _))
  refine ⟨_, hrun, fun h h' mid m' hrun' hnone => ?_⟩
  exact (round_robin_fair .noTasks Harts.noTasks_noTasks .small [.spawn .small] _ hrun).2.2 h h' 0 mid m' hrun' hnone 1
    ⟨by decide, by decide⟩ (by decide)

end IloPali
