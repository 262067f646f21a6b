import IloPali.Interrupt
import IloPali.Lib.Transition
import Mathlib.Data.List.Induction
import Mathlib.Data.Nat.ModEq

/-!
# Which task runs where

The scheduler hands out the tasks in turn, one for each timer interrupt of any
hart, and never looks at a task's state.  So after `k` ticks in all the next tick
takes task `k % T`, and whether two harts end up on one task depends on the order
of the ticks alone.  This module proves exactly when they do.
-/

namespace IloPali

open Transition

/-! ## 1. Ticks -/

/-- One timer interrupt of hart `h`. -/
def TimerTick (m : Harts) (h : Nat) (m' : Harts) : Prop := HandlerStep m (h, .timer) m'

/-- No two harts run one task. -/
def Exclusive (m : Harts) : Prop := ∀ h h', h ≠ h' → m.pid h = m.pid h' → m.pid h < 0

/-- The task at the cursor is ready, or is the one this hart already runs. -/
def ReadyFor (h : Nat) (m : Harts) : Prop :=
  m.pid h = m.sys.next ∨ (m.sys.tasks m.sys.next.toNat).state = .ready

/-- **No task runs on two harts at once**, at any point of the ticks: the harts run
    different tasks, and every tick finds its task ready. -/
def NeverShared (m0 : Harts) (ticks : List Nat) : Prop :=
  ∀ pre, pre <+: ticks → ∃ m, Run TimerTick m0 pre m ∧ Exclusive m ∧
    ∀ h, pre ++ [h] <+: ticks → ReadyFor h m

/-- Every hart that ticks has ticked again by the time its task comes up. -/
def Revisits (T : Nat) (ticks : List Nat) : Prop :=
  ∀ i, i + T < ticks.length → ∃ j, i < j ∧ j ≤ i + T ∧ ticks[j]? = ticks[i]?

theorem timerTick_deterministic (m : Harts) (h : Nat) (m1 m2 : Harts) (h1 : TimerTick m h m1)
    (h2 : TimerTick m h m2) : m1 = m2 := by
  rcases h1 with ⟨hc1⟩
  rcases h2 with ⟨hc2⟩
  rw [hc1] at hc2
  obtain ⟨rfl, rfl⟩ := Prod.mk.inj (Except.ok.inj hc2)
  rfl

/-! ## 2. The state after any ticks -/

/-- After `ticks` each hart runs the task of its last tick, or idles. -/
structure Ticked (T : Nat) (ticks : List Nat) (m : Harts) : Prop where
  scheduled : Scheduled T m.sys
  next : m.sys.next = (ticks.length % T : Nat)
  holds : ∀ h, (h ∉ ticks ∧ m.current h = .hart h) ∨
    ∃ i, ticks[i]? = some h ∧ (∀ j, i < j → ticks[j]? ≠ some h) ∧ m.current h = .task (i % T)

theorem Ticked.fits {T : Nat} {ticks : List Nat} {m : Harts} (hm : Ticked T ticks m) (h : Nat) :
    (m.current h).Fits T h := by
  rcases hm.holds h with ⟨_, hidle⟩ | ⟨i, _, _, htask⟩
  · exact Or.inl hidle
  · exact Or.inr ⟨i % T, Nat.mod_lt _ hm.scheduled.one_le, htask⟩

theorem KinitLeaves.ticked {T : Nat} {m : Harts} (hm : KinitLeaves T m) : Ticked T [] m :=
  ⟨hm.scheduled, by rw [hm.cursor.1]; simp, fun h => Or.inl ⟨by simp, (hm.idle h).1⟩⟩

/-- One more tick. -/
theorem Ticked.tick {T : Nat} {ticks : List Nat} {m : Harts} (hm : Ticked T ticks m) (h : Nat) :
    ∃ m', TimerTick m h m' ∧ Ticked T (ticks ++ [h]) m' ∧
      Switched T h (m.current h) (ticks.length % T) m.sys m'.sys ∧
      m'.current = Function.update m.current h (.task (ticks.length % T)) := by
  have hn := Nat.mod_lt ticks.length hm.scheduled.one_le
  obtain ⟨s', hcall, hsw⟩ := timerSwitch_spec hm.scheduled hn hm.next (hm.fits h)
  refine ⟨⟨s', Function.update m.current h (.task (ticks.length % T))⟩, .mk hcall,
    ⟨hsw.scheduled, ?_, fun h' => ?_⟩, hsw, rfl⟩
  · rw [hsw.next, List.length_append, List.length_singleton, Nat.mod_add_mod]
  · by_cases hh : h' = h
    · subst hh
      refine Or.inr ⟨ticks.length, by simp, fun j hj => ?_, Function.update_self _ _ _⟩
      rw [List.getElem?_eq_none (by rw [List.length_append, List.length_singleton]; omega)]
      exact nofun
    · simp only [Function.update_of_ne hh]
      rcases hm.holds h' with ⟨hnot, hidle⟩ | ⟨i, hi, hlast, htask⟩
      · exact Or.inl ⟨by simp [hnot, hh], hidle⟩
      · have hlt : i < ticks.length := by
          by_contra hge
          rw [List.getElem?_eq_none (by omega)] at hi
          exact nomatch hi
        refine Or.inr ⟨i, by rw [List.getElem?_append_left hlt, hi], fun j hj => ?_, htask⟩
        by_cases hjlt : j < ticks.length
        · rw [List.getElem?_append_left hjlt]
          exact hlast j hj
        · rw [List.getElem?_append_right (by omega)]
          exact fun hc => hh (List.mem_singleton.mp (List.mem_of_getElem? hc))

/-- Any ticks can happen, and the state after them is the one described. -/
theorem KinitLeaves.run {T : Nat} {m0 : Harts} (h0 : KinitLeaves T m0) (ticks : List Nat) :
    ∃ m, Run TimerTick m0 ticks m ∧ Ticked T ticks m := by
  induction ticks using List.reverseRecOn with
  | nil => exact ⟨m0, .nil m0, h0.ticked⟩
  | append_singleton ticks h ih =>
    obtain ⟨m, hrun, hm⟩ := ih
    obtain ⟨m', hstep, hm', _⟩ := hm.tick h
    exact ⟨m', hrun.append (.cons hstep (.nil m')), hm'⟩

theorem Run.ticked {T : Nat} {m0 m : Harts} (h0 : KinitLeaves T m0) {ticks : List Nat}
    (hrun : Run TimerTick m0 ticks m) : Ticked T ticks m := by
  obtain ⟨m', hrun', hm'⟩ := h0.run ticks
  rw [hrun.deterministic timerTick_deterministic hrun']
  exact hm'

theorem Ticked.pid {T : Nat} {ticks : List Nat} {m : Harts} (hm : Ticked T ticks m) (h : Nat) :
    (h ∉ ticks ∧ m.pid h = -1) ∨
    ∃ i, ticks[i]? = some h ∧ (∀ j, i < j → ticks[j]? ≠ some h) ∧ m.pid h = (i % T : Nat) := by
  rcases hm.holds h with ⟨hnot, hidle⟩ | ⟨i, hi, hlast, htask⟩
  · refine Or.inl ⟨hnot, ?_⟩
    rw [Harts.pid, hidle, trap_pid_hart hm.scheduled]
  · refine Or.inr ⟨i, hi, hlast, ?_⟩
    rw [Harts.pid, htask, trap_pid_task hm.scheduled (Nat.mod_lt i hm.scheduled.one_le)]

/-! ## 3. When a task is shared -/

theorem getElem?_ticks {pre ticks : List Nat} (hpre : pre <+: ticks) {i : Nat}
    (hi : i < pre.length) : pre[i]? = ticks[i]? := by
  obtain ⟨rest, rfl⟩ := hpre
  rw [List.getElem?_append_left hi]

theorem lt_length_of_getElem? {ticks : List Nat} {i h : Nat} (hi : ticks[i]? = some h) :
    i < ticks.length := by
  by_contra hge
  rw [List.getElem?_eq_none (by omega)] at hi
  exact nomatch hi

/-- Positions that take the same task are `T` apart at least. -/
theorem le_of_mod_eq {T i i' : Nat} (hlt : i < i') (hmod : i % T = i' % T) : i + T ≤ i' := by
  have hdvd : T ∣ i' - i := (Nat.modEq_iff_dvd' hlt.le).mp hmod
  have := Nat.le_of_dvd (by omega) hdvd
  omega

theorem exclusive_of_revisits {T : Nat} {pre ticks : List Nat} {m : Harts} (hm : Ticked T pre m)
    (hpre : pre <+: ticks) (hrev : Revisits T ticks) : Exclusive m := by
  -- the hart whose tick came first has ticked again
  have hapart : ∀ h i i', pre[i]? = some h → (∀ j, i < j → pre[j]? ≠ some h) →
      i' < pre.length → i < i' → i % T ≠ i' % T := by
    intro h i i' hi hlast hi' hlt hmod
    have hT := le_of_mod_eq hlt hmod
    have hilt := lt_length_of_getElem? hi
    obtain ⟨j, h1, h2, hj⟩ := hrev i (Nat.lt_of_lt_of_le (by omega) hpre.length_le)
    apply hlast j h1
    rw [getElem?_ticks hpre (by omega), hj, ← getElem?_ticks hpre hilt, hi]
  intro h h' hne heq
  by_contra hpos
  rcases hm.pid h with ⟨_, hidle⟩ | ⟨i, hi, hlast, hpid⟩
  · omega
  · rcases hm.pid h' with ⟨_, hidle⟩ | ⟨i', hi', hlast', hpid'⟩
    · omega
    · have hmod : i % T = i' % T := by omega
      rcases Nat.lt_trichotomy i i' with hlt | rfl | hlt
      · exact hapart h i i' hi hlast (lt_length_of_getElem? hi') hlt hmod
      · rw [hi, Option.some.injEq] at hi'
        exact hne hi'
      · exact hapart h' i' i hi' hlast' (lt_length_of_getElem? hi) hlt hmod.symm

theorem revisits_of_exclusive {T : Nat} {m0 : Harts} (h0 : KinitLeaves T m0) {ticks : List Nat}
    (hex : ∀ pre, pre <+: ticks → ∃ m, Run TimerTick m0 pre m ∧ Exclusive m) :
    Revisits T ticks := by
  intro i hi
  by_contra hno
  have hone := h0.one_le
  -- look at the machine right after tick `i + T`
  obtain ⟨m, hrun, hexcl⟩ := hex (ticks.take (i + T + 1)) (List.take_prefix _ _)
  have hm := Run.ticked h0 hrun
  have hget : ∀ j, j ≤ i + T → (ticks.take (i + T + 1))[j]? = ticks[j]? := fun j hj =>
    List.getElem?_take_of_lt (by omega)
  have hlen : (ticks.take (i + T + 1)).length = i + T + 1 := by
    rw [List.length_take]
    omega
  obtain ⟨a, ha⟩ : ∃ a, ticks[i]? = some a := ⟨_, List.getElem?_eq_getElem (by omega)⟩
  obtain ⟨b, hb⟩ : ∃ b, ticks[i + T]? = some b := ⟨_, List.getElem?_eq_getElem hi⟩
  have hab : a ≠ b := by
    rintro rfl
    exact hno ⟨i + T, by omega, le_refl _, hb.trans ha.symm⟩
  have hpida : m.pid a = (i % T : Nat) := by
    rcases hm.pid a with ⟨hnot, _⟩ | ⟨i', hi', hlast, hpid⟩
    · exact absurd (List.mem_of_getElem? ((hget i (by omega)).trans ha)) hnot
    · have hlt := lt_length_of_getElem? hi'
      have hle : i ≤ i' := by
        by_contra hgt
        exact hlast i (by omega) ((hget i (by omega)).trans ha)
      have hge : i' ≤ i := by
        by_contra hgt
        rw [hget i' (by omega)] at hi'
        exact hno ⟨i', by omega, by omega, hi'.trans ha.symm⟩
      rw [hpid, show i' = i by omega]
  have hpidb : m.pid b = (i % T : Nat) := by
    rcases hm.pid b with ⟨hnot, _⟩ | ⟨i', hi', hlast, hpid⟩
    · exact absurd (List.mem_of_getElem? ((hget (i + T) (le_refl _)).trans hb)) hnot
    · have hlt := lt_length_of_getElem? hi'
      have hle : i + T ≤ i' := by
        by_contra hgt
        exact hlast (i + T) (by omega) ((hget (i + T) (le_refl _)).trans hb)
      rw [hpid, show i' = i + T by omega, Nat.add_mod_right]
  have hneg := hexcl a b hab (hpida.trans hpidb.symm)
  omega

/-! ## 4. The tasks' states -/

/-- A task is running if it is on a hart, and ready otherwise. -/
def StatesMatch (T : Nat) (m : Harts) : Prop :=
  ∀ i, i < T → ((m.sys.tasks i).state = .running ∧ ∃ h, m.current h = .task i) ∨
    ((m.sys.tasks i).state = .ready ∧ ∀ h, m.current h ≠ .task i)

theorem KinitLeaves.statesMatch {T : Nat} {m : Harts} (h0 : KinitLeaves T m) : StatesMatch T m := by
  intro i hi
  refine Or.inr ⟨(h0.spawned i hi).2.2, fun h => ?_⟩
  rw [(h0.idle h).1]
  exact nofun

theorem StatesMatch.switched {T : Nat} {m m' : Harts} (hs : StatesMatch T m) (hex : Exclusive m)
    (hsched : Scheduled T m.sys) {h n : Nat} (hn : n < T)
    (hsw : Switched T h (m.current h) n m.sys m'.sys)
    (hcur : m'.current = Function.update m.current h (.task n)) : StatesMatch T m' := by
  intro i hi
  rw [hsw.state i, hcur]
  by_cases hin : i = n
  · subst hin
    exact Or.inl ⟨if_pos rfl, h, Function.update_self _ _ _⟩
  · rw [if_neg hin]
    by_cases hown : m.current h = .task i
    · -- task `i` leaves this hart, and was on no other
      rcases hs i hi with ⟨hrun, _⟩ | ⟨_, hnone⟩
      · rw [if_pos ⟨hown, hrun⟩]
        refine Or.inr ⟨rfl, fun h' hc => ?_⟩
        by_cases hh : h' = h
        · subst hh
          rw [Function.update_self, TrapRef.task.injEq] at hc
          exact hin hc.symm
        · rw [Function.update_of_ne hh] at hc
          have hneg := hex h h' (Ne.symm hh) (by rw [Harts.pid, Harts.pid, hown, hc])
          rw [Harts.pid, hown, trap_pid_task hsched hi] at hneg
          omega
      · exact absurd hown (hnone h)
    · rw [if_neg fun hc => hown hc.1]
      rcases hs i hi with ⟨hrun, h', hh'⟩ | ⟨hready, hnone⟩
      · have hh : h' ≠ h := by
          rintro rfl
          exact hown hh'
        exact Or.inl ⟨hrun, h', by rw [Function.update_of_ne hh, hh']⟩
      · refine Or.inr ⟨hready, fun h' hc => ?_⟩
        by_cases hh : h' = h
        · subst hh
          rw [Function.update_self, TrapRef.task.injEq] at hc
          exact hin hc.symm
        · rw [Function.update_of_ne hh] at hc
          exact hnone h' hc

theorem statesMatch_of_revisits {T : Nat} {m0 : Harts} (h0 : KinitLeaves T m0) {ticks : List Nat}
    (hrev : Revisits T ticks) (pre : List Nat) (hpre : pre <+: ticks) {m : Harts}
    (hrun : Run TimerTick m0 pre m) : StatesMatch T m := by
  induction pre using List.reverseRecOn generalizing m with
  | nil =>
    cases hrun
    exact h0.statesMatch
  | append_singleton pre h ih =>
    have hpre' : pre <+: ticks := (List.prefix_append pre [h]).trans hpre
    obtain ⟨m1, hrun1, hm1⟩ := h0.run pre
    obtain ⟨m', hstep, _, hsw, hcur⟩ := hm1.tick h
    have heq := hrun.deterministic timerTick_deterministic
      (hrun1.append (.cons hstep (.nil m')))
    subst heq
    exact (ih hpre' hrun1).switched (exclusive_of_revisits hm1 hpre' hrev) hm1.scheduled
      (Nat.mod_lt _ h0.one_le) hsw hcur

theorem readyFor_of_exclusive {T : Nat} {pre : List Nat} {m m' : Harts} (hm : Ticked T pre m)
    (hs : StatesMatch T m) {h : Nat} (hex : Exclusive m') (hm' : Ticked T (pre ++ [h]) m')
    (hcur : m'.current = Function.update m.current h (.task (pre.length % T))) : ReadyFor h m := by
  have hn := Nat.mod_lt pre.length hm.scheduled.one_le
  rw [ReadyFor, hm.next, Int.toNat_natCast]
  rcases hs _ hn with ⟨_, h', hh'⟩ | ⟨hready, _⟩
  · by_cases hh : h' = h
    · subst hh
      left
      rw [Harts.pid, hh', trap_pid_task hm.scheduled hn]
    · -- the task would run on both harts after this tick
      exfalso
      have htask' : m'.current h' = .task (pre.length % T) := by
        rw [hcur, Function.update_of_ne hh, hh']
      have htask : m'.current h = .task (pre.length % T) := by
        rw [hcur, Function.update_self]
      have hneg := hex h h' (Ne.symm hh) (by rw [Harts.pid, Harts.pid, htask, htask'])
      rw [Harts.pid, htask, trap_pid_task hm'.scheduled hn] at hneg
      omega
  · exact Or.inr hready

/-- **Exactly when no task is shared.**  From the state `kinit` leaves, whatever the
    number of harts and tasks, no task is ever on two harts, and every tick finds
    its task ready, if and only if each hart ticks again before the task it took
    comes up once more. -/
theorem never_shared_iff (T : Nat) (m0 : Harts) (h0 : KinitLeaves T m0) (ticks : List Nat) :
    NeverShared m0 ticks ↔ Revisits T ticks := by
  constructor
  · intro hnever
    refine revisits_of_exclusive h0 fun pre hpre => ?_
    obtain ⟨m, hrun, hex, _⟩ := hnever pre hpre
    exact ⟨m, hrun, hex⟩
  · intro hrev pre hpre
    obtain ⟨m, hrun, hm⟩ := h0.run pre
    refine ⟨m, hrun, exclusive_of_revisits hm hpre hrev, fun h hnext => ?_⟩
    obtain ⟨m', _, hm', _, hcur⟩ := hm.tick h
    exact readyFor_of_exclusive hm (statesMatch_of_revisits h0 hrev pre hpre hrun)
      (exclusive_of_revisits hm' hnext hrev) hm' hcur

/-- Two tasks and one hart, ticking four times. -/
theorem never_shared_one_hart : NeverShared (.kinit 2) [0, 0, 0, 0] := by
  refine (never_shared_iff 2 (.kinit 2) (Harts.kinit_leaves (by decide) (by decide)) _).mpr ?_
  intro i hi
  refine ⟨i + 1, by omega, by omega, ?_⟩
  have hi' : i < 2 := by simp only [List.length_cons, List.length_nil] at hi; omega
  rcases Nat.lt_succ_iff_lt_or_eq.mp hi' with h | rfl
  · rw [show i = 0 by omega]
    rfl
  · rfl

/-- **Two harts on one task**: with a single task, the second hart's first tick takes
    the task that the first hart is running. -/
theorem shared_by_two_harts : ¬ NeverShared (.kinit 1) [0, 1] := by
  intro hnever
  obtain ⟨m, hrun, hex, _⟩ := hnever [0, 1] List.prefix_rfl
  have h0 := Harts.kinit_leaves (le_refl 1) (by decide)
  have hm := Run.ticked h0 hrun
  have hpid : ∀ h, h ∈ [0, 1] → m.pid h = 0 := by
    intro h hmem
    rcases hm.pid h with ⟨hnot, _⟩ | ⟨i, _, _, hpid⟩
    · exact absurd hmem hnot
    · rw [hpid, Nat.mod_one]
      rfl
  have hneg := hex 0 1 (by decide) ((hpid 0 (by decide)).trans (hpid 1 (by decide)).symm)
  rw [hpid 0 (by decide)] at hneg
  exact absurd hneg (by decide)

end IloPali
