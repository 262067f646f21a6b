import IloPali.InterruptStacks
import IloPali.Fairness

/-!
# Startup (`kernel.c`, `process.c`)

`kinit` fills the task table and then starts the harts; each of them runs `init_hart_helper`
when it comes up, while the harts before it already take traps.

A hart that is not up yet has a record that no trap of the others reads or writes.  So a run
in which the harts come up one after the other is a run from the state in which they are all
idle, and what holds of the runs from there holds whatever the order is.
-/

namespace IloPali

open Transition

/-! ## 1. The code -/

/-- `spawn_task_from_elf`, for one program after the other. -/
def spawnAll : List Loaded → System → Option System
  | [], s => some s
  | p :: ps, s => (freeSlot s).bind fun pid => spawnAll ps (installTask s pid p)

/-- The record of a hart after `init_hart_helper`. -/
def initTrap (L : Layout) (doNothing : Word) (h : Nat) (trap : Trap) : Trap :=
  { trap with hartid := h, interruptStack := interruptStack L h, pid := -1, pc := doNothing }

/-- `init_hart_helper` up to its jump. -/
def initHartHelper (L : Layout) (root h : Nat) (s : System) : System :=
  { s with
    traps := Function.update s.traps h (initTrap L s.doNothing h (s.traps h))
    satp := Function.update s.satp h (setMmu root (s.satp h)) }

/-- The harts, and which of them are up. -/
structure Startup where
  harts : Harts
  up : Nat → Bool

inductive StartupEvent
  | start (h : Nat)
  | trap (h : Nat) (c : Cause)

def StartupEvent.taken : StartupEvent → Option (Nat × Cause)
  | .start _ => none
  | .trap h c => some (h, c)

/-- A hart comes up, or one that is up takes a trap. -/
inductive StartupStep (L : Layout) (root : Nat) : Startup → StartupEvent → Startup → Prop
  | start {b : Startup} {h : Nat} (hoff : b.up h = false) :
      StartupStep L root b (.start h)
        ⟨⟨initHartHelper L root h b.harts.sys, Function.update b.harts.current h (.hart h)⟩,
          Function.update b.up h true⟩
  | trap {b : Startup} {h : Nat} {c : Cause} {m : Harts} (hon : b.up h = true)
      (hstep : HandlerStep b.harts (h, c) m) : StartupStep L root b (.trap h c) ⟨m, b.up⟩

/-- Before any hart is up. -/
def Startup.before (s : System) (current : Nat → TrapRef) : Startup := ⟨⟨s, current⟩, fun _ => false⟩

/-! ## 2. The task table -/

/-- Nothing has been spawned. -/
structure Unspawned (s : System) : Prop where
  dead : ∀ i : Nat, (i : Int) < s.maxPid → (s.tasks i).state = .dead
  cursor : s.next = 0 ∧ s.upTo = 0

/-- A root table that `set_mmu` can be given. -/
def IsRoot (root : Nat) : Prop := root ≠ 0 ∧ root % 4096 = 0 ∧ root < 2 ^ 56

/-- The first `n` slots are filled. -/
structure Occupied (n : Nat) (s : System) : Prop where
  tasks : ∀ i, i < n → (s.tasks i).pid = i ∧ (s.tasks i).trap.pid = i ∧ (s.tasks i).state = .ready
  roots : ∀ i, i < n → IsRoot (s.tasks i).mmuData
  dead : ∀ i, n ≤ i → (i : Int) < s.maxPid → (s.tasks i).state = .dead
  next : s.next = 0
  upTo : s.upTo = if n = 0 then 0 else (n : Int) - 1

theorem Unspawned.occupied {s : System} (h : Unspawned s) : Occupied 0 s :=
  ⟨fun _ hi => absurd hi (Nat.not_lt_zero _), fun _ hi => absurd hi (Nat.not_lt_zero _),
    fun i _ hi => h.dead i hi, h.cursor.1, h.cursor.2⟩

section Spawn

variable {s : System} {n : Nat}

theorem Occupied.freeSlot (hs : Occupied n s) (hroom : (n : Int) < s.maxPid) :
    freeSlot s = some n := by
  obtain ⟨_, hle, hfull, hdead⟩ := freeSlotLoop_spec s s.maxPid.toNat 0
  have hn : freeSlotLoop s s.maxPid.toNat 0 = n := by
    rcases Nat.lt_trichotomy (freeSlotLoop s s.maxPid.toNat 0) n with hlt | heq | hgt
    · have hready := (hs.tasks _ hlt).2.2
      rw [hdead (by omega)] at hready
      cases hready
    · exact heq
    · exact absurd (hs.dead n (Nat.le_refl n) hroom) (hfull n (Nat.zero_le n) hgt)
  rw [IloPali.freeSlot, hn, if_neg (by omega)]

theorem Occupied.installTask (hs : Occupied n s) {p : Loaded} (hp : IsRoot p.top) :
    Occupied (n + 1) (installTask s n p) ∧ (installTask s n p).maxPid = s.maxPid := by
  have hle : s.upTo ≤ n := by
    rw [hs.upTo]
    split
    · exact Int.natCast_nonneg n
    · exact Int.sub_le_self _ (by decide)
  obtain ⟨hmax, _, hnext, hup, hpid, htrap, htop, hready, hother⟩ := installTask_spec s n p hle
  have hold : ∀ i, i < n + 1 → i = n ∨ i < n := fun i hi => by omega
  refine ⟨⟨fun i hi => ?_, fun i hi => ?_, fun i hi hlt => ?_, hnext.trans hs.next, ?_⟩, hmax⟩
  · rcases hold i hi with rfl | hlt
    · exact ⟨hpid, htrap, hready⟩
    · rw [hother i (Nat.ne_of_lt hlt)]
      exact hs.tasks i hlt
  · rcases hold i hi with rfl | hlt
    · rwa [htop]
    · rw [hother i (Nat.ne_of_lt hlt)]
      exact hs.roots i hlt
  · rw [hmax] at hlt
    rw [hother i (Nat.ne_of_gt hi)]
    exact hs.dead i (Nat.le_of_succ_le hi) hlt
  · rw [hup, if_neg (Nat.succ_ne_zero n), Nat.cast_succ, Int.add_sub_cancel]

/-- **The table is filled from its first slot on.** -/
theorem Occupied.spawnAll (hs : Occupied n s) {ps : List Loaded} (hps : ∀ p ∈ ps, IsRoot p.top)
    (hroom : ((n + ps.length : Nat) : Int) ≤ s.maxPid) :
    ∃ t, spawnAll ps s = some t ∧ Occupied (n + ps.length) t ∧ t.maxPid = s.maxPid := by
  induction ps generalizing n s with
  | nil => exact ⟨s, rfl, hs, rfl⟩
  | cons p ps ih =>
    rw [List.length_cons] at hroom
    have hslot := hs.freeSlot (by omega)
    obtain ⟨hnext, hmax⟩ := hs.installTask (hps p List.mem_cons_self)
    obtain ⟨t, ht, hoccupied, htmax⟩ := ih hnext (fun q hq => hps q (List.mem_cons_of_mem p hq))
      (by rw [hmax]; omega)
    refine ⟨t, ?_, ?_, htmax.trans hmax⟩
    · rw [IloPali.spawnAll, hslot]
      exact ht
    · rwa [List.length_cons, Nat.add_comm ps.length 1, ← Nat.add_assoc]

end Spawn

/-! ## 3. Harts that are not up -/

/-- The system with other records and page tables for the harts that are not up. -/
def System.overlay (s : System) (up : Nat → Bool) (traps : Nat → Trap) (satp : Nat → Word) : System :=
  { s with
    traps := fun h => if up h = true then s.traps h else traps h
    satp := fun h => if up h = true then s.satp h else satp h }

/-- A record that a hart which is up can be running on. -/
def TrapRef.Up (up : Nat → Bool) (r : TrapRef) : Prop := ∀ h, r = .hart h → up h = true

theorem update_overlay {α : Type} {up : Nat → Bool} {h : Nat} (hon : up h = true) (f g : Nat → α)
    (v : α) : Function.update (fun i => if up i = true then f i else g i) h v =
      fun i => if up i = true then Function.update f h v i else g i := by
  funext i
  by_cases hi : i = h
  · subst hi
    simp [hon]
  · simp [Function.update_of_ne hi]

namespace System

variable (s : System) (up : Nat → Bool) (traps : Nat → Trap) (satp : Nat → Word)

theorem overlay_self : s.overlay up s.traps s.satp = s := by
  simp [overlay]

theorem overlay_getTask (pid : Int) : getTask (s.overlay up traps satp) pid = getTask s pid := rfl

theorem overlay_scheduleTask (pid : Int) :
    scheduleTask pid (s.overlay up traps satp) = (scheduleTask pid s).overlay up traps satp := by
  unfold scheduleTask
  by_cases h : pid > s.upTo
  · rw [if_pos h]
    exact if_pos h
  · rw [if_neg h]
    exact if_neg h

variable {up}

theorem overlay_trap {r : TrapRef} (hr : r.Up up) :
    (s.overlay up traps satp).trap r = s.trap r := by
  cases r with
  | hart h => exact if_pos (hr h rfl)
  | task i => rfl

theorem overlay_setTrap {r : TrapRef} (hr : r.Up up) (t : Trap) :
    (s.overlay up traps satp).setTrap r t = (s.setTrap r t).overlay up traps satp := by
  cases r with
  | hart h => simp only [setTrap, overlay, update_overlay (hr h rfl)]
  | task i => rfl

theorem overlay_skipCall {r : TrapRef} (hr : r.Up up) :
    (s.overlay up traps satp).skipCall r = (s.skipCall r).overlay up traps satp := by
  rw [skipCall, overlay_trap s traps satp hr, overlay_setTrap s traps satp hr, skipCall]

theorem overlay_dispatch {hart : Nat} (hon : up hart = true) (trap : Trap) (i : Nat) :
    dispatch hart trap i (s.overlay up traps satp) =
      (dispatch hart trap i s).overlay up traps satp := by
  simp only [dispatch, overlay, setTask, if_pos hon, update_overlay hon]

end System

section Overlay

variable {up : Nat → Bool} {hart : Nat} {r : TrapRef} (hon : up hart = true) (hr : r.Up up)
  (s : System) (traps : Nat → Trap) (satp : Nat → Word)
include hon hr

/-- What a call returns, with the harts that are not up replaced. -/
def overlayResult (up : Nat → Bool) (traps : Nat → Trap) (satp : Nat → Word) :
    Except Fault (TrapRef × System) → Except Fault (TrapRef × System) :=
  Except.map fun x => (x.1, x.2.overlay up traps satp)

theorem switchToNext_overlay (task : Option Nat) :
    switchToNext hart r task (s.overlay up traps satp) =
      overlayResult up traps satp (switchToNext hart r task s) := by
  have hnext : nextScheduledTask (s.overlay up traps satp) =
    ((nextScheduledTask s).1, (nextScheduledTask s).2.overlay up traps satp) := rfl
  unfold switchToNext
  rw [hnext]
  dsimp only
  rw [System.overlay_trap _ _ _ hr, System.overlay_setTrap _ _ _ hr, System.overlay_getTask]
  by_cases hneg : (nextScheduledTask s).1 < 0
  · rw [if_pos hneg, if_pos hneg]
    rfl
  rw [if_neg hneg, if_neg hneg]
  by_cases hsame : ((nextScheduledTask s).2.trap r).pid = (nextScheduledTask s).1
  · rw [if_pos hsame, if_pos hsame]
    cases task with
    | none => rfl
    | some i => rfl
  · rw [if_neg hsame, if_neg hsame]
    cases getTask (nextScheduledTask s).2 (nextScheduledTask s).1 with
    | none => rfl
    | some i =>
      dsimp only
      rw [System.overlay_dispatch _ _ _ hon]
      rfl

theorem timerSwitch_overlay : timerSwitch hart r (s.overlay up traps satp) =
    overlayResult up traps satp (timerSwitch hart r s) := by
  unfold timerSwitch
  rw [System.overlay_trap _ _ _ hr, System.overlay_getTask]
  by_cases hpid : (s.trap r).pid ≥ 0
  · rw [if_pos hpid, if_pos hpid]
    cases getTask s (s.trap r).pid with
    | none => rfl
    | some i =>
      dsimp only
      have hready : (if ((s.overlay up traps satp).tasks i).state = .running then
            (s.overlay up traps satp).setState i .ready else s.overlay up traps satp) =
          (if (s.tasks i).state = .running then s.setState i .ready else s).overlay up traps satp := by
        by_cases hrun : (s.tasks i).state = .running
        · rw [if_pos hrun]
          exact if_pos hrun
        · rw [if_neg hrun]
          exact if_neg hrun
      rw [hready, System.overlay_scheduleTask]
      exact switchToNext_overlay hon hr _ traps satp (some i)
  · rw [if_neg hpid, if_neg hpid]
    exact switchToNext_overlay hon hr s traps satp none

omit hon in
theorem handlerTail_overlay : handlerTail hart r (s.overlay up traps satp) =
    overlayResult up traps satp (handlerTail hart r s) := by
  unfold handlerTail
  rw [System.overlay_trap _ _ _ hr, System.overlay_getTask]
  cases getTask s (s.trap r).pid with
  | none => rfl
  | some i => rfl

/-- **A trap does not see the harts that are not up.** -/
theorem interruptHandler_overlay (c : Cause) : interruptHandler hart c r (s.overlay up traps satp) =
    overlayResult up traps satp (interruptHandler hart c r s) := by
  have htail := fun s => @handlerTail_overlay up hart r hr s traps satp
  cases c with
  | software =>
    unfold interruptHandler
    rw [System.overlay_trap _ _ _ hr, System.overlay_getTask]
    cases getTask s (s.trap r).pid with
    | none =>
      dsimp only
      rw [timerSwitch_overlay hon hr]
      cases timerSwitch hart r s with
      | error e => rfl
      | ok x => exact htail x.2
    | some i => exact htail s
  | timer => exact timerSwitch_overlay hon hr s traps satp
  | external => exact htail s
  | breakpoint => exact htail s
  | environmentCall =>
    unfold interruptHandler
    dsimp only
    rw [System.overlay_skipCall _ _ _ hr, System.overlay_trap _ _ _ hr, System.overlay_getTask]
    by_cases hnull : ((s.skipCall r).trap r).xs 10 = 0#64 ∧
        getTask (s.skipCall r) ((s.skipCall r).trap r).pid = none
    · rw [if_pos hnull, if_pos hnull]
      rfl
    · rw [if_neg hnull, if_neg hnull]
      exact htail _
  | other => rfl

end Overlay

@[simp] theorem System.setTrap_doNothing (s : System) (r : TrapRef) (t : Trap) :
    (s.setTrap r t).doNothing = s.doNothing := by
  cases r with
  | hart h => rfl
  | task i => rfl

@[simp] theorem scheduleTask_doNothing (pid : Int) (s : System) :
    (scheduleTask pid s).doNothing = s.doNothing := by
  unfold scheduleTask
  split
  · rfl
  · rfl

/-- What every call of the handler leaves: the record that it came on or one of a task, and the code of
    the harts that idle. -/
def Returns (r : TrapRef) (s : System) (x : TrapRef × System) : Prop :=
  (x.1 = r ∨ ∃ i, x.1 = .task i) ∧ x.2.doNothing = s.doNothing

section Returns

variable {hart : Nat} {r : TrapRef} {s : System} {x : TrapRef × System}

theorem switchToNext_returns {task : Option Nat} (hcall : switchToNext hart r task s = .ok x) :
    Returns r s x := by
  unfold switchToNext at hcall
  dsimp only at hcall
  repeat' split at hcall
  all_goals cases hcall
  · exact ⟨Or.inl rfl, System.setTrap_doNothing _ _ _⟩
  · exact ⟨Or.inl rfl, rfl⟩
  · exact ⟨Or.inr ⟨_, rfl⟩, rfl⟩

theorem timerSwitch_returns (hcall : timerSwitch hart r s = .ok x) : Returns r s x := by
  unfold timerSwitch at hcall
  split at hcall
  · split at hcall
    · cases hcall
    · obtain ⟨hr, hkept⟩ := switchToNext_returns hcall
      refine ⟨hr, hkept.trans ?_⟩
      rw [scheduleTask_doNothing]
      split
      · rfl
      · rfl
  · exact switchToNext_returns hcall

theorem handlerTail_returns (hcall : handlerTail hart r s = .ok x) : x = (r, s) := by
  unfold handlerTail at hcall
  split at hcall
  · cases hcall
  · simpa [shouldSwitchNow, eq_comm] using hcall

theorem interruptHandler_returns {c : Cause} (hcall : interruptHandler hart c r s = .ok x) :
    Returns r s x := by
  have htail : handlerTail hart r s = .ok x → Returns r s x := fun h => by
    rw [handlerTail_returns h]
    exact ⟨Or.inl rfl, rfl⟩
  cases c with
  | timer => exact timerSwitch_returns hcall
  | other => cases hcall
  | software =>
    simp only [interruptHandler] at hcall
    split at hcall
    · split at hcall
      · cases hcall
      · rename_i hsw
        rw [handlerTail_returns hcall]
        exact ⟨Or.inl rfl, (timerSwitch_returns hsw).2⟩
    · exact htail hcall
  | environmentCall =>
    simp only [interruptHandler] at hcall
    split at hcall
    · cases hcall
    · rw [handlerTail_returns hcall]
      exact ⟨Or.inl rfl, System.setTrap_doNothing _ _ _⟩
  | external => exact htail hcall
  | breakpoint => exact htail hcall

end Returns

/-! ## 4. Runs -/

/-- The harts as they would be if those that are not up had come up as well. -/
def Startup.complete (L : Layout) (root : Nat) (b : Startup) : Harts where
  sys := b.harts.sys.overlay b.up
    (fun h => initTrap L b.harts.sys.doNothing h (b.harts.sys.traps h))
    fun h => setMmu root (b.harts.sys.satp h)
  current h := if b.up h = true then b.harts.current h else .hart h

/-- A hart that is up runs on the record of a hart that is up, or on one of a task. -/
def Startup.Steady (b : Startup) : Prop := ∀ h, b.up h = true → (b.harts.current h).Up b.up

section Complete

variable {L : Layout} {root : Nat} {b : Startup}

/-- **Coming up changes nothing** in the state that all harts come to. -/
theorem Startup.complete_start (L : Layout) (root : Nat) {h : Nat} (hoff : b.up h = false) :
    Startup.complete L root ⟨⟨initHartHelper L root h b.harts.sys,
      Function.update b.harts.current h (.hart h)⟩, Function.update b.up h true⟩ =
    b.complete L root := by
  simp only [complete, System.overlay, initHartHelper]
  congr 1
  · congr 1
    · funext h'
      by_cases hh : h' = h
      · subst hh
        simp [hoff]
      · simp [Function.update_of_ne hh]
    · funext h'
      by_cases hh : h' = h
      · subst hh
        simp [hoff]
      · simp [Function.update_of_ne hh]
  · funext h'
    by_cases hh : h' = h
    · subst hh
      simp [hoff]
    · simp [Function.update_of_ne hh]

theorem Startup.steady_start (L : Layout) (root : Nat) (hb : b.Steady) (h : Nat) : Startup.Steady
    ⟨⟨initHartHelper L root h b.harts.sys, Function.update b.harts.current h (.hart h)⟩,
      Function.update b.up h true⟩ := by
  intro h' hon k hk
  dsimp only at hon hk ⊢
  by_cases hh : h' = h
  · subst hh
    rw [Function.update_self] at hk
    cases hk
    simp
  · rw [Function.update_of_ne hh] at hon hk
    have hup := hb h' hon k hk
    by_cases hkh : k = h
    · simp [hkh]
    · rwa [Function.update_of_ne hkh]

theorem Startup.steady_trap (hb : b.Steady) {h : Nat} {c : Cause} {m : Harts}
    (hon : b.up h = true) (hstep : HandlerStep b.harts (h, c) m) : Startup.Steady ⟨m, b.up⟩ := by
  rcases hstep with ⟨hcall⟩
  rename_i r s
  intro h' hon'
  dsimp only at hon' ⊢
  by_cases hh : h' = h
  · subst hh
    rw [Function.update_self]
    rcases (interruptHandler_returns hcall).1 with rfl | ⟨i, rfl⟩
    · exact hb h' hon
    · intro k hk
      cases hk
  · rw [Function.update_of_ne hh]
    exact hb h' hon'

/-- The records and page tables of the harts that are not up are not touched. -/
theorem Startup.trap_others (hb : b.Steady) {h : Nat} {c : Cause} {r : TrapRef} {s : System}
    (hon : b.up h = true) (hcall : interruptHandler h c (b.harts.current h) b.harts.sys = .ok (r, s))
    {h' : Nat} (hoff : b.up h' = false) :
    s.traps h' = b.harts.sys.traps h' ∧ s.satp h' = b.harts.sys.satp h' := by
  have hframe : s.overlay b.up b.harts.sys.traps b.harts.sys.satp = s := by
    have hself := interruptHandler_overlay hon (hb h hon) b.harts.sys b.harts.sys.traps
      b.harts.sys.satp c
    rw [System.overlay_self, hcall] at hself
    exact (Prod.mk.inj (Except.ok.inj hself)).2.symm
  have htraps := congrFun (congrArg System.traps hframe) h'
  have hsatp := congrFun (congrArg System.satp hframe) h'
  simp only [System.overlay, hoff, Bool.false_eq_true, if_false] at htraps hsatp
  exact ⟨htraps.symm, hsatp.symm⟩

/-- **A trap** is the same trap in the state that all harts come to. -/
theorem Startup.complete_trap (hb : b.Steady) {h : Nat} {c : Cause} {m : Harts}
    (hon : b.up h = true) (hstep : HandlerStep b.harts (h, c) m) :
    HandlerStep (b.complete L root) (h, c) (Startup.complete L root ⟨m, b.up⟩) := by
  rcases hstep with ⟨hcall⟩
  rename_i r s
  have hup := hb h hon
  have hidle := (interruptHandler_returns hcall).2
  have hother : ∀ h', b.up h' = false → s.traps h' = b.harts.sys.traps h' ∧
      s.satp h' = b.harts.sys.satp h' := fun h' hoff => Startup.trap_others hb hon hcall hoff
  have hcomplete := interruptHandler_overlay hon hup b.harts.sys
    (fun h => initTrap L b.harts.sys.doNothing h (b.harts.sys.traps h))
    (fun h => setMmu root (b.harts.sys.satp h)) c
  rw [hcall] at hcomplete
  have hcurrent : (b.complete L root).current h = b.harts.current h := if_pos hon
  rw [← hcurrent] at hcomplete
  have hstep := HandlerStep.mk (m := b.complete L root) hcomplete
  convert hstep using 1
  simp only [Startup.complete, update_overlay hon]
  congr 1
  simp only [System.overlay]
  congr 1
  · funext h'
    by_cases hon' : b.up h' = true
    · rw [if_pos hon', if_pos hon']
    · rw [if_neg hon', if_neg hon', (hother h' (by simpa using hon')).1, hidle]
  · funext h'
    by_cases hon' : b.up h' = true
    · rw [if_pos hon', if_pos hon']
    · rw [if_neg hon', if_neg hon', (hother h' (by simpa using hon')).2]

theorem handlerStep_deterministic {m m1 m2 : Harts} {e : Nat × Cause} (h1 : HandlerStep m e m1)
    (h2 : HandlerStep m e m2) : m1 = m2 := by
  cases h1 with
  | mk hcall =>
    cases h2 with
    | mk hcall' =>
      cases hcall.symm.trans hcall'
      rfl

/-- A trap in the state that all harts come to is one here, if the hart is up. -/
theorem Startup.of_complete (hb : b.Steady) {h : Nat} {c : Cause} {m : Harts}
    (hon : b.up h = true) (hstep : HandlerStep (b.complete L root) (h, c) m) :
    ∃ m', HandlerStep b.harts (h, c) m' ∧ Startup.complete L root ⟨m', b.up⟩ = m := by
  rcases hstep with ⟨hcall⟩
  have hcurrent : (b.complete L root).current h = b.harts.current h := if_pos hon
  have hcomplete := interruptHandler_overlay hon (hb h hon) b.harts.sys
    (fun h => initTrap L b.harts.sys.doNothing h (b.harts.sys.traps h))
    (fun h => setMmu root (b.harts.sys.satp h)) c
  cases hmine : interruptHandler h c (b.harts.current h) b.harts.sys with
  | error e =>
    rw [hmine, ← hcurrent] at hcomplete
    cases hcomplete.symm.trans hcall
  | ok x =>
    have hstep := HandlerStep.mk hmine
    refine ⟨_, hstep, ?_⟩
    exact handlerStep_deterministic (Startup.complete_trap hb hon hstep) (.mk hcall)

theorem Startup.steady_run {es : List StartupEvent} {b' : Startup} (hb : b.Steady)
    (hrun : Run (StartupStep L root) b es b') : b'.Steady := by
  refine Run.invariant (fun b e b' hb hstep => ?_) hrun hb
  cases hstep with
  | start hoff => exact Startup.steady_start L root hb _
  | trap hon hstep => exact Startup.steady_trap hb hon hstep

/-- A run in which harts come up is a run of the harts that are all up. -/
theorem Startup.completes {es : List StartupEvent} {b' : Startup} (hb : b.Steady)
    (hrun : Run (StartupStep L root) b es b') :
    Run HandlerStep (b.complete L root) (es.filterMap StartupEvent.taken) (b'.complete L root) := by
  have hsim : ∀ (b : Startup) (e : StartupEvent) (b' : Startup) (m : Harts),
      b.Steady ∧ m = b.complete L root → StartupStep L root b e b' →
      (e.taken = none ∧ b'.Steady ∧ m = b'.complete L root) ∨
        ∃ e' m', e.taken = some e' ∧ HandlerStep m e' m' ∧ b'.Steady ∧ m' = b'.complete L root := by
    rintro b e b' m ⟨hb, rfl⟩ hstep
    cases hstep with
    | start hoff => exact Or.inl ⟨rfl, Startup.steady_start L root hb _,
        (Startup.complete_start L root hoff).symm⟩
    | trap hon hstep =>
      exact Or.inr ⟨_, _, rfl, Startup.complete_trap hb hon hstep,
        Startup.steady_trap hb hon hstep, rfl⟩
  obtain ⟨m, hm, _, rfl⟩ := hrun.stutters hsim _ ⟨hb, rfl⟩
  exact hm

/-- A run of the harts that are all up is one in which each comes up when it is needed. -/
theorem Startup.of_completed {es : List (Nat × Cause)} {m : Harts} (hb : b.Steady)
    (hrun : Run HandlerStep (b.complete L root) es m) :
    ∃ fs b', Run (StartupStep L root) b fs b' ∧ fs.filterMap StartupEvent.taken = es ∧
      b'.complete L root = m := by
  have hreal : ∀ (b : Startup) (m : Harts) (e : Nat × Cause) (m' : Harts),
      b.Steady ∧ m = b.complete L root → HandlerStep m e m' →
      ∃ fs b', Run (StartupStep L root) b fs b' ∧ fs.filterMap StartupEvent.taken = [e] ∧
        b'.Steady ∧ m' = b'.complete L root := by
    rintro b m ⟨h, c⟩ m' ⟨hb, rfl⟩ hstep
    cases hup : b.up h with
    | true =>
      obtain ⟨m1, hm1, rfl⟩ := Startup.of_complete hb hup hstep
      exact ⟨[.trap h c], _, .cons (.trap hup hm1) (.nil _), rfl,
        Startup.steady_trap hb hup hm1, rfl⟩
    | false =>
      have hb1 := Startup.steady_start L root hb h
      rw [← Startup.complete_start L root hup] at hstep
      obtain ⟨m1, hm1, rfl⟩ := Startup.of_complete hb1 (Function.update_self _ _ _) hstep
      exact ⟨[.start h, .trap h c], _, .cons (.start hup) (.cons (.trap (Function.update_self _ _ _)
        hm1) (.nil _)), rfl, Startup.steady_trap hb1 (Function.update_self _ _ _) hm1, rfl⟩
  obtain ⟨fs, b', hfs, hseen, _, rfl⟩ := hrun.realised hreal _ ⟨hb, rfl⟩
  exact ⟨fs, b', hfs, hseen, rfl⟩

end Complete

/-- What the harts come to is what the runs of the scheduler start from. -/
theorem Occupied.kinitLeaves {T : Nat} {s : System} (hs : Occupied T s) (hone : 1 ≤ T)
    (hroom : (T : Int) ≤ s.maxPid) (L : Layout) (root : Nat) (current : Nat → TrapRef) :
    KinitLeaves T ((Startup.before s current).complete L root) := by
  have hup := hs.upTo
  rw [if_neg (by omega)] at hup
  exact ⟨hone, hroom, fun h => ⟨rfl, rfl, rfl⟩, hs.tasks, hs.roots, hs.next, hup⟩

/-- **From `kinit` on.**  The programs get the first slots of the table.  However the harts come up
    between the traps of the others, the runs are those from the state in which all harts
    idle, each on a stack of its own; and the harts that are up are in the same state there. -/
theorem startup_runs (L : Layout) (s0 : System) (ps : List Loaded) (h0 : Unspawned s0)
    (hps : ∀ p ∈ ps, IsRoot p.top) (hne : ps ≠ []) (hroom : (ps.length : Int) ≤ s0.maxPid) :
    ∃ s, spawnAll ps s0 = some s ∧ ∀ current : Nat → TrapRef,
      let root := (s.tasks 0).mmuData
      let b0 := Startup.before s current
      let m0 := b0.complete L root
      KinitLeaves ps.length m0 ∧ OwnStacks L m0 ∧
      (∀ es m, Run HandlerStep m0 es m ↔ ∃ fs b, Run (StartupStep L root) b0 fs b ∧
        fs.filterMap StartupEvent.taken = es ∧ b.complete L root = m) ∧
      ∀ fs b, Run (StartupStep L root) b0 fs b → (b.complete L root).sys.tasks = b.harts.sys.tasks ∧
        ∀ h, b.up h = true → (b.complete L root).current h = b.harts.current h ∧
          (b.complete L root).sys.trap (b.harts.current h) = b.harts.sys.trap (b.harts.current h) ∧
          (b.complete L root).sys.satp h = b.harts.sys.satp h := by
  obtain ⟨s, hs, hoccupied, hmax⟩ := h0.occupied.spawnAll hps (by rwa [Nat.zero_add])
  rw [Nat.zero_add] at hoccupied
  refine ⟨s, hs, fun current => ?_⟩
  have hsteady : (Startup.before s current).Steady := by
    intro h hon
    cases hon
  have hlen := List.length_pos_iff.mpr hne
  refine ⟨hoccupied.kinitLeaves hlen (by rwa [hmax]) L _ current, fun h _ => rfl, fun es m => ?_,
    fun fs b hrun => ⟨rfl, fun h hon => ?_⟩⟩
  · constructor
    · exact Startup.of_completed hsteady
    · rintro ⟨fs, b, hrun, rfl, rfl⟩
      exact Startup.completes hsteady hrun
  · have hb := Startup.steady_run hsteady hrun
    exact ⟨if_pos hon, System.overlay_trap b.harts.sys _ _ (hb h hon), if_pos hon⟩

/-- The two tasks that `kinit` spawns. -/
theorem startup_runs_two : ∃ s,
    spawnAll [.small, ⟨8192, 0#64, 0#64, 0#64, 0#64⟩] Harts.noTasks.sys =
      some s ∧ KinitLeaves 2 ((Startup.before s .hart).complete .board (s.tasks 0).mmuData) := by
  have h0 : Unspawned Harts.noTasks.sys := ⟨fun i _ => Harts.noTasks_noTasks.dead i, rfl, rfl⟩
  obtain ⟨s, hs, hruns⟩ := startup_runs .board Harts.noTasks.sys
    [.small, ⟨8192, 0#64, 0#64, 0#64, 0#64⟩] h0
    (by simp [IsRoot, Loaded.small]) (by simp) (by decide)
  exact ⟨s, hs, (hruns .hart).1⟩

end IloPali
