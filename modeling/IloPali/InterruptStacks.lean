import IloPali.TrapHandler
import IloPali.Machine

/-!
# The interrupt stacks of the harts (`kernel.c`, `boot.s`)

`init_hart_helper` gives each hart a piece of the kernel's stack area, `handle_interrupt` runs on the
stack that the record names, and `timer_switch` hands the stack on from record to record.  A task whose
record two harts use at a time puts both on one stack.
-/

namespace IloPali

open Transition

/-! ## 1. The stack area -/

/-- `STACK_SIZE` of `kernel.c`. -/
def STACK_SIZE : Nat := 0x8000

def MAX_TRAP_COUNT : Nat := 64

/-- `init_hart_helper`: the stack of a hart. -/
def interruptStack (L : Layout) (hartid : Nat) : Word :=
  BitVec.ofNat 64 L.stackTop - BitVec.ofNat 64 STACK_SIZE * BitVec.ofNat 64 hartid

/-- `kernel.ld`: the area holds a stack for each record of `traps`. -/
structure Layout.Stacked (L : Layout) : Prop where
  area : L.stackTop = L.stackStart + STACK_SIZE * MAX_TRAP_COUNT
  below : L.stackTop < 2 ^ 64

/-- The byte at `x` is on the stack that ends at `top`. -/
def OnStack (top : Word) (x : Nat) : Prop := top.toNat - STACK_SIZE ≤ x ∧ x < top.toNat

section Area

variable {L : Layout} (hL : L.Stacked)
include hL

theorem interruptStack_toNat {h : Nat} (hh : h < MAX_TRAP_COUNT) :
    (interruptStack L h).toNat = L.stackTop - STACK_SIZE * h := by
  have hbelow := hL.below
  have harea := hL.area
  unfold interruptStack
  simp only [STACK_SIZE, MAX_TRAP_COUNT] at *
  have hmul : BitVec.ofNat 64 0x8000 * BitVec.ofNat 64 h = BitVec.ofNat 64 (0x8000 * h) := by
    rw [BitVec.ofNat_mul]
  rw [hmul, BitVec.toNat_sub_of_le]
  · simp only [BitVec.toNat_ofNat]
    omega
  · simp only [BitVec.le_def, BitVec.toNat_ofNat]
    omega

theorem interruptStack_inj {h h' : Nat} (hh : h < MAX_TRAP_COUNT) (hh' : h' < MAX_TRAP_COUNT)
    (heq : interruptStack L h = interruptStack L h') : h = h' := by
  have hnat := congrArg BitVec.toNat heq
  rw [interruptStack_toNat hL hh, interruptStack_toNat hL hh'] at hnat
  have harea := hL.area
  simp only [STACK_SIZE, MAX_TRAP_COUNT] at *
  omega

/-- The stacks lie in the area, and apart. -/
theorem onStack_apart {h h' x : Nat} (hh : h < MAX_TRAP_COUNT) (hh' : h' < MAX_TRAP_COUNT)
    (hx : OnStack (interruptStack L h) x) : (L.stackStart ≤ x ∧ x < L.stackTop) ∧
      (OnStack (interruptStack L h') x → h = h') := by
  have harea := hL.area
  unfold OnStack at *
  rw [interruptStack_toNat hL hh] at hx
  rw [interruptStack_toNat hL hh']
  simp only [STACK_SIZE, MAX_TRAP_COUNT] at *
  constructor
  · omega
  · intro hx'
    omega

end Area

/-! ## 2. Stacks in use -/

/-- Every hart would take a trap on its own stack. -/
def OwnStacks (L : Layout) (m : Harts) : Prop :=
  ∀ h, h < MAX_TRAP_COUNT → (m.sys.trap (m.current h)).interruptStack = interruptStack L h

/-- A timer finds the task at the cursor on no other hart. -/
def TimerInOrder (m : Harts) (e : Nat × Cause) : Prop :=
  e.2 = .timer → ∀ h, h ≠ e.1 → m.pid h ≠ m.sys.next

/-- What traps keep, in order or not. -/
structure Stacked (L : Layout) (T : Nat) (m : Harts) : Prop where
  scheduled : Scheduled T m.sys
  fits : ∀ h, (m.current h).Fits T h
  absent : ∀ h, MAX_TRAP_COUNT ≤ h → m.current h = .hart h
  own : OwnStacks L m

/-- `timer_switch` writes no record of `traps` when it has a task. -/
theorem timerSwitch_traps {T : Nat} {s s' : System} (hs : Scheduled T s) {h : Nat} {r r' : TrapRef}
    (hr : r.Fits T h) (hcall : timerSwitch h r s = .ok (r', s')) : s'.traps = s.traps := by
  obtain ⟨n, hn, hnext⟩ := hs.next
  rw [timerSwitch_eq hs hr] at hcall
  have hq := hs.requeue r
  obtain ⟨_, htraps, hqnext, _⟩ := requeue_frame r s
  rw [hnext] at hqnext
  unfold switchToNext at hcall
  rw [nextScheduledTask_eq hq hn hqnext] at hcall
  dsimp only at hcall
  rw [if_neg (by omega)] at hcall
  split at hcall
  · split at hcall
    · cases hcall
    · cases hcall
      exact htraps
  · split at hcall
    · cases hcall
    · cases hcall
      exact htraps

/-- The record that a timer hands out gets the stack of the one that it came on; no other trap moves
    a stack. -/
theorem interruptHandler_stacks {T : Nat} {s s' : System} (hs : Scheduled T s) {h : Nat}
    {r r' : TrapRef} (hr : r.Fits T h) {c : Cause}
    (hcall : interruptHandler h c r s = .ok (r', s')) (r0 : TrapRef) :
    (s'.trap r0).interruptStack =
      if r0 = r' then (s.trap r).interruptStack else (s.trap r0).interruptStack := by
  rcases interruptHandler_cases hs hr hcall with ⟨rfl, n, _, _, rfl, hsw⟩ | ⟨_, i, _, rfl, rfl, rfl⟩
  · have htraps := timerSwitch_traps hs hr hcall
    cases r0 with
    | hart h0 =>
      rw [if_neg (by simp)]
      exact congrArg Trap.interruptStack (congrFun htraps h0)
    | task j =>
      by_cases hj : j = n
      · subst hj
        rw [if_pos rfl, System.trap, hsw.trap]
      · rw [if_neg (by simpa using hj)]
        exact congrArg Trap.interruptStack (hsw.other j hj)
  · -- the program counter is all that changes
    have hkept : (s.skipCall (.task i)).trap r0 =
        { s.trap r0 with pc := ((s.skipCall (.task i)).trap r0).pc } := by
      cases r0 with
      | hart h0 => rfl
      | task j =>
        by_cases hj : j = i
        · subst hj
          simp [System.skipCall, System.setTrap, System.setTask, System.trap]
        · simp [System.skipCall, System.setTrap, System.setTask, System.trap,
            Function.update_of_ne hj]
    have hafter : ((afterCall c i s).trap r0).interruptStack = (s.trap r0).interruptStack := by
      unfold afterCall
      split
      · rw [hkept]
      · rfl
    rw [hafter]
    split
    · rename_i hr0
      rw [hr0]
    · rfl

section Steps

variable {L : Layout} {T : Nat} {m m' : Harts} {e : Nat × Cause}

/-- What every trap keeps of the harts. -/
theorem Stacked.frame (hm : Stacked L T m) (he : e.1 < MAX_TRAP_COUNT) (hstep : HandlerStep m e m') :
    Scheduled T m'.sys ∧ (∀ h, (m'.current h).Fits T h) ∧
      ∀ h, MAX_TRAP_COUNT ≤ h → m'.current h = .hart h := by
  rcases hstep with ⟨hcall⟩
  rename_i h c r s
  have hrecord : Scheduled T s ∧ r.Fits T h := by
    rcases interruptHandler_cases hm.scheduled (hm.fits h) hcall with
      ⟨_, n, hn, _, rfl, hsw⟩ | ⟨_, i, hi, _, rfl, rfl⟩
    · exact ⟨hsw.scheduled, Or.inr ⟨n, hn, rfl⟩⟩
    · exact ⟨(@afterCall_frame T c i m.sys).2.2.2 hm.scheduled, Or.inr ⟨i, hi, rfl⟩⟩
  refine ⟨hrecord.1, fun h' => ?_, fun h' hlarge => ?_⟩
  · by_cases hh : h' = h
    · subst hh
      simpa using hrecord.2
    · simpa [Function.update_of_ne hh] using hm.fits h'
  · have hh : h' ≠ h := by
      rintro rfl
      exact absurd he (by simpa using hlarge)
    simpa [Function.update_of_ne hh] using hm.absent h' hlarge

/-- **One trap** leaves every hart its own stack exactly when it is in order. -/
theorem Stacked.step_iff (hL : L.Stacked) (hm : Stacked L T m) (he : e.1 < MAX_TRAP_COUNT)
    (hstep : HandlerStep m e m') : OwnStacks L m' ↔ TimerInOrder m e := by
  rcases hstep with ⟨hcall⟩
  rename_i h c r s
  have hstacks := interruptHandler_stacks hm.scheduled (hm.fits h) hcall
  dsimp only at he
  -- the hart that took the trap is on its own stack in any case
  have hself : (s.trap r).interruptStack = interruptStack L h := by
    rw [hstacks, if_pos rfl]
    exact hm.own h he
  constructor
  · intro hown htimer h' hh hpid
    dsimp only at htimer hh
    subst htimer
    obtain ⟨n, hn, hnext⟩ := hm.scheduled.next
    obtain ⟨_, n', hn', hnext', rfl, hsw⟩ | ⟨hne, _⟩ :=
      interruptHandler_cases hm.scheduled (hm.fits h) hcall
    · obtain rfl : n' = n := by omega
      -- the other hart runs the task that is handed out
      obtain ⟨i, hi, hc⟩ : ∃ i, i < T ∧ m.current h' = .task i := by
        rcases hm.fits h' with hidle | htask
        · rw [Harts.pid, hidle, trap_pid_hart hm.scheduled] at hpid
          omega
        · exact htask
      have hin : i = n' := by
        rw [Harts.pid, hc, trap_pid_task hm.scheduled hi] at hpid
        omega
      subst hin
      have hlt : h' < MAX_TRAP_COUNT := by
        by_contra hlarge
        have := hm.absent h' (by omega)
        rw [hc] at this
        cases this
      have hother := hown h' hlt
      dsimp only at hother
      rw [Function.update_of_ne hh, hc, hself] at hother
      exact hh (interruptStack_inj hL he hlt hother).symm
    · exact absurd rfl hne
  · intro hord h' hlt
    dsimp only at hord ⊢
    by_cases hh : h' = h
    · subst hh
      rw [Function.update_self]
      exact hself
    · rw [Function.update_of_ne hh, hstacks, ← hm.own h' hlt]
      refine if_neg fun hsame => ?_
      -- a record that another hart uses is not the one that this trap returns
      rcases interruptHandler_cases hm.scheduled (hm.fits h) hcall with
        ⟨rfl, n, hn, hnext, rfl, _⟩ | ⟨_, i, hi, hc, rfl, _⟩
      · apply hord rfl h' hh
        rw [Harts.pid, hsame, trap_pid_task hm.scheduled hn, hnext]
      · have hboth := (hm.own h he).symm
        rw [hc, ← hsame] at hboth
        exact hh (interruptStack_inj hL he hlt (hboth.trans (hm.own h' hlt))).symm

end Steps

/-! ## 3. Runs -/

/-- **Each hart on its own stack.**  From what `kinit` leaves, with any number of tasks and with up to as
    many harts as there are stacks, every hart is on its own stack after every trap of a run exactly
    when no timer hands out a task that another hart is running.  The stacks are then apart, and inside
    the area of `kernel.ld`. -/
theorem own_stacks_iff (L : Layout) (hL : L.Stacked) (T : Nat) (m0 m : Harts)
    (h0 : KinitLeaves T m0) (hstacks : OwnStacks L m0) (events : List (Nat × Cause))
    (hharts : ∀ e ∈ events, e.1 < MAX_TRAP_COUNT) :
    (Run (fun m e m' => HandlerStep m e m' ∧ OwnStacks L m') m0 events m ↔
      Run (guarded TimerInOrder HandlerStep) m0 events m) ∧
    ∀ h h' x, h < MAX_TRAP_COUNT → h' < MAX_TRAP_COUNT → OnStack (interruptStack L h) x →
      (L.stackStart ≤ x ∧ x < L.stackTop) ∧ (OnStack (interruptStack L h') x → h = h') := by
  refine ⟨?_, fun h h' x hh hh' hx => onStack_apart hL hh hh' hx⟩
  have hinit : Stacked L T m0 :=
    ⟨h0.scheduled, fun h => Or.inl (h0.idle h).1, fun h _ => (h0.idle h).1, hstacks⟩
  refine @Run.congr _ _ _ (Stacked L T) _ _ _ _ (fun s e t he hs => ?_) (fun s e t he hs hstep => ?_) hinit
  · constructor
    · rintro ⟨hstep, hown⟩
      exact ⟨(hs.step_iff hL (hharts e he) hstep).mp hown, hstep⟩
    · rintro ⟨hord, hstep⟩
      exact ⟨hstep, (hs.step_iff hL (hharts e he) hstep).mpr hord⟩
  · obtain ⟨hsched, hfits, habsent⟩ := hs.frame (hharts e he) hstep.1
    exact ⟨hsched, hfits, habsent, hstep.2⟩

/-- `Harts.kinit`, with a stack in every record of `traps`. -/
def Harts.withStacks (stack : Nat → Word) (T : Nat) : Harts :=
  { Harts.kinit T with
    sys := { (Harts.kinit T).sys with
      traps := fun h => ⟨fun _ => 0#64, 0#64, stack h, h, -1⟩ } }

theorem Harts.withStacks_leaves (stack : Nat → Word) {T : Nat} (h1 : 1 ≤ T) (hT : T ≤ 64) :
    KinitLeaves T (.withStacks stack T) := by
  have h0 := Harts.kinit_leaves h1 hT
  exact ⟨h0.one_le, h0.room, fun h => ⟨rfl, rfl, rfl⟩, h0.spawned, h0.roots, h0.cursor⟩

theorem Harts.withStacks_own (L : Layout) (T : Nat) :
    OwnStacks L (.withStacks (interruptStack L) T) := fun _ _ => rfl

def stackedLayout : Layout :=
  { Layout.small with stackStart := 0x80240000, stackTop := 0x80440000 }

theorem stackedLayout_stacked : stackedLayout.Stacked := by
  constructor
  · simp [stackedLayout, STACK_SIZE, MAX_TRAP_COUNT]
  · simp [stackedLayout]

section TwoHarts

variable {stack : Nat → Word}

/-- The first timers of two harts. -/
theorem first_timers_in_order : ∃ m,
    Run (guarded TimerInOrder HandlerStep) (.withStacks stack 2) [(0, .timer), (1, .timer)] m := by
  have h0 := Harts.withStacks_leaves stack (T := 2) (by decide) (by decide)
  generalize Harts.withStacks stack 2 = m0 at h0
  obtain ⟨s1, hcall1, hsw1⟩ := timerSwitch_spec h0.scheduled (n := 0) (h := 0) (by decide) h0.cursor.1
    (Or.inl (h0.idle 0).1)
  have hstep1 : HandlerStep m0 (0, .timer) ⟨s1, _⟩ := .mk hcall1
  have hcur : ∀ h, h ≠ 0 → Function.update m0.current 0 (.task 0) h = .hart h := by
    intro h hh
    rw [Function.update_of_ne hh]
    exact (h0.idle h).1
  obtain ⟨s2, hcall2, hsw2⟩ := timerSwitch_spec hsw1.scheduled (n := 1) (h := 1) (by decide) hsw1.next
    (Or.inl (hcur 1 (by decide)))
  have hstep2 : HandlerStep ⟨s1, Function.update m0.current 0 (.task 0)⟩ (1, .timer) ⟨s2, _⟩ :=
    .mk hcall2
  have hord1 : TimerInOrder m0 (0, .timer) := by
    intro _ h _
    rw [Harts.pid, (h0.idle h).1, h0.cursor.1, trap_pid_hart h0.scheduled]
    decide
  have hord2 : TimerInOrder ⟨s1, Function.update m0.current 0 (.task 0)⟩ (1, .timer) := by
    intro _ h _
    have hnext : s1.next = 1 := hsw1.next
    by_cases hh : h = 0
    · subst hh
      have hpid : (s1.trap (.task 0)).pid = 0 := trap_pid_task hsw1.scheduled (by decide)
      simp [Harts.pid, hnext, hpid]
    · have hpid : (s1.trap (.hart h)).pid = -1 := trap_pid_hart hsw1.scheduled h
      simp [Harts.pid, hnext, hcur h hh, hpid]
  exact ⟨_, .cons ⟨hord1, hstep1⟩ (.cons ⟨hord2, hstep2⟩ (.nil _))⟩

end TwoHarts

theorem own_stacks_two_harts : ∃ m,
    Run (fun m e m' => HandlerStep m e m' ∧ OwnStacks stackedLayout m')
      (.withStacks (interruptStack stackedLayout) 2) [(0, .timer), (1, .timer)] m := by
  obtain ⟨m, hrun⟩ := @first_timers_in_order (interruptStack stackedLayout)
  exact ⟨m, (own_stacks_iff stackedLayout stackedLayout_stacked 2 _ m
    (Harts.withStacks_leaves _ (by decide) (by decide)) (Harts.withStacks_own _ 2) _
    (by simp [MAX_TRAP_COUNT])).1.mpr hrun⟩

end IloPali
