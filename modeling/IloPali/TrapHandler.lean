import IloPali.Scheduling

/-!
# The trap handler keeps the harts in order

What `interrupt_handler` owes to the hart that entered it: it returns the record
of a task that runs here, under its own page table.  It does so as long as no
idle hart takes a software or an external interrupt (the tail of the handler
looks up the task of every hart, also of one that has none) and no timer hands
out a task that another hart is running.
-/

namespace IloPali

open Transition

/-! ## 1. What the handler owes -/

/-- The record `r` that the handler returns on hart `h`, having taken the system
    from `s` to `s'`. -/
structure Returned (h : Nat) (r : TrapRef) (s s' : System) : Prop where
  own : 0 ≤ (s'.trap r).pid → ∃ i, getTask s' (s'.trap r).pid = some i ∧ r = .task i ∧
    (s'.tasks i).state = .running ∧ getMmu (s'.satp h) = (s'.tasks i).mmuData ∧
    (s'.trap r).hartid = h
  marked : ∀ i, (s.tasks i).state ≠ .running → (s'.tasks i).state = .running → r = .task i

/-- The handler returns, without dereferencing `NULL`, and returns what it owes. -/
def HandlerKeeps (m : Harts) (h : Nat) (c : Cause) : Prop :=
  ∃ r s, interruptHandler h c (m.current h) m.sys = .ok (r, s) ∧ Returned h r m.sys s

/-- One trap.  An idle hart executes nothing but `wfi` and a jump, so it makes no
    calls and hits no breakpoints. -/
inductive TrapStep : Harts → Nat × Cause → Harts → Prop
  | mk {m m' : Harts} {h : Nat} {c : Cause}
      (hsync : c = .environmentCall ∨ c = .breakpoint → 0 ≤ m.pid h)
      (hstep : HandlerStep m (h, c) m') : TrapStep m (h, c) m'

/-- The interrupt meets no idle hart, except a timer, and a timer finds the task at
    the cursor on no other hart. -/
def InOrder (m : Harts) (e : Nat × Cause) : Prop :=
  (e.2 = .software ∨ e.2 = .external → 0 ≤ m.pid e.1) ∧
    (e.2 = .timer → ∀ h, h ≠ e.1 → m.pid h ≠ m.sys.next)

/-! ## 2. Page tables of a hart -/

theorem getMmu_setMmu {root : Nat} (hpos : root ≠ 0) (haligned : root % 4096 = 0)
    (hlt : root < 2 ^ 56) (satp : Word) : getMmu (setMmu root satp) = root := by
  rw [setMmu, if_neg hpos]
  by_cases hsame : root = getMmu satp
  · rw [if_pos hsame]
    exact hsame.symm
  rw [if_neg hsame]
  have hhigh : ∀ j, 56 ≤ j → root.testBit j = false := fun j hj =>
    Nat.testBit_lt_two_pow (Nat.lt_of_lt_of_le hlt (Nat.pow_le_pow_right (by decide) hj))
  have hlow : ∀ j, j < 12 → root.testBit j = false := by
    intro j hj
    have h := congrArg (·.testBit j) haligned
    simp only [show 4096 = 2 ^ 12 by decide, Nat.testBit_mod_two_pow, hj, decide_true,
      Bool.true_and, Nat.zero_testBit] at h
    exact h
  have htop : ∀ j, (0x8000000000000000#64).getLsbD j = decide (j = 63) := by
    intro j
    by_cases hj : j < 64
    · have : ∀ j : Fin 64, (0x8000000000000000#64).getLsbD j = decide (j.val = 63) := by decide
      exact this ⟨j, hj⟩
    · rw [BitVec.getLsbD_of_ge _ _ (by omega)]
      simp only [Bool.false_eq, decide_eq_false_iff_not]
      omega
  have hmask : ∀ j, (0x00000fffffffffff#64).getLsbD j = decide (j < 44) := by
    intro j
    by_cases hj : j < 64
    · have : ∀ j : Fin 64, (0x00000fffffffffff#64).getLsbD j = decide (j.val < 44) := by decide
      exact this ⟨j, hj⟩
    · rw [BitVec.getLsbD_of_ge _ _ (by omega)]
      simp only [Bool.false_eq, decide_eq_false_iff_not]
      omega
  have hmsb : (BitVec.ofNat 64 root).msb = false := by
    rw [BitVec.msb_eq_getLsbD_last, BitVec.getLsbD_ofNat, hhigh _ (by decide), Bool.and_false]
  have hshift : ∀ j, ((BitVec.ofNat 64 root).sshiftRight 12).getLsbD j = root.testBit (12 + j) := by
    intro j
    rw [BitVec.getLsbD_sshiftRight, hmsb, BitVec.getLsbD_ofNat]
    by_cases hj : 12 + j < 64
    · simp [hj, show ¬ 64 ≤ j by omega]
    · simp [hj, hhigh (12 + j) (by omega)]
  have hon : mmuEnabled (0x8000000000000000#64 ||| (BitVec.ofNat 64 root).sshiftRight 12) = true := by
    simp only [mmuEnabled, bne_iff_ne, ne_eq]
    intro hzero
    have h := congrArg (·.getLsbD 63) hzero
    simp only [BitVec.getLsbD_and, BitVec.getLsbD_or, htop] at h
    simp at h
  rw [getMmu, if_pos hon]
  apply Nat.eq_of_testBit_eq
  intro i
  simp only [BitVec.testBit_toNat, BitVec.getLsbD_shiftLeft, BitVec.getLsbD_and, BitVec.getLsbD_or,
    htop, hmask, hshift]
  by_cases h1 : i < 12
  · simp [h1, hlow i h1]
  · by_cases h2 : i < 56
    · simp [h1, show i < 64 by omega, show i - 12 < 44 by omega, show 12 + (i - 12) = i by omega,
        show ¬ i - 12 = 63 by omega]
    · simp [show ¬ i - 12 < 44 by omega, hhigh i (by omega)]

/-! ## 3. The invariant -/

/-- Every hart idles or runs a task, which is running, knows its hart and has its
    page table installed there. -/
structure Consistent (T : Nat) (m : Harts) : Prop where
  scheduled : Scheduled T m.sys
  fits : ∀ h, (m.current h).Fits T h
  runs : ∀ h i, m.current h = .task i → (m.sys.tasks i).state = .running ∧
    getMmu (m.sys.satp h) = (m.sys.tasks i).mmuData ∧ (m.sys.tasks i).trap.hartid = h

theorem KinitLeaves.consistent {T : Nat} {m : Harts} (h0 : KinitLeaves T m) : Consistent T m := by
  refine ⟨h0.scheduled, fun h => Or.inl (h0.idle h).1, fun h i hc => ?_⟩
  rw [(h0.idle h).1] at hc
  exact nomatch hc

theorem Consistent.trap_hartid {T : Nat} {m : Harts} (hm : Consistent T m) (h : Nat) :
    (m.sys.trap (m.current h)).hartid = h := by
  rcases hm.fits h with hidle | ⟨i, _, htask⟩
  · rw [hidle]
    exact (hm.scheduled.idle h).2
  · rw [htask]
    exact (hm.runs h i htask).2.2

/-- A hart that is not idle runs a task. -/
theorem Consistent.task_of_pid {T : Nat} {m : Harts} (hm : Consistent T m) {h : Nat}
    (hpid : 0 ≤ m.pid h) : ∃ i, i < T ∧ m.current h = .task i := by
  rcases hm.fits h with hidle | htask
  · rw [Harts.pid, hidle, trap_pid_hart hm.scheduled] at hpid
    omega
  · exact htask

theorem Consistent.pid_task {T : Nat} {m : Harts} (hm : Consistent T m) {h i : Nat} (hi : i < T)
    (hc : m.current h = .task i) : m.pid h = i := by
  rw [Harts.pid, hc, trap_pid_task hm.scheduled hi]

/-- The tail returns the task's own record and changes nothing. -/
theorem handlerTail_task {T : Nat} {s : System} (hs : Scheduled T s) (h : Nat) {i : Nat}
    (hi : i < T) : handlerTail h (.task i) s = .ok (.task i, s) := by
  rw [handlerTail, trap_pid_task hs hi, getTask_some hs hi]
  rfl

theorem handlerTail_idle {T : Nat} {s : System} (hs : Scheduled T s) (h : Nat) :
    handlerTail h (.hart h) s = .error .nullPointer := by
  rw [handlerTail, trap_pid_hart hs, getTask_idle]

/-- What a timer does to the invariant. -/
theorem Consistent.timer {T : Nat} {m : Harts} (hm : Consistent T m) {h n : Nat} (hn : n < T)
    (hnext : m.sys.next = n) (hfree : ∀ h', h' ≠ h → m.pid h' ≠ m.sys.next) {s' : System}
    (hsw : Switched T h (m.current h) n m.sys s') :
    Consistent T ⟨s', Function.update m.current h (.task n)⟩ := by
  refine ⟨hsw.scheduled, fun h' => ?_, fun h' i hc => ?_⟩
  · by_cases hh : h' = h
    · subst hh
      simp only [Function.update_self]
      exact Or.inr ⟨n, hn, rfl⟩
    · simp only [Function.update_of_ne hh]
      exact hm.fits h'
  · by_cases hh : h' = h
    · subst hh
      simp only [Function.update_self, TrapRef.task.injEq] at hc
      subst hc
      refine ⟨by rw [hsw.state, if_pos rfl], ?_, by rw [hsw.trap]; exact hm.trap_hartid h'⟩
      rw [hsw.mmuData, hsw.satp]
      split
      · rename_i hown
        exact (hm.runs h' n hown).2.1
      · obtain ⟨hpos, haligned, hlt⟩ := hm.scheduled.roots n hn
        rw [Function.update_self]
        exact getMmu_setMmu hpos haligned hlt _
    · simp only [Function.update_of_ne hh] at hc
      obtain ⟨hrun, hroot, hhart⟩ := hm.runs h' i hc
      have hi : i < T := by
        rcases hm.fits h' with hidle | ⟨i', hi', htask⟩
        · rw [hidle] at hc
          exact nomatch hc
        · rw [htask, TrapRef.task.injEq] at hc
          exact hc ▸ hi'
      -- the other hart's task is neither the next one nor the one that left
      have hin : i ≠ n := by
        rintro rfl
        exact hfree h' hh ((hm.pid_task hi hc).trans hnext.symm)
      have hleft : m.current h ≠ .task i := by
        intro hc'
        exact hh (hhart.symm.trans (hm.runs h i hc').2.2)
      refine ⟨?_, ?_, by rw [hsw.other i hin, hhart]⟩
      · rw [hsw.state, if_neg hin, if_neg fun h => hleft h.1]
        exact hrun
      · rw [hsw.mmuData, hsw.satp]
        split
        · exact hroot
        · rw [Function.update_of_ne hh]
          exact hroot

/-- What an environment call does to the task's record. -/
theorem skipCall_task (s : System) (i j : Nat) :
    ((s.skipCall (.task i)).tasks j).pid = (s.tasks j).pid ∧
      ((s.skipCall (.task i)).tasks j).trap.pid = (s.tasks j).trap.pid ∧
      ((s.skipCall (.task i)).tasks j).mmuData = (s.tasks j).mmuData ∧
      ((s.skipCall (.task i)).tasks j).state = (s.tasks j).state ∧
      ((s.skipCall (.task i)).tasks j).trap.hartid = (s.tasks j).trap.hartid := by
  by_cases hji : j = i
  · subst hji
    simp [System.skipCall, System.setTrap, System.setTask, System.trap]
  · simp [System.skipCall, System.setTrap, System.setTask, hji]

theorem Scheduled.skipCall {T : Nat} {s : System} (hs : Scheduled T s) (i : Nat) :
    Scheduled T (s.skipCall (.task i)) :=
  hs.congr rfl rfl hs.next (fun _ => ⟨rfl, rfl⟩) fun j =>
    ⟨(skipCall_task s i j).1, (skipCall_task s i j).2.1, (skipCall_task s i j).2.2.1⟩

theorem environmentCall_task {T : Nat} {s : System} (hs : Scheduled T s) (h : Nat) {i : Nat}
    (hi : i < T) :
    interruptHandler h .environmentCall (.task i) s = .ok (.task i, s.skipCall (.task i)) := by
  have hs' := hs.skipCall i
  have htail := handlerTail_task hs' h hi
  rw [interruptHandler, trap_pid_task hs' hi, getTask_some hs' hi, if_neg (fun h => nomatch h.2)]
  exact htail

theorem Consistent.skipCall {T : Nat} {m : Harts} (hm : Consistent T m) (i : Nat) :
    Consistent T ⟨m.sys.skipCall (.task i), m.current⟩ := by
  refine ⟨hm.scheduled.skipCall i, hm.fits, fun h j hc => ?_⟩
  obtain ⟨_, _, hmmu, hstate, hhart⟩ := skipCall_task m.sys i j
  obtain ⟨h1, h2, h3⟩ := hm.runs h j hc
  exact ⟨hstate.trans h1, h2.trans hmmu.symm, hhart.trans h3⟩

theorem update_current {m : Harts} {h : Nat} {r : TrapRef} (hr : m.current h = r) :
    Function.update m.current h r = m.current :=
  Function.update_eq_self_iff.mpr hr.symm

/-- Every trap taken in order keeps the invariant. -/
theorem Consistent.step {T : Nat} {m m' : Harts} (hm : Consistent T m) {e : Nat × Cause}
    (hord : InOrder m e) (hstep : TrapStep m e m') : Consistent T m' := by
  rcases hstep with ⟨hsync, ⟨hcall⟩⟩
  rename_i h c r s
  -- the causes that only a task can take
  have hstay : ∀ i, i < T → m.current h = .task i → handlerTail h (.task i) m.sys = .ok (r, s) →
      Consistent T ⟨s, Function.update m.current h r⟩ := by
    intro i hi hc htail
    rw [handlerTail_task hm.scheduled h hi] at htail
    obtain ⟨rfl, rfl⟩ := Prod.mk.inj (Except.ok.inj htail)
    rw [update_current hc]
    exact hm
  cases c with
  | timer =>
    obtain ⟨n, hn, hnext⟩ := hm.scheduled.next
    obtain ⟨s', hsw, hspec⟩ := timerSwitch_spec hm.scheduled hn hnext (hm.fits h)
    rw [interruptHandler, hsw] at hcall
    obtain ⟨rfl, rfl⟩ := Prod.mk.inj (Except.ok.inj hcall)
    exact hm.timer hn hnext (hord.2 rfl) hspec
  | software =>
    obtain ⟨i, hi, hc⟩ := hm.task_of_pid (hord.1 (Or.inl rfl))
    rw [interruptHandler, hc, trap_pid_task hm.scheduled hi, getTask_some hm.scheduled hi] at hcall
    exact hstay i hi hc hcall
  | external =>
    obtain ⟨i, hi, hc⟩ := hm.task_of_pid (hord.1 (Or.inr rfl))
    rw [interruptHandler, hc] at hcall
    exact hstay i hi hc hcall
  | breakpoint =>
    obtain ⟨i, hi, hc⟩ := hm.task_of_pid (hsync (Or.inr rfl))
    rw [interruptHandler, hc] at hcall
    exact hstay i hi hc hcall
  | environmentCall =>
    obtain ⟨i, hi, hc⟩ := hm.task_of_pid (hsync (Or.inl rfl))
    rw [hc, environmentCall_task hm.scheduled h hi] at hcall
    obtain ⟨rfl, rfl⟩ := Prod.mk.inj (Except.ok.inj hcall)
    rw [update_current hc]
    exact hm.skipCall i
  | other =>
    rw [interruptHandler] at hcall
    exact nomatch hcall

/-! ## 4. The handler, in order -/

theorem Consistent.handler_task {T : Nat} {m : Harts} (hm : Consistent T m) {h i : Nat} (hi : i < T)
    (hc : m.current h = .task i) : Returned h (.task i) m.sys m.sys := by
  obtain ⟨h1, h2, h3⟩ := hm.runs h i hc
  refine ⟨fun _ => ⟨i, ?_, rfl, h1, h2, h3⟩, fun j hj hj' => absurd hj' hj⟩
  rw [trap_pid_task hm.scheduled hi, getTask_some hm.scheduled hi]

theorem Consistent.handler_timer {T : Nat} {m : Harts} (hm : Consistent T m) (h : Nat) :
    HandlerKeeps m h .timer := by
  obtain ⟨n, hn, hnext⟩ := hm.scheduled.next
  obtain ⟨s', hcall, hsw⟩ := timerSwitch_spec hm.scheduled hn hnext (hm.fits h)
  refine ⟨.task n, s', hcall, fun _ => ⟨n, ?_, rfl, ?_, ?_, ?_⟩, fun i hi hi' => ?_⟩
  · rw [trap_pid_task hsw.scheduled hn, getTask_some hsw.scheduled hn]
  · rw [hsw.state, if_pos rfl]
  · rw [hsw.mmuData, hsw.satp]
    split
    · rename_i hown
      exact (hm.runs h n hown).2.1
    · obtain ⟨hpos, haligned, hlt⟩ := hm.scheduled.roots n hn
      rw [Function.update_self]
      exact getMmu_setMmu hpos haligned hlt _
  · rw [System.trap, hsw.trap]
    exact hm.trap_hartid h
  · rw [hsw.state] at hi'
    by_cases hin : i = n
    · rw [hin]
    · rw [if_neg hin] at hi'
      split at hi'
      · exact nomatch hi'
      · exact absurd hi' hi

/-- **The trap handler.**  In every state that any number of harts reach from what
    `kinit` leaves by traps taken in order, the handler does what it owes on a
    serviced interrupt exactly when that is a timer or the hart is not idle. -/
theorem handler_keeps_iff (T : Nat) (m0 : Harts) (h0 : KinitLeaves T m0)
    (events : List (Nat × Cause)) (m : Harts) (hrun : Run (guarded InOrder TrapStep) m0 events m)
    (h : Nat) (c : Cause) (hc : c.Serviced) :
    HandlerKeeps m h c ↔ (c = .timer ∨ 0 ≤ m.pid h) := by
  have hm : Consistent T m :=
    hrun.invariant (fun _ _ _ hm hstep => hm.step hstep.1 hstep.2) h0.consistent
  constructor
  · rintro ⟨r, s, hcall, _⟩
    rcases hm.fits h with hidle | ⟨i, hi, htask⟩
    · -- an idle hart has no task for the tail to look up
      rcases hc with rfl | rfl | rfl
      · obtain ⟨n, hn, hnext⟩ := hm.scheduled.next
        obtain ⟨s', hsw, hspec⟩ := timerSwitch_spec hm.scheduled hn hnext (hm.fits h)
        rw [hidle] at hcall hsw
        rw [interruptHandler, trap_pid_hart hm.scheduled, getTask_idle, hsw] at hcall
        dsimp only at hcall
        rw [handlerTail_idle hspec.scheduled] at hcall
        exact nomatch hcall
      · exact Or.inl rfl
      · rw [hidle, interruptHandler, handlerTail_idle hm.scheduled] at hcall
        exact nomatch hcall
    · right
      rw [hm.pid_task hi htask]
      omega
  · intro hpid
    rcases hpid with rfl | hpid
    · exact hm.handler_timer h
    · obtain ⟨i, hi, htask⟩ := hm.task_of_pid hpid
      have hkeeps := hm.handler_task hi htask
      have htail := handlerTail_task hm.scheduled h hi
      rcases hc with rfl | rfl | rfl
      · refine ⟨.task i, m.sys, ?_, hkeeps⟩
        rw [interruptHandler, htask, trap_pid_task hm.scheduled hi, getTask_some hm.scheduled hi]
        exact htail
      · exact hm.handler_timer h
      · refine ⟨.task i, m.sys, ?_, hkeeps⟩
        rw [interruptHandler, htask]
        exact htail

/-- The first timer of a hart, with two tasks. -/
theorem handler_keeps_first_timer : HandlerKeeps (.kinit 2) 0 .timer :=
  (handler_keeps_iff 2 (.kinit 2) (Harts.kinit_leaves (by decide) (by decide)) [] _ (.nil _) 0
    .timer (by decide)).mpr (Or.inl rfl)

/-- **The handler fails** on an external interrupt of a hart that has no task yet,
    and on one that comes after another hart has taken this hart's task. -/
theorem handler_fails : ¬ HandlerKeeps (.kinit 1) 0 .external ∧
    ∃ m, Run TrapStep (.kinit 1) [(0, .timer), (1, .timer)] m ∧ ¬ HandlerKeeps m 0 .external := by
  have h0 := Harts.kinit_leaves (le_refl 1) (by decide)
  constructor
  · rintro ⟨r, s, hcall, _⟩
    exact nomatch hcall
  · obtain ⟨m1, hstep1, hm1, _, hcur1⟩ := h0.ticked.tick 0
    obtain ⟨m2, hstep2, hm2, hsw2, hcur2⟩ := hm1.tick 1
    have hsync : ∀ m : Harts, ∀ h : Nat,
        Cause.timer = .environmentCall ∨ Cause.timer = .breakpoint → 0 ≤ m.pid h :=
      fun _ _ h => h.elim nofun nofun
    refine ⟨m2, .cons (.mk (hsync _ _) hstep1) (.cons (.mk (hsync _ _) hstep2) (.nil m2)), ?_⟩
    rintro ⟨r, s, hcall, hret⟩
    have hzero : m2.current 0 = .task 0 := by
      rw [hcur2, hcur1]
      rfl
    have hidle : m1.current 1 = .hart 1 := by
      rw [hcur1]
      rfl
    rw [interruptHandler, hzero, handlerTail_task hm2.scheduled 0 (by decide)] at hcall
    obtain ⟨rfl, rfl⟩ := Prod.mk.inj (Except.ok.inj hcall)
    obtain ⟨_, _, _, _, _, hhart⟩ := hret.own (by rw [trap_pid_task hm2.scheduled (by decide)]; decide)
    -- task 0 now carries the id of hart 1
    have hone : (m2.sys.trap (.task 0)).hartid = 1 := by
      have htrap := congrArg Trap.hartid hsw2.trap
      rw [hidle] at htrap
      exact htrap.trans (hm1.scheduled.idle 1).2
    rw [hone] at hhart
    exact absurd hhart (by decide)

/-! ## 5. What a trap does -/

section Traps

variable {T : Nat} {s : System} {r : TrapRef}

theorem Scheduled.skipCall_idle (hs : Scheduled T s) (h : Nat) :
    Scheduled T (s.skipCall (.hart h)) := by
  refine hs.congr rfl rfl hs.next (fun h' => ?_) fun _ => ⟨rfl, rfl, rfl⟩
  by_cases hh : h' = h
  · subst hh
    simp [System.skipCall, System.setTrap, System.trap]
  · simp [System.skipCall, System.setTrap, Function.update_of_ne hh]

/-- No trap but a timer is survived by an idle hart. -/
theorem interruptHandler_idle (hs : Scheduled T s) {h : Nat} {c : Cause} (hc : c ≠ .timer)
    (t : TrapRef × System) : interruptHandler h c (.hart h) s ≠ .ok t := by
  have htail := handlerTail_idle hs h
  cases c with
  | timer => exact absurd rfl hc
  | software =>
    obtain ⟨n, hn, hnext⟩ := hs.next
    obtain ⟨s', hcall, hsw⟩ := timerSwitch_spec hs hn hnext (r := .hart h) (h := h) (Or.inl rfl)
    rw [interruptHandler, trap_pid_hart hs, getTask_idle, hcall]
    dsimp only
    rw [handlerTail_idle hsw.scheduled]
    simp
  | external => simp [interruptHandler, htail]
  | breakpoint => simp [interruptHandler, htail]
  | environmentCall =>
    have hs' := hs.skipCall_idle h
    rw [interruptHandler, trap_pid_hart hs', getTask_idle, handlerTail_idle hs']
    split
    · simp
    · simp
  | other => simp [interruptHandler]

/-- What the handler does to a task that it returns to. -/
def afterCall (c : Cause) (i : Nat) (s : System) : System :=
  if c = .environmentCall then s.skipCall (.task i) else s

theorem interruptHandler_task (hs : Scheduled T s) {h i : Nat} (hi : i < T) {c : Cause}
    (hc : c ≠ .timer) (hother : c ≠ .other) :
    interruptHandler h c (.task i) s = .ok (.task i, afterCall c i s) := by
  have htail := handlerTail_task hs h hi
  cases c with
  | timer => exact absurd rfl hc
  | software =>
    rw [interruptHandler, trap_pid_task hs hi, getTask_some hs hi]
    exact htail
  | external => exact htail
  | breakpoint => exact htail
  | environmentCall => exact environmentCall_task hs h hi
  | other => exact absurd rfl hother

/-- **What a trap does**: a timer hands the hart to the task at the cursor, and every other trap that
    the kernel survives comes from a task, which goes on. -/
theorem interruptHandler_cases (hs : Scheduled T s) {h : Nat} (hr : r.Fits T h) {c : Cause}
    {r' : TrapRef} {s' : System} (hcall : interruptHandler h c r s = .ok (r', s')) :
    (c = .timer ∧ ∃ n, n < T ∧ s.next = n ∧ r' = .task n ∧ Switched T h r n s s') ∨
      c ≠ .timer ∧ ∃ i, i < T ∧ r = .task i ∧ r' = .task i ∧ s' = afterCall c i s := by
  by_cases hc : c = .timer
  · left
    subst hc
    obtain ⟨n, hn, hnext⟩ := hs.next
    obtain ⟨s1, hsw, hspec⟩ := timerSwitch_spec hs hn hnext hr
    rw [interruptHandler, hsw] at hcall
    obtain ⟨rfl, rfl⟩ := Prod.mk.inj (Except.ok.inj hcall)
    exact ⟨rfl, n, hn, hnext, rfl, hspec⟩
  · right
    refine ⟨hc, ?_⟩
    rcases hr with rfl | ⟨i, hi, rfl⟩
    · exact absurd hcall (interruptHandler_idle hs hc _)
    · have hother : c ≠ .other := by
        rintro rfl
        cases hcall
      rw [interruptHandler_task hs hi hc hother] at hcall
      obtain ⟨rfl, rfl⟩ := Prod.mk.inj (Except.ok.inj hcall)
      exact ⟨i, hi, rfl, rfl, rfl⟩

theorem afterCall_frame (c : Cause) (i : Nat) (s : System) :
    (afterCall c i s).next = s.next ∧ (afterCall c i s).satp = s.satp ∧
      (∀ j, ((afterCall c i s).tasks j).mmuData = (s.tasks j).mmuData) ∧
      (Scheduled T s → Scheduled T (afterCall c i s)) := by
  unfold afterCall
  split
  · exact ⟨rfl, rfl, fun j => (skipCall_task s i j).2.2.1, fun hs => hs.skipCall i⟩
  · exact ⟨rfl, rfl, fun _ => rfl, fun hs => hs⟩

end Traps

end IloPali
