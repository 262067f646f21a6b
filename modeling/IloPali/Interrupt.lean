import IloPali.Machine
import Mathlib.Logic.Function.Basic

/-!
# Tasks, the scheduler and the trap handler

The task table of `process.c`, the round-robin scheduler of
`schedulers/roundrobin.c`, `timer_switch` and `interrupt_handler` of
`interrupt.c`, and `get_mmu` and `set_mmu` of `mmu.c`, which switch the page
table of the executing hart.

A `trap_t*` is a `TrapRef`: it points to the record of a hart (`traps[hartid]`)
or to the one inside a task.  Dereferencing the `NULL` that `get_task` returns
is a `Fault`.
-/

namespace IloPali

/-! ## 1. State -/

instance registers_neZero : NeZero 32 := ⟨by decide⟩

/-- `task_state_t`. -/
inductive TaskState where
  | dead
  | running
  | block
  | ready
deriving DecidableEq

/-- `trap_t`, without the floating-point registers, which are never saved. -/
structure Trap where
  xs : Fin 32 → Word
  pc : Word
  interruptStack : Word
  hartid : Nat
  pid : Int

/-- The fields of `struct s_task` that the scheduler and the handler use. -/
structure Task where
  pid : Int
  state : TaskState
  mmuData : Nat
  priority : Int
  trap : Trap

/-- Where a `trap_t*` points. -/
inductive TrapRef where
  | hart (hartid : Nat)
  | task (pid : Nat)
deriving DecidableEq

/-- The task whose record it is. -/
def TrapRef.owner : TrapRef → Option Nat
  | .hart _ => none
  | .task i => some i

/-- The state the harts share, and the `satp` register of each.  The cursor `next`
    and `up_to` of the scheduler are C `int`s that hold pids, which are far below
    the largest `int`. -/
structure System where
  maxPid : Int
  tasks : Nat → Task
  traps : Nat → Trap
  next : Int
  upTo : Int
  satp : Nat → Word
  doNothing : Word

namespace System

/-- The record that `r` points to. -/
def trap (s : System) : TrapRef → Trap
  | .hart h => s.traps h
  | .task i => (s.tasks i).trap

def setTask (s : System) (i : Nat) (t : Task) : System :=
  { s with tasks := Function.update s.tasks i t }

def setState (s : System) (i : Nat) (state : TaskState) : System :=
  s.setTask i { s.tasks i with state := state }

def setTrap (s : System) (r : TrapRef) (trap : Trap) : System :=
  match r with
  | .hart h => { s with traps := Function.update s.traps h trap }
  | .task i => s.setTask i { s.tasks i with trap := trap }

/-- `trap->pc += 4`. -/
def skipCall (s : System) (r : TrapRef) : System :=
  s.setTrap r { s.trap r with pc := (s.trap r).pc + 4#64 }

end System

inductive Fault where
  | nullPointer
  | panic
deriving DecidableEq

/-! ## 2. Page tables of a hart -/

def getMmu (satp : Word) : Nat :=
  if mmuEnabled satp = true then ((satp &&& 0x00000fffffffffff#64) <<< 12).toNat else 0

/-- `set_mmu`: the value of `satp` after the call. -/
def setMmu (root : Nat) (satp : Word) : Word :=
  if root = 0 then satp
  else if root = getMmu satp then satp
  else 0x8000000000000000#64 ||| (BitVec.ofNat 64 root).sshiftRight 12

/-! ## 3. The scheduler -/

def getTask (s : System) (pid : Int) : Option Nat :=
  if pid ≥ s.maxPid ∨ pid < 0 then none else some pid.toNat

def scheduleTask (pid : Int) (s : System) : System :=
  if pid > s.upTo then { s with upTo := pid } else s

def shouldSwitchNow (_pid _priority : Int) : Bool := false

def nextScheduledTask (s : System) : Int × System :=
  (s.next, { s with next := if s.next + 1 > s.upTo then 0 else s.next + 1 })

/-! ## 4. `timer_switch` -/

/-- Give task `i` to the hart that runs on `trap`. -/
def dispatch (hart : Nat) (trap : Trap) (i : Nat) (s : System) : System :=
  let t := s.tasks i
  let trap' := { t.trap with hartid := trap.hartid, interruptStack := trap.interruptStack }
  { s.setTask i { t with state := .running, trap := trap' } with
    satp := Function.update s.satp hart (setMmu t.mmuData (s.satp hart)) }

/-- The second half of `timer_switch`, with the task that `trap` belongs to.  When
    the scheduler has nothing, the hart is suspended and then idles on `trap`. -/
def switchToNext (hart : Nat) (r : TrapRef) (task : Option Nat) (s : System) :
    Except Fault (TrapRef × System) :=
  let (nextPid, s) := nextScheduledTask s
  if nextPid < 0 then .ok (r, s.setTrap r { s.trap r with pc := s.doNothing })
  else if (s.trap r).pid = nextPid then
    match task with
    | none => .error .nullPointer
    | some i => .ok (r, s.setState i .running)
  else
    match getTask s nextPid with
    | none => .error .nullPointer
    | some i => .ok (.task i, dispatch hart (s.trap r) i s)

/-- `timer_switch` on hart `hart`, for the record `r`. -/
def timerSwitch (hart : Nat) (r : TrapRef) (s : System) : Except Fault (TrapRef × System) :=
  if (s.trap r).pid ≥ 0 then
    match getTask s (s.trap r).pid with
    | none => .error .nullPointer
    | some i =>
      let s := if (s.tasks i).state = .running then s.setState i .ready else s
      switchToNext hart r (some i) (scheduleTask (s.tasks i).pid s)
  else switchToNext hart r none s

/-! ## 5. `interrupt_handler` -/

/-- The causes that the handler tells apart. -/
inductive Cause where
  | software
  | timer
  | external
  | breakpoint
  | environmentCall
  | other
deriving DecidableEq

/-- The causes with the top bit of `scause` set that the handler services. -/
def Cause.Serviced (c : Cause) : Prop := c = .software ∨ c = .timer ∨ c = .external

instance (c : Cause) : Decidable c.Serviced := by unfold Cause.Serviced; infer_instance

/-- The common tail of `interrupt_handler`. -/
def handlerTail (hart : Nat) (r : TrapRef) (s : System) : Except Fault (TrapRef × System) :=
  match getTask s (s.trap r).pid with
  | none => .error .nullPointer
  | some i =>
    if shouldSwitchNow (s.trap r).pid (s.tasks i).priority = true then timerSwitch hart r s
    else .ok (r, s)

/-- `interrupt_handler`.  Of an environment call only what it does to the task is
    kept: the only one there is prints a line, with the name of the task. -/
def interruptHandler (hart : Nat) (cause : Cause) (r : TrapRef) (s : System) :
    Except Fault (TrapRef × System) :=
  match cause with
  | .software =>
    match getTask s (s.trap r).pid with
    | none =>
      match timerSwitch hart r s with
      | .error e => .error e
      | .ok (_, s) => handlerTail hart r s
    | some _ => handlerTail hart r s
  | .timer => timerSwitch hart r s
  | .external => handlerTail hart r s
  | .breakpoint => handlerTail hart r s
  | .environmentCall =>
    let s := s.skipCall r
    if (s.trap r).xs 10 = 0#64 ∧ getTask s (s.trap r).pid = none then .error .nullPointer
    else handlerTail hart r s
  | .other => .error .panic

/-! ## 6. The harts -/

/-- The shared state, and the record each hart runs on: the one `sscratch` points
    to. -/
structure Harts where
  sys : System
  current : Nat → TrapRef

/-- The pid a hart runs. -/
def Harts.pid (m : Harts) (h : Nat) : Int := (m.sys.trap (m.current h)).pid

/-- One trap, taken and handled on one hart. -/
inductive HandlerStep : Harts → Nat × Cause → Harts → Prop
  | mk {m : Harts} {h : Nat} {c : Cause} {r : TrapRef} {s : System}
      (hcall : interruptHandler h c (m.current h) m.sys = .ok (r, s)) :
      HandlerStep m (h, c) ⟨s, Function.update m.current h r⟩

/-- The state `kinit` leaves after it has spawned `T` tasks: every hart idles on its
    own record, the tasks are ready, and the scheduler starts at the first. -/
structure KinitLeaves (T : Nat) (m : Harts) : Prop where
  one_le : 1 ≤ T
  room : (T : Int) ≤ m.sys.maxPid
  idle : ∀ h, m.current h = .hart h ∧ (m.sys.traps h).pid = -1 ∧ (m.sys.traps h).hartid = h
  spawned : ∀ i, i < T → (m.sys.tasks i).pid = i ∧ (m.sys.tasks i).trap.pid = i ∧
    (m.sys.tasks i).state = .ready
  roots : ∀ i, i < T → (m.sys.tasks i).mmuData ≠ 0 ∧ (m.sys.tasks i).mmuData % 4096 = 0 ∧
    (m.sys.tasks i).mmuData < 2 ^ 56
  cursor : m.sys.next = 0 ∧ m.sys.upTo = T - 1

/-- A machine with `T` tasks, task `i` with the root table in page `i + 1`. -/
def Harts.kinit (T : Nat) : Harts where
  sys :=
    { maxPid := 64
      tasks := fun i =>
        { pid := i
          state := if i < T then .ready else .dead
          mmuData := 4096 * (i + 1)
          priority := 0
          trap := ⟨fun _ => 0#64, 0#64, 0#64, 0, i⟩ }
      traps := fun h => ⟨fun _ => 0#64, 0#64, 0#64, h, -1⟩
      next := 0
      upTo := T - 1
      satp := fun _ => 0x8000000000000001#64
      doNothing := 0#64 }
  current := .hart

theorem Harts.kinit_leaves {T : Nat} (h1 : 1 ≤ T) (hT : T ≤ 64) : KinitLeaves T (.kinit T) := by
  refine ⟨h1, ?_, fun h => ⟨rfl, rfl, rfl⟩, fun i hi => ⟨rfl, rfl, if_pos hi⟩, fun i hi => ?_,
    rfl, rfl⟩
  · simp only [Harts.kinit]
    omega
  · simp only [Harts.kinit]
    omega

/-! ## 7. The scheduler at work -/

/-- What no trap changes: `T` tasks in their slots of the table, one idle record
    for each hart, and a cursor inside the table. -/
structure Scheduled (T : Nat) (s : System) : Prop where
  one_le : 1 ≤ T
  room : (T : Int) ≤ s.maxPid
  idle : ∀ h, (s.traps h).pid = -1 ∧ (s.traps h).hartid = h
  tasks : ∀ i, i < T → (s.tasks i).pid = i ∧ (s.tasks i).trap.pid = i
  roots : ∀ i, i < T → (s.tasks i).mmuData ≠ 0 ∧ (s.tasks i).mmuData % 4096 = 0 ∧
    (s.tasks i).mmuData < 2 ^ 56
  upTo : s.upTo = T - 1
  next : ∃ n, n < T ∧ s.next = n

/-- The hart `h` may run on `r`: its idle record, or a task's. -/
def TrapRef.Fits (T h : Nat) (r : TrapRef) : Prop := r = .hart h ∨ ∃ i, i < T ∧ r = .task i

theorem KinitLeaves.scheduled {T : Nat} {m : Harts} (h : KinitLeaves T m) : Scheduled T m.sys :=
  ⟨h.one_le, h.room, fun i => (h.idle i).2, fun i hi => ⟨(h.spawned i hi).1, (h.spawned i hi).2.1⟩,
    h.roots, h.cursor.2, 0, h.one_le, h.cursor.1⟩

theorem getTask_some {T : Nat} {s : System} (hs : Scheduled T s) {i : Nat} (hi : i < T) :
    getTask s (i : Int) = some i := by
  have hroom := hs.room
  rw [getTask, if_neg (by omega), Int.toNat_natCast]

theorem getTask_idle (s : System) : getTask s (-1) = none := by
  rw [getTask, if_pos (Or.inr (by decide))]

theorem trap_pid_hart {T : Nat} {s : System} (hs : Scheduled T s) (h : Nat) :
    (s.trap (.hart h)).pid = -1 := (hs.idle h).1

theorem trap_pid_task {T : Nat} {s : System} (hs : Scheduled T s) {i : Nat} (hi : i < T) :
    (s.trap (.task i)).pid = i := (hs.tasks i hi).2

/-- What one `timer_switch` does when the cursor is at `n`: task `n` runs on this
    hart, and the task that ran here before, if it is another, is ready again. -/
structure Switched (T hart : Nat) (r : TrapRef) (n : Nat) (s s' : System) : Prop where
  scheduled : Scheduled T s'
  next : s'.next = ((n + 1) % T : Nat)
  state : ∀ i, (s'.tasks i).state =
    if i = n then .running
    else if r = .task i ∧ (s.tasks i).state = .running then .ready
    else (s.tasks i).state
  other : ∀ i, i ≠ n → (s'.tasks i).trap = (s.tasks i).trap
  trap : (s'.tasks n).trap =
    { (s.tasks n).trap with
      hartid := (s.trap r).hartid
      interruptStack := (s.trap r).interruptStack }
  mmuData : ∀ i, (s'.tasks i).mmuData = (s.tasks i).mmuData
  satp : s'.satp = if r = .task n then s.satp
    else Function.update s.satp hart (setMmu (s.tasks n).mmuData (s.satp hart))

theorem nextScheduledTask_eq {T : Nat} {s : System} (hs : Scheduled T s) {n : Nat} (hn : n < T)
    (hnext : s.next = n) :
    nextScheduledTask s = ((n : Int), { s with next := ((n + 1) % T : Nat) }) := by
  have hup := hs.upTo
  rw [nextScheduledTask, hnext]
  congr 2
  by_cases hlast : n + 1 = T
  · subst hlast
    rw [if_pos (by omega), Nat.mod_self]
    rfl
  · rw [if_neg (by omega), Nat.mod_eq_of_lt (by omega)]
    omega

/-- The task that leaves the hart is ready again. -/
def requeue (r : TrapRef) (s : System) : System :=
  match r with
  | .hart _ => s
  | .task i => if (s.tasks i).state = .running then s.setState i .ready else s

theorem requeue_state (r : TrapRef) (s : System) (i : Nat) :
    ((requeue r s).tasks i).state =
      if r = .task i ∧ (s.tasks i).state = .running then .ready else (s.tasks i).state := by
  cases r with
  | hart h => simp [requeue]
  | task j =>
    by_cases hij : i = j
    · subst hij
      by_cases hrun : (s.tasks i).state = .running
      · simp [requeue, hrun, System.setState, System.setTask]
      · simp [requeue, hrun]
    · by_cases hrun : (s.tasks j).state = .running
      · simp [requeue, hrun, System.setState, System.setTask, Function.update_of_ne hij,
          Ne.symm hij]
      · simp [requeue, hrun, Ne.symm hij]

/-- Apart from that state nothing changes. -/
theorem requeue_frame (r : TrapRef) (s : System) :
    (requeue r s).maxPid = s.maxPid ∧ (requeue r s).traps = s.traps ∧
      (requeue r s).next = s.next ∧ (requeue r s).upTo = s.upTo ∧ (requeue r s).satp = s.satp ∧
      ∀ i, ((requeue r s).tasks i).pid = (s.tasks i).pid ∧
        ((requeue r s).tasks i).trap = (s.tasks i).trap ∧
        ((requeue r s).tasks i).mmuData = (s.tasks i).mmuData := by
  cases r with
  | hart h => exact ⟨rfl, rfl, rfl, rfl, rfl, fun _ => ⟨rfl, rfl, rfl⟩⟩
  | task j =>
    unfold requeue
    dsimp only
    split
    · refine ⟨rfl, rfl, rfl, rfl, rfl, fun i => ?_⟩
      by_cases hij : i = j
      · subst hij
        simp [System.setState, System.setTask]
      · simp [System.setState, System.setTask, Function.update_of_ne hij]
    · exact ⟨rfl, rfl, rfl, rfl, rfl, fun _ => ⟨rfl, rfl, rfl⟩⟩

theorem Scheduled.congr {T : Nat} {s s' : System} (hs : Scheduled T s)
    (hmax : s'.maxPid = s.maxPid) (hup : s'.upTo = s.upTo) (hnext : ∃ n, n < T ∧ s'.next = n)
    (htraps : ∀ h, (s'.traps h).pid = (s.traps h).pid ∧ (s'.traps h).hartid = (s.traps h).hartid)
    (htasks : ∀ i, (s'.tasks i).pid = (s.tasks i).pid ∧
      (s'.tasks i).trap.pid = (s.tasks i).trap.pid ∧
      (s'.tasks i).mmuData = (s.tasks i).mmuData) : Scheduled T s' := by
  refine ⟨hs.one_le, hmax ▸ hs.room, fun h => ?_, fun i hi => ?_, fun i hi => ?_,
    hup.trans hs.upTo, hnext⟩
  · rw [(htraps h).1, (htraps h).2]
    exact hs.idle h
  · rw [(htasks i).1, (htasks i).2.1]
    exact hs.tasks i hi
  · rw [(htasks i).2.2]
    exact hs.roots i hi

theorem Scheduled.requeue {T : Nat} {s : System} (hs : Scheduled T s) (r : TrapRef) :
    Scheduled T (requeue r s) := by
  obtain ⟨hmax, htraps, hnext, hup, _, htask⟩ := requeue_frame r s
  refine hs.congr hmax hup (hnext ▸ hs.next) (fun h => by rw [htraps]; exact ⟨rfl, rfl⟩)
    fun i => ⟨(htask i).1, ?_, (htask i).2.2⟩
  rw [(htask i).2.1]

theorem requeue_trap (r r' : TrapRef) (s : System) : (requeue r s).trap r' = s.trap r' := by
  obtain ⟨_, htraps, _, _, _, htask⟩ := requeue_frame r s
  cases r' with
  | hart h => exact congrFun htraps h
  | task i => exact (htask i).2.1

theorem scheduleTask_eq {T : Nat} {s : System} (hs : Scheduled T s) {i : Nat} (hi : i < T) :
    scheduleTask (s.tasks i).pid s = s := by
  have hup := hs.upTo
  rw [scheduleTask, (hs.tasks i hi).1, if_neg (by omega)]

/-- The first half of `timer_switch` puts the old task back. -/
theorem timerSwitch_eq {T : Nat} {s : System} (hs : Scheduled T s) {h : Nat} {r : TrapRef}
    (hr : r.Fits T h) : timerSwitch h r s = switchToNext h r r.owner (requeue r s) := by
  rcases hr with rfl | ⟨i, hi, rfl⟩
  · rw [timerSwitch, trap_pid_hart hs, if_neg (by decide)]
    rfl
  · have hsched := scheduleTask_eq (hs.requeue (.task i)) hi
    rw [timerSwitch, trap_pid_task hs hi, if_pos (by omega), getTask_some hs hi]
    exact congrArg (switchToNext h (.task i) (some i)) hsched

/-- The cursor moves on. -/
theorem Scheduled.advance {T : Nat} {s : System} (hs : Scheduled T s) (n : Nat) :
    Scheduled T { s with next := ((n + 1) % T : Nat) } :=
  hs.congr rfl rfl ⟨(n + 1) % T, Nat.mod_lt _ hs.one_le, rfl⟩ (fun _ => ⟨rfl, rfl⟩)
    fun _ => ⟨rfl, rfl, rfl⟩

/-- Writing a task keeps its place in the table. -/
theorem Scheduled.setTask {T : Nat} {s s' : System} (hs : Scheduled T s) {n : Nat} {t : Task}
    (hs' : s' = { s.setTask n t with satp := s'.satp }) (hpid : t.pid = (s.tasks n).pid)
    (htrap : t.trap.pid = (s.tasks n).trap.pid) (hroot : t.mmuData = (s.tasks n).mmuData) :
    Scheduled T s' := by
  rw [hs']
  refine hs.congr rfl rfl hs.next (fun _ => ⟨rfl, rfl⟩) fun i => ?_
  by_cases hin : i = n
  · subst hin
    simp [System.setTask, hpid, htrap, hroot]
  · simp [System.setTask, hin]

/-- **`timer_switch`** takes the task at the cursor, whatever its state and
    whatever the other harts run. -/
theorem timerSwitch_spec {T : Nat} {s : System} (hs : Scheduled T s) {n : Nat} (hn : n < T)
    (hnext : s.next = n) {h : Nat} {r : TrapRef} (hr : r.Fits T h) :
    ∃ s', timerSwitch h r s = .ok (.task n, s') ∧ Switched T h r n s s' := by
  rw [timerSwitch_eq hs hr]
  have hq := hs.requeue r
  have hqstate := requeue_state r s
  have hqtrap := requeue_trap r
  obtain ⟨_, _, hqnext, _, hqsatp, hqtask⟩ := requeue_frame r s
  rw [hnext] at hqnext
  have hqr := hqtrap r s
  have hqn := hqtrap (.task n) s
  generalize requeue r s = q at hq hqstate hqnext hqsatp hqtask hqr hqn ⊢
  unfold switchToNext
  rw [nextScheduledTask_eq hq hn hqnext]
  dsimp only
  rw [if_neg (by omega)]
  have htrap : System.trap { q with next := ((n + 1) % T : Nat) } r = s.trap r := hqr
  rw [htrap]
  by_cases hown : r = .task n
  · -- the hart's own task is next
    subst hown
    rw [trap_pid_task hs hn, if_pos rfl]
    refine ⟨_, rfl, (hq.advance n).setTask rfl rfl rfl rfl, rfl, fun i => ?_, fun i hi => ?_, ?_,
      fun i => ?_, ?_⟩
    · by_cases hin : i = n
      · subst hin
        simp [System.setState, System.setTask]
      · simp [System.setState, System.setTask, hin, hqstate i]
    · simp [System.setState, System.setTask, Function.update_of_ne hi, (hqtask i).2.1]
    · simp only [System.setState, System.setTask, Function.update_self]
      exact hqn
    · by_cases hin : i = n
      · subst hin
        simp [System.setState, System.setTask, (hqtask i).2.2]
      · simp [System.setState, System.setTask, Function.update_of_ne hin, (hqtask i).2.2]
    · rw [if_pos rfl]
      exact hqsatp
  · have hpid : (s.trap r).pid ≠ n := by
      rcases hr with rfl | ⟨i, hi, rfl⟩
      · rw [trap_pid_hart hs]
        omega
      · rw [trap_pid_task hs hi]
        intro hin
        exact hown (congrArg _ (by omega))
    rw [if_neg hpid, getTask_some (hq.advance n) hn]
    refine ⟨_, rfl, (hq.advance n).setTask rfl rfl rfl rfl, rfl, fun i => ?_, fun i hi => ?_, ?_,
      fun i => ?_, ?_⟩
    · by_cases hin : i = n
      · subst hin
        simp [dispatch, System.setTask]
      · simp [dispatch, System.setTask, hin, hqstate i]
    · simp [dispatch, System.setTask, Function.update_of_ne hi, (hqtask i).2.1]
    · simp [dispatch, System.setTask, (hqtask n).2.1]
    · by_cases hin : i = n
      · subst hin
        simp [dispatch, System.setTask, (hqtask i).2.2]
      · simp [dispatch, System.setTask, Function.update_of_ne hin, (hqtask i).2.2]
    · rw [if_neg hown]
      simp [dispatch, (hqtask n).2.2, hqsatp]

end IloPali
