import IloPali.TrapHandler
import Mathlib.Order.Fin.Basic

/-!
# Context switches (`interrupt.s`)

The entry and exit of a trap are written in assembly.  They are run here as they
stand, instruction by instruction, on the registers of one hart, with
`interrupt_handler` as the one call in the middle.  The result is that a task
finds its registers as it left them, however many tasks ran in between.
-/

namespace IloPali

open Transition

/-! ## 1. The instructions -/

inductive Csr where
  | sscratch
  | sepc
  | scause
deriving DecidableEq

inductive Instr where
  | csrrw (rd : Fin 32) (csr : Csr) (rs : Fin 32)
  | csrr (rd : Fin 32) (csr : Csr)
  | csrw (csr : Csr) (rs : Fin 32)
  | sd (rs : Fin 32) (offset : Nat) (base : Fin 32)
  | ld (rd : Fin 32) (offset : Nat) (base : Fin 32)
  | mv (rd rs : Fin 32)
  | jalInterruptHandler
  | sret
deriving DecidableEq

def sp : Fin 32 := 2
def fp : Fin 32 := 8
def a0 : Fin 32 := 10
def a1 : Fin 32 := 11
def t5 : Fin 32 := 30
def t6 : Fin 32 := 31

/-- `handle_interrupt`, up to `jump_out_of_trap`. -/
def handleInterrupt : List Instr :=
  [.csrrw t6 .sscratch t6,
    .sd 0 0x000 t6, .sd 1 0x008 t6, .sd 2 0x010 t6, .sd 3 0x018 t6,
    .sd 4 0x020 t6, .sd 5 0x028 t6, .sd 6 0x030 t6, .sd 7 0x038 t6,
    .sd 8 0x040 t6, .sd 9 0x048 t6, .sd 10 0x050 t6, .sd 11 0x058 t6,
    .sd 12 0x060 t6, .sd 13 0x068 t6, .sd 14 0x070 t6, .sd 15 0x078 t6,
    .sd 16 0x080 t6, .sd 17 0x088 t6, .sd 18 0x090 t6, .sd 19 0x098 t6,
    .sd 20 0x0a0 t6, .sd 21 0x0a8 t6, .sd 22 0x0b0 t6, .sd 23 0x0b8 t6,
    .sd 24 0x0c0 t6, .sd 25 0x0c8 t6, .sd 26 0x0d0 t6, .sd 27 0x0d8 t6,
    .sd 28 0x0e0 t6, .sd 29 0x0e8 t6, .sd 30 0x0f0 t6,
    .csrr t5 .sscratch, .sd t5 0x0f8 t6, .csrw .sscratch t6,
    .csrr t5 .sepc, .sd t5 0x100 t6,
    .ld sp 0x108 t6, .mv fp sp,
    .csrr a0 .scause, .mv a1 t6, .jalInterruptHandler,
    .csrw .sscratch a0]

def jumpOutOfTrap : List Instr :=
  [.mv t6 a0, .ld t5 0x100 t6, .csrw .sepc t5,
    .ld 0 0x000 t6, .ld 1 0x008 t6, .ld 2 0x010 t6, .ld 3 0x018 t6,
    .ld 4 0x020 t6, .ld 5 0x028 t6, .ld 6 0x030 t6, .ld 7 0x038 t6,
    .ld 8 0x040 t6, .ld 9 0x048 t6, .ld 10 0x050 t6, .ld 11 0x058 t6,
    .ld 12 0x060 t6, .ld 13 0x068 t6, .ld 14 0x070 t6, .ld 15 0x078 t6,
    .ld 16 0x080 t6, .ld 17 0x088 t6, .ld 18 0x090 t6, .ld 19 0x098 t6,
    .ld 20 0x0a0 t6, .ld 21 0x0a8 t6, .ld 22 0x0b0 t6, .ld 23 0x0b8 t6,
    .ld 24 0x0c0 t6, .ld 25 0x0c8 t6, .ld 26 0x0d0 t6, .ld 27 0x0d8 t6,
    .ld 28 0x0e0 t6, .ld 29 0x0e8 t6, .ld 30 0x0f0 t6, .ld 31 0x0f8 t6,
    .sret]

/-! ## 2. Running them -/

/-- The word at an offset of a `trap_t`; the assembly uses no other. -/
def Trap.get (t : Trap) (offset : Nat) : Option Word :=
  if h : offset % 8 = 0 ∧ offset < 0x100 then some (t.xs ⟨offset / 8, by omega⟩)
  else if offset = 0x100 then some t.pc
  else if offset = 0x108 then some t.interruptStack
  else none

def Trap.set (t : Trap) (offset : Nat) (w : Word) : Option Trap :=
  if h : offset % 8 = 0 ∧ offset < 0x100 then
    some { t with xs := Function.update t.xs ⟨offset / 8, by omega⟩ w }
  else if offset = 0x100 then some { t with pc := w }
  else if offset = 0x108 then some { t with interruptStack := w }
  else none

/-- Where the trap records are in memory. -/
structure TrapLayout where
  addr : TrapRef → Word
  ref : Word → Option TrapRef

/-- The addresses of the records in use tell them apart. -/
def TrapLayout.Separates (A : TrapLayout) (T h : Nat) : Prop :=
  ∀ r, r.Fits T h → A.ref (A.addr r) = some r

/-- One hart, and the state the kernel keeps.  `running` is a ghost: the record that
    the handler chose last. -/
structure Cpu where
  x : Fin 32 → Word
  pc : Word
  sepc : Word
  sscratch : Word
  scause : Word
  sys : System
  running : TrapRef

namespace Cpu

/-- Register `x0` reads as zero. -/
def get (m : Cpu) (i : Fin 32) : Word := if i = 0 then 0#64 else m.x i

def set (m : Cpu) (i : Fin 32) (w : Word) : Cpu := { m with x := Function.update m.x i w }

def readCsr (m : Cpu) : Csr → Word
  | .sscratch => m.sscratch
  | .sepc => m.sepc
  | .scause => m.scause

def writeCsr (m : Cpu) (w : Word) : Csr → Cpu
  | .sscratch => { m with sscratch := w }
  | .sepc => { m with sepc := w }
  | .scause => { m with scause := w }

end Cpu

/-- The cause that `interrupt_handler` makes of `scause`. -/
def decodeCause (scause : Word) : Cause :=
  if scause &&& 0x8000000000000000#64 ≠ 0#64 then
    if scause &&& 0x7fffffffffffffff#64 = 1#64 then .software
    else if scause &&& 0x7fffffffffffffff#64 = 5#64 then .timer
    else if scause &&& 0x7fffffffffffffff#64 = 9#64 then .external
    else .other
  else if scause = 3#64 then .breakpoint
  else if scause = 8#64 then .environmentCall
  else .other

section Exec

variable (A : TrapLayout) (h : Nat) (clobber : Fin 32 → Word)

/-- One instruction on hart `h`.  The call leaves its result in `a0` and any values
    at all in the other registers. -/
def Instr.exec : Instr → Cpu → Option Cpu
  | .csrrw rd csr rs, m => some ((m.writeCsr (m.get rs) csr).set rd (m.readCsr csr))
  | .csrr rd csr, m => some (m.set rd (m.readCsr csr))
  | .csrw csr rs, m => some (m.writeCsr (m.get rs) csr)
  | .sd rs offset base, m =>
    (A.ref (m.get base)).bind fun r =>
      ((m.sys.trap r).set offset (m.get rs)).map fun t => { m with sys := m.sys.setTrap r t }
  | .ld rd offset base, m =>
    (A.ref (m.get base)).bind fun r => ((m.sys.trap r).get offset).map fun w => m.set rd w
  | .mv rd rs, m => some (m.set rd (m.get rs))
  | .jalInterruptHandler, m =>
    (A.ref (m.get a1)).bind fun r =>
      match interruptHandler h (decodeCause (m.get a0)) r m.sys with
      | .error _ => none
      | .ok (r', s) =>
        some { m with x := Function.update clobber a0 (A.addr r'), sys := s, running := r' }
  | .sret, m => some { m with pc := m.sepc }

def execAll : List Instr → Cpu → Option Cpu
  | [], m => some m
  | i :: is, m => (i.exec A h clobber m).bind fun m => execAll is m

end Exec

/-! ## 3. Traps -/

/-- A trap: the registers and the program counter it finds, what it is, and what the
    call of the handler leaves in the registers. -/
structure TrapEvent where
  regs : Fin 32 → Word
  pc : Word
  call : Bool
  clobber : Fin 32 → Word

/-- The program counter at which the trapped code goes on. -/
def TrapEvent.resumePc (e : TrapEvent) : Word := if e.call = true then e.pc + 4#64 else e.pc

def TrapEvent.scause (e : TrapEvent) : Word :=
  if e.call = true then 8#64 else 0x8000000000000005#64

/-- What the hart does by itself when the trap is taken. -/
def Cpu.enter (m : Cpu) (e : TrapEvent) : Cpu :=
  { m with x := e.regs, sepc := e.pc, scause := e.scause }

/-- A hart, and for each task the trap it took last. -/
structure Traced where
  cpu : Cpu
  last : Nat → Option TrapEvent

/-- Remember the trap of the task that was running. -/
def Traced.remember (s : Traced) (e : TrapEvent) : Nat → Option TrapEvent :=
  match s.cpu.running with
  | .hart _ => s.last
  | .task i => Function.update s.last i (some e)

/-- One trap and the return from it; only tasks make environment calls. -/
inductive SwitchStep (A : TrapLayout) (h : Nat) : Traced → TrapEvent → Traced → Prop
  | mk {s : Traced} {e : TrapEvent} {m : Cpu}
      (hcall : e.call = true → ∃ i, s.cpu.running = .task i)
      (hexec : execAll A h e.clobber (handleInterrupt ++ jumpOutOfTrap) (s.cpu.enter e) = some m) :
      SwitchStep A h s e ⟨m, s.remember e⟩

/-! ## 4. Records -/

@[simp] theorem System.trap_setTrap (s : System) (r : TrapRef) (t : Trap) :
    (s.setTrap r t).trap r = t := by
  cases r <;> simp [System.setTrap, System.trap, System.setTask]

@[simp] theorem System.setTrap_setTrap (s : System) (r : TrapRef) (t t' : Trap) :
    (s.setTrap r t).setTrap r t' = s.setTrap r t' := by
  cases r <;> simp [System.setTrap, System.setTask]

@[simp] theorem System.setTrap_trap (s : System) (r : TrapRef) : s.setTrap r (s.trap r) = s := by
  cases r <;> simp [System.setTrap, System.trap, System.setTask]

theorem System.setTrap_task_of_ne (s : System) {r : TrapRef} {i : Nat} (hr : r ≠ .task i)
    (t : Trap) : (s.setTrap r t).tasks i = s.tasks i := by
  cases r with
  | hart h => rfl
  | task j =>
    have hij : i ≠ j := fun h => hr (congrArg _ h.symm)
    simp [System.setTrap, System.setTask, hij]

/-- The slot of a register. -/
@[simp] theorem Trap.set_reg (t : Trap) (j : Fin 32) (w : Word) :
    t.set (8 * j.val) w = some { t with xs := Function.update t.xs j w } := by
  have hdiv : (⟨8 * j.val / 8, by omega⟩ : Fin 32) = j := Fin.ext (by simp)
  rw [Trap.set, dif_pos ⟨by omega, by omega⟩, hdiv]

@[simp] theorem Trap.get_reg (t : Trap) (j : Fin 32) : t.get (8 * j.val) = some (t.xs j) := by
  have hdiv : (⟨8 * j.val / 8, by omega⟩ : Fin 32) = j := Fin.ext (by simp)
  rw [Trap.get, dif_pos ⟨by omega, by omega⟩, hdiv]

/-- The record with the registers `js` of a hart in it. -/
def Trap.save (t : Trap) (js : List (Fin 32)) (f : Fin 32 → Word) : Trap :=
  { t with xs := fun j => if j ∈ js then f j else t.xs j }

theorem Trap.save_cons (t : Trap) (j : Fin 32) (js : List (Fin 32)) (f : Fin 32 → Word) :
    Trap.save { t with xs := Function.update t.xs j (f j) } js f = t.save (j :: js) f := by
  simp only [Trap.save, List.mem_cons]
  congr 1
  funext i
  by_cases hmem : i ∈ js
  · simp [hmem]
  · by_cases hij : i = j
    · subst hij
      simp [hmem]
    · simp [hmem, hij]

/-! ## 5. The two sequences -/

/-- Registers `x0` to `x30`. -/
def lowRegs : List (Fin 32) := (List.finRange 31).map Fin.castSucc

theorem mem_lowRegs (j : Fin 32) : j ∈ lowRegs ↔ j ≠ t6 := by
  revert j
  decide

section Sequences

variable {A : TrapLayout} {h : Nat} {clobber : Fin 32 → Word}

theorem execAll_append (is js : List Instr) (m : Cpu) :
    execAll A h clobber (is ++ js) m =
      (execAll A h clobber is m).bind (execAll A h clobber js) := by
  induction is generalizing m with
  | nil => rfl
  | cons i is ih =>
    simp only [List.cons_append, execAll, Option.bind_assoc]
    congr 1
    funext m'
    exact ih m'

/-- Spilling registers into the record that `t6` points to. -/
theorem execAll_saves {r : TrapRef} (js : List (Fin 32)) {m : Cpu}
    (href : A.ref (m.get t6) = some r) :
    execAll A h clobber (js.map fun j => .sd j (8 * j.val) t6) m =
      some { m with sys := m.sys.setTrap r ((m.sys.trap r).save js m.get) } := by
  induction js generalizing m with
  | nil =>
    have hsame : (m.sys.trap r).save [] m.get = m.sys.trap r := by simp [Trap.save]
    rw [hsame, System.setTrap_trap]
    rfl
  | cons j js ih =>
    rw [List.map_cons, execAll]
    simp only [Instr.exec, href, Option.bind_some, Trap.set_reg, Option.map_some]
    refine (ih (by exact href)).trans ?_
    simp only [System.trap_setTrap, System.setTrap_setTrap]
    congr 3
    exact Trap.save_cons _ j js m.get

/-- Loading registers from the record that `t6` points to. -/
theorem execAll_loads {r : TrapRef} (js : List (Fin 32)) (hjs : t6 ∉ js) {m : Cpu}
    (href : A.ref (m.get t6) = some r) :
    execAll A h clobber (js.map fun j => .ld j (8 * j.val) t6) m =
      some { m with x := fun j => if j ∈ js then (m.sys.trap r).xs j else m.x j } := by
  induction js generalizing m with
  | nil => simp [execAll]
  | cons j js ih =>
    rw [List.mem_cons, not_or] at hjs
    rw [List.map_cons, execAll]
    simp only [Instr.exec, href, Option.bind_some, Trap.get_reg, Option.map_some]
    have hbase : A.ref ((m.set j ((m.sys.trap r).xs j)).get t6) = some r := by
      rw [← href]
      simp only [Cpu.get, Cpu.set, Function.update_of_ne hjs.1]
    rw [ih hjs.2 hbase]
    simp only [Cpu.set, List.mem_cons]
    congr 2
    funext i
    by_cases hmem : i ∈ js
    · simp [hmem]
    · by_cases hij : i = j
      · subst hij
        simp [hmem]
      · simp [hmem, hij]

/-- What the entry sequence leaves in the record: the trapped registers and the
    trapped program counter. -/
def Cpu.spilled (m : Cpu) (r : TrapRef) : Trap :=
  { m.sys.trap r with xs := m.get, pc := m.sepc }

theorem handleInterrupt_eq : handleInterrupt =
    .csrrw t6 .sscratch t6 :: ((lowRegs.map fun j => .sd j (8 * j.val) t6) ++
      [.csrr t5 .sscratch, .sd t5 0x0f8 t6, .csrw .sscratch t6, .csrr t5 .sepc, .sd t5 0x100 t6,
        .ld sp 0x108 t6, .mv fp sp, .csrr a0 .scause, .mv a1 t6, .jalInterruptHandler,
        .csrw .sscratch a0]) := by
  decide

theorem jumpOutOfTrap_eq : jumpOutOfTrap =
    [.mv t6 a0, .ld t5 0x100 t6, .csrw .sepc t5] ++
      ((lowRegs.map fun j => .ld j (8 * j.val) t6) ++ [.ld t6 0x0f8 t6, .sret]) := by
  decide

/-- Between the spills and the loads: the trapped `t6` and `pc` go into the record, and
    the handler is called. -/
theorem exec_call {m : Cpu} {r r' : TrapRef} {s' : System} (href : A.ref (m.get t6) = some r)
    (hcall : interruptHandler h (decodeCause m.scause) r
      (m.sys.setTrap r { m.sys.trap r with
        xs := Function.update (m.sys.trap r).xs t6 m.sscratch, pc := m.sepc }) = .ok (r', s')) :
    ∃ m', execAll A h clobber
      [.csrr t5 .sscratch, .sd t5 0x0f8 t6, .csrw .sscratch t6, .csrr t5 .sepc, .sd t5 0x100 t6,
        .ld sp 0x108 t6, .mv fp sp, .csrr a0 .scause, .mv a1 t6, .jalInterruptHandler,
        .csrw .sscratch a0] m = some m' ∧
      m'.get a0 = A.addr r' ∧ m'.sscratch = A.addr r' ∧ m'.sys = s' ∧ m'.running = r' := by
  have h31 : ∀ (t : Trap) (w : Word),
      t.set 0x0f8 w = some { t with xs := Function.update t.xs t6 w } :=
    fun t w => t.set_reg t6 w
  have hpc : ∀ (t : Trap) (w : Word), t.set 0x100 w = some { t with pc := w } := fun _ _ => rfl
  have hsp : ∀ t : Trap, t.get 0x108 = some t.interruptStack := fun _ => rfl
  simp only [Cpu.get, t6, Fin.isValue, Fin.reduceEq, if_false] at href
  simp only [t6, Fin.isValue] at hcall
  simp only [execAll, Instr.exec, Cpu.get, Cpu.set, Cpu.readCsr, Cpu.writeCsr, h31, hpc, hsp, href,
    t5, t6, sp, fp, a0, a1, Option.bind_some, Option.map_some, Function.update_self,
    Function.update_of_ne, ne_eq, Fin.isValue, Fin.reduceEq, not_false_eq_true, if_false,
    System.trap_setTrap, System.setTrap_setTrap]
  rw [hcall]
  have ha0 : Function.update clobber 10 (A.addr r') 10 = A.addr r' := Function.update_self _ _ _
  exact ⟨_, rfl, ha0, ha0, rfl, rfl⟩

theorem exec_handleInterrupt {m : Cpu} {r r' : TrapRef} {s' : System}
    (href : A.ref m.sscratch = some r)
    (hcall : interruptHandler h (decodeCause m.scause) r (m.sys.setTrap r (m.spilled r)) =
      .ok (r', s')) :
    ∃ m', execAll A h clobber handleInterrupt m = some m' ∧ m'.get a0 = A.addr r' ∧
      m'.sscratch = A.addr r' ∧ m'.sys = s' ∧ m'.running = r' := by
  rw [handleInterrupt_eq, execAll, Instr.exec, Option.bind_some, execAll_append]
  have hbase : ((m.writeCsr (m.get t6) .sscratch).set t6 (m.readCsr .sscratch)).get t6 =
      m.sscratch := by
    simp [Cpu.get, Cpu.set, Cpu.readCsr, t6]
  rw [execAll_saves lowRegs (hbase ▸ href), Option.bind_some]
  apply exec_call (r := r)
  · rw [← href]
    exact congrArg A.ref hbase
  · rw [← hcall, System.trap_setTrap, System.setTrap_setTrap]
    congr 2
    simp only [Cpu.spilled, Trap.save]
    congr 1
    funext j
    by_cases hj : j = t6
    · subst hj
      rw [Function.update_self]
      rfl
    · rw [Function.update_of_ne hj, if_pos ((mem_lowRegs j).mpr hj)]
      simp [Cpu.get, Cpu.set, Cpu.writeCsr, hj]

theorem exec_jumpOutOfTrap {m : Cpu} {r : TrapRef} (href : A.ref (m.get a0) = some r) :
    ∃ m', execAll A h clobber jumpOutOfTrap m = some m' ∧
      (∀ j, j ≠ 0 → m'.x j = (m.sys.trap r).xs j) ∧ m'.pc = (m.sys.trap r).pc ∧
      m'.sscratch = m.sscratch ∧ m'.sys = m.sys ∧ m'.running = m.running := by
  have h31 : ∀ t : Trap, t.get 0x0f8 = some (t.xs t6) := fun t => t.get_reg t6
  have hpc : ∀ t : Trap, t.get 0x100 = some t.pc := fun _ => rfl
  -- the program counter, and `t6` as the base of the loads
  obtain ⟨m1, hm1, hbase, hsepc, hsys, hsscratch, hrunning⟩ : ∃ m1,
      execAll A h clobber [.mv t6 a0, .ld t5 0x100 t6, .csrw .sepc t5] m = some m1 ∧
        m1.get t6 = m.get a0 ∧ m1.sepc = (m.sys.trap r).pc ∧ m1.sys = m.sys ∧
        m1.sscratch = m.sscratch ∧ m1.running = m.running := by
    simp only [Cpu.get, a0, Fin.isValue, Fin.reduceEq, if_false] at href
    simp only [execAll, Instr.exec, Cpu.get, Cpu.set, Cpu.writeCsr, hpc, href, t5, t6, a0,
      Option.bind_some, Option.map_some, Function.update_self, Fin.isValue, Fin.reduceEq, if_false]
    exact ⟨_, rfl, by simp, by simp, rfl, rfl, rfl⟩
  have href1 : A.ref (m1.get t6) = some r := hbase ▸ href
  have hnot : t6 ∉ lowRegs := by decide
  rw [jumpOutOfTrap_eq, execAll_append, hm1, Option.bind_some, execAll_append,
    execAll_loads lowRegs hnot href1, Option.bind_some]
  have hlast : A.ref (m1.x t6) = some r := href1
  simp only [execAll, Instr.exec, Cpu.get, Cpu.set, h31, hnot, if_false, Option.bind_some]
  have ht6 : t6 ≠ 0 := by decide
  rw [if_neg ht6, hlast]
  refine ⟨_, rfl, fun j hj => ?_, hsepc, hsscratch, hsys, hrunning⟩
  rw [← hsys]
  by_cases hj6 : j = t6
  · subst hj6
    simp only [Function.update_self]
  · simp only [Function.update_of_ne hj6, (mem_lowRegs j).mpr hj6, if_true]

end Sequences

/-- **One trap, as a whole.** -/
theorem exec_trap {A : TrapLayout} {h : Nat} {clobber : Fin 32 → Word} {m : Cpu} {r r' : TrapRef}
    {s' : System} (href : A.ref m.sscratch = some r)
    (hcall : interruptHandler h (decodeCause m.scause) r (m.sys.setTrap r (m.spilled r)) =
      .ok (r', s')) (href' : A.ref (A.addr r') = some r') :
    ∃ m', execAll A h clobber (handleInterrupt ++ jumpOutOfTrap) m = some m' ∧
      (∀ j, j ≠ 0 → m'.x j = (s'.trap r').xs j) ∧ m'.pc = (s'.trap r').pc ∧
      m'.sscratch = A.addr r' ∧ m'.sys = s' ∧ m'.running = r' := by
  obtain ⟨m1, hm1, ha0, hsscratch, rfl, rfl⟩ := @exec_handleInterrupt A h clobber _ _ _ _ href hcall
  obtain ⟨m2, hm2, hx, hpc, hsscratch', hsys, hrunning⟩ :=
    @exec_jumpOutOfTrap A h clobber m1 m1.running (ha0.symm ▸ href')
  refine ⟨m2, ?_, hx, hpc, hsscratch'.trans hsscratch, hsys, hrunning⟩
  rw [execAll_append, hm1, Option.bind_some]
  exact hm2

/-! ## 6. Every task finds its registers -/

/-- What the handler is told of the trap. -/
def TrapEvent.cause (e : TrapEvent) : Cause := if e.call = true then .environmentCall else .timer

theorem decodeCause_scause (e : TrapEvent) : decodeCause e.scause = e.cause := by
  rw [TrapEvent.scause, TrapEvent.cause]
  split <;> rfl

/-- The record holds the context in which the trapped code goes on. -/
def Trap.Holds (t : Trap) (e : TrapEvent) : Prop :=
  (∀ j, j ≠ 0 → t.xs j = e.regs j) ∧ t.pc = e.resumePc

/-- Task `i` goes on where its last trap left it, under its own page table. -/
structure Resumed (A : TrapLayout) (h i : Nat) (s : Traced) : Prop where
  running : s.cpu.running = .task i
  sscratch : s.cpu.sscratch = A.addr (.task i)
  mmu : getMmu (s.cpu.sys.satp h) = (s.cpu.sys.tasks i).mmuData
  context : ∀ e, s.last i = some e → (∀ j, j ≠ 0 → s.cpu.x j = e.regs j) ∧ s.cpu.pc = e.resumePc

/-- The harts, of which only `h` is up. -/
def Cpu.harts (m : Cpu) (h : Nat) : Harts := ⟨m.sys, Function.update .hart h m.running⟩

theorem Cpu.harts_current (m : Cpu) (h : Nat) : (m.harts h).current h = m.running :=
  Function.update_self _ _ _

/-- The hart `kinit` leaves idling on its own record, before the first trap. -/
structure Traced.KinitLeaves (A : TrapLayout) (T h : Nat) (s : Traced) : Prop where
  idle : s.cpu.running = .hart h
  leaves : IloPali.KinitLeaves T (s.cpu.harts h)
  sscratch : s.cpu.sscratch = A.addr (.hart h)
  last : ∀ i, s.last i = none

/-- Between traps: the harts are in order, `sscratch` points to the record in use,
    every record holds the context of its task, and this hart has its own loaded. -/
structure Traced.Inv (A : TrapLayout) (T h : Nat) (s : Traced) : Prop where
  consistent : Consistent T (s.cpu.harts h)
  sscratch : s.cpu.sscratch = A.addr s.cpu.running
  saved : ∀ i e, s.last i = some e → (s.cpu.sys.tasks i).trap.Holds e
  loaded : ∀ i, s.cpu.running = .task i →
    (∀ j, j ≠ 0 → s.cpu.x j = (s.cpu.sys.tasks i).trap.xs j) ∧
      s.cpu.pc = (s.cpu.sys.tasks i).trap.pc

theorem Traced.KinitLeaves.inv {A : TrapLayout} {T h : Nat} {s : Traced}
    (h0 : s.KinitLeaves A T h) : s.Inv A T h := by
  refine ⟨h0.leaves.consistent, by rw [h0.idle, h0.sscratch], fun i e hlast => ?_, fun i hrun => ?_⟩
  · rw [h0.last i] at hlast
    exact nomatch hlast
  · rw [h0.idle] at hrun
    exact nomatch hrun

/-- Spilling registers changes nothing the handler relies on. -/
theorem Consistent.setTrap {T : Nat} {m : Harts} (hm : Consistent T m) {r : TrapRef} {t : Trap}
    (hpid : t.pid = (m.sys.trap r).pid) (hhart : t.hartid = (m.sys.trap r).hartid) :
    Consistent T ⟨m.sys.setTrap r t, m.current⟩ := by
  have htask : ∀ i, ((m.sys.setTrap r t).tasks i).pid = (m.sys.tasks i).pid ∧
      ((m.sys.setTrap r t).tasks i).trap.pid = (m.sys.tasks i).trap.pid ∧
      ((m.sys.setTrap r t).tasks i).mmuData = (m.sys.tasks i).mmuData ∧
      ((m.sys.setTrap r t).tasks i).state = (m.sys.tasks i).state ∧
      ((m.sys.setTrap r t).tasks i).trap.hartid = (m.sys.tasks i).trap.hartid := by
    intro i
    by_cases hr : r = .task i
    · subst hr
      simp only [System.setTrap, System.setTask, Function.update_self, true_and]
      exact ⟨hpid, hhart⟩
    · rw [System.setTrap_task_of_ne m.sys hr]
      exact ⟨rfl, rfl, rfl, rfl, rfl⟩
  have hharts : ∀ h, ((m.sys.setTrap r t).traps h).pid = (m.sys.traps h).pid ∧
      ((m.sys.setTrap r t).traps h).hartid = (m.sys.traps h).hartid := by
    intro h
    cases r with
    | task i => exact ⟨rfl, rfl⟩
    | hart h' =>
      by_cases hh : h = h'
      · subst hh
        simp only [System.setTrap, Function.update_self]
        exact ⟨hpid, hhart⟩
      · simp [System.setTrap, Function.update_of_ne hh]
  have hrest : (m.sys.setTrap r t).maxPid = m.sys.maxPid ∧ (m.sys.setTrap r t).upTo = m.sys.upTo ∧
      (m.sys.setTrap r t).next = m.sys.next ∧ (m.sys.setTrap r t).satp = m.sys.satp := by
    cases r <;> exact ⟨rfl, rfl, rfl, rfl⟩
  obtain ⟨hmax, hup, hnext, hsatp⟩ := hrest
  refine ⟨hm.scheduled.congr hmax hup (hnext ▸ hm.scheduled.next) hharts fun i => ?_, hm.fits,
    fun h i hc => ?_⟩
  · obtain ⟨h1, h2, h3, _⟩ := htask i
    exact ⟨h1, h2, h3⟩
  · obtain ⟨_, _, hmmu, hstate, hid⟩ := htask i
    obtain ⟨h1, h2, h3⟩ := hm.runs h i hc
    refine ⟨hstate.trans h1, ?_, hid.trans h3⟩
    rw [hmmu, ← h2]
    exact congrArg (fun f => getMmu (f h)) hsatp

/-- The handler, on the one hart that is up: the harts stay in order, it returns a
    task's record, and no record loses the context in it. -/
theorem handler_context {T h : Nat} {m : Harts} (hm : Consistent T m)
    (hone : ∀ h', h' ≠ h → m.current h' = .hart h') (e : TrapEvent)
    (hcall : e.call = true → ∃ i, m.current h = .task i) :
    ∃ n s, n < T ∧ interruptHandler h e.cause (m.current h) m.sys = .ok (.task n, s) ∧
      Consistent T ⟨s, Function.update m.current h (.task n)⟩ ∧
      ∀ i, (s.tasks i).trap.xs = (m.sys.tasks i).trap.xs ∧
        (s.tasks i).trap.pc = if e.call = true ∧ m.current h = .task i
          then (m.sys.tasks i).trap.pc + 4#64 else (m.sys.tasks i).trap.pc := by
  by_cases hev : e.call = true
  · obtain ⟨i, hc⟩ := hcall hev
    have hi : i < T := by
      rcases hm.fits h with hidle | ⟨i', hi', htask⟩
      · rw [hidle] at hc
        exact nomatch hc
      · rw [htask, TrapRef.task.injEq] at hc
        exact hc ▸ hi'
    have hcons := hm.skipCall i
    rw [← update_current hc] at hcons
    refine ⟨i, m.sys.skipCall (.task i), hi, ?_, hcons, fun k => ?_⟩
    · rw [TrapEvent.cause, if_pos hev, hc, environmentCall_task hm.scheduled h hi]
    · rw [hc]
      by_cases hki : k = i
      · subst hki
        simp [System.skipCall, System.setTrap, System.setTask, System.trap, hev]
      · simp [System.skipCall, System.setTrap, System.setTask, hki, Ne.symm hki]
  · obtain ⟨n, hn, hnext⟩ := hm.scheduled.next
    obtain ⟨s', hcall', hsw⟩ := timerSwitch_spec hm.scheduled hn hnext (hm.fits h)
    refine ⟨n, s', hn, ?_, hm.timer hn hnext (fun h' hh => ?_) hsw, fun i => ?_⟩
    · rw [TrapEvent.cause, if_neg hev]
      exact hcall'
    · -- the other harts idle
      rw [Harts.pid, hone h' hh, trap_pid_hart hm.scheduled, hnext]
      omega
    · rw [if_neg fun hc => hev hc.1]
      by_cases hin : i = n
      · subst hin
        rw [hsw.trap]
        exact ⟨rfl, rfl⟩
      · rw [hsw.other i hin]
        exact ⟨rfl, rfl⟩

theorem SwitchStep.deterministic {A : TrapLayout} {h : Nat} (s : Traced) (e : TrapEvent)
    (s1 s2 : Traced) (h1 : SwitchStep A h s e s1) (h2 : SwitchStep A h s e s2) : s1 = s2 := by
  rcases h1 with ⟨_, hexec1⟩
  rcases h2 with ⟨_, hexec2⟩
  rw [hexec1, Option.some.injEq] at hexec2
  rw [hexec2]

theorem Traced.remember_of_ne (s : Traced) (e : TrapEvent) {i : Nat}
    (hrun : s.cpu.running ≠ .task i) : s.remember e i = s.last i := by
  rw [Traced.remember]
  cases hk : s.cpu.running with
  | hart h => rfl
  | task k =>
    refine Function.update_of_ne (fun hik => hrun ?_) _ _
    rw [hk, hik]

section Switching

variable {A : TrapLayout} {T h : Nat}

/-- A spilled record holds its context, up to the step over an environment call. -/
theorem Traced.Inv.spilled {s : Traced} (hs : s.Inv A T h) (e : TrapEvent) {i : Nat}
    {e' : TrapEvent} (hlast : s.remember e i = some e') {t : Trap}
    (hxs : t.xs = (((s.cpu.enter e).sys.setTrap s.cpu.running
      ((s.cpu.enter e).spilled s.cpu.running)).tasks i).trap.xs)
    (hpc : t.pc = if e.call = true ∧ s.cpu.running = .task i
      then (((s.cpu.enter e).sys.setTrap s.cpu.running
        ((s.cpu.enter e).spilled s.cpu.running)).tasks i).trap.pc + 4#64
      else (((s.cpu.enter e).sys.setTrap s.cpu.running
        ((s.cpu.enter e).spilled s.cpu.running)).tasks i).trap.pc) : t.Holds e' := by
  by_cases hrun : s.cpu.running = .task i
  · rw [Traced.remember, hrun] at hlast
    simp only [Function.update_self, Option.some.injEq] at hlast
    subst hlast
    rw [hrun] at hxs hpc
    simp only [System.setTrap, System.setTask, Function.update_self, and_true] at hxs hpc
    refine ⟨fun j hj => ?_, hpc⟩
    rw [hxs, Cpu.spilled]
    exact if_neg hj
  · rw [s.remember_of_ne e hrun] at hlast
    rw [System.setTrap_task_of_ne _ hrun] at hxs hpc
    rw [if_neg fun hc => hrun hc.2] at hpc
    obtain ⟨h1, h2⟩ := hs.saved i e' hlast
    exact ⟨fun j hj => (congrFun hxs j).trans (h1 j hj), hpc.trans h2⟩

/-- One trap keeps the invariant, and ends in a task that goes on where it was. -/
theorem Traced.Inv.step (hA : A.Separates T h) {s : Traced} (hs : s.Inv A T h) (e : TrapEvent)
    (hcall : e.call = true → ∃ i, s.cpu.running = .task i) :
    ∃ s', SwitchStep A h s e s' ∧ s'.Inv A T h ∧ ∃ n, n < T ∧ Resumed A h n s' := by
  have hcur := s.cpu.harts_current h
  have hfits := hs.consistent.fits h
  rw [hcur] at hfits
  have hspill : Consistent T ⟨(s.cpu.enter e).sys.setTrap s.cpu.running
      ((s.cpu.enter e).spilled s.cpu.running), (s.cpu.harts h).current⟩ :=
    hs.consistent.setTrap rfl rfl
  obtain ⟨n, q, hn, hhandler, hcons, hkeep⟩ := handler_context hspill
    (fun h' hh => Function.update_of_ne hh _ _) e (fun hev => by rw [hcur]; exact hcall hev)
  simp only [hcur] at hhandler hcons hkeep
  have hself : Function.update (s.cpu.harts h).current h (.task n) =
      Function.update .hart h (.task n) := Function.update_idem _ _ _
  rw [hself] at hcons
  have href : A.ref (s.cpu.enter e).sscratch = some s.cpu.running := by
    rw [Cpu.enter, hs.sscratch]
    exact hA _ hfits
  obtain ⟨m, hexec, hx, hpc, hsscratch, rfl, hrunning⟩ :=
    @exec_trap A h e.clobber (s.cpu.enter e) s.cpu.running (.task n) q href
      (by rw [Cpu.enter, decodeCause_scause]; exact hhandler) (hA _ (Or.inr ⟨n, hn, rfl⟩))
  have hsaved : ∀ i e', s.remember e i = some e' → (m.sys.tasks i).trap.Holds e' :=
    fun i e' hlast => hs.spilled e hlast (hkeep i).1 (hkeep i).2
  refine ⟨⟨m, s.remember e⟩, .mk hcall hexec, ⟨?_, ?_, hsaved, fun i hi => ?_⟩, n, hn, hrunning,
    hsscratch, (hcons.runs h n (Function.update_self _ _ _)).2.1, fun e' hlast => ?_⟩
  · rw [Cpu.harts, hrunning]
    exact hcons
  · rw [hrunning]
    exact hsscratch
  · rw [hrunning, TrapRef.task.injEq] at hi
    subst hi
    exact ⟨hx, hpc⟩
  · obtain ⟨h1, h2⟩ := hsaved n e' hlast
    exact ⟨fun j hj => (hx j hj).trans (h1 j hj), hpc.trans h2⟩

theorem Traced.Inv.run (hA : A.Separates T h) {s0 s : Traced} {events : List TrapEvent}
    (hrun : Run (SwitchStep A h) s0 events s) (h0 : s0.Inv A T h) : s.Inv A T h := by
  refine hrun.invariant (fun s e s' hs hstep => ?_) h0
  have hcall : e.call = true → ∃ i, s.cpu.running = .task i := by
    rcases hstep with ⟨hcall, _⟩
    exact hcall
  obtain ⟨s'', hstep', hs', _⟩ := hs.step hA e hcall
  rw [SwitchStep.deterministic s e s' s'' hstep hstep']
  exact hs'

end Switching

/-- **Contexts survive switches.**  Whatever the number of tasks and the order of
    timers and environment calls on a hart, `sscratch` points to the record in use,
    every trap is handled, and it ends in a task that finds its registers, its
    program counter and its page table as its own last trap left them. -/
theorem context_preserved (A : TrapLayout) (T h : Nat) (hA : A.Separates T h) (s0 : Traced)
    (h0 : s0.KinitLeaves A T h) (events : List TrapEvent) (s : Traced)
    (hrun : Run (SwitchStep A h) s0 events s) :
    s.cpu.sscratch = A.addr s.cpu.running ∧
      (events ≠ [] → ∃ i, i < T ∧ Resumed A h i s) ∧
      ∀ e : TrapEvent, (e.call = true → ∃ i, s.cpu.running = .task i) →
        ∃ s', SwitchStep A h s e s' := by
  have hs := h0.inv.run hA hrun
  refine ⟨hs.sscratch, fun hne => ?_, fun e hcall => ?_⟩
  · -- the last trap of the run
    obtain ⟨front, e, rfl⟩ := List.eq_nil_or_concat events |>.resolve_left hne
    rw [List.concat_eq_append] at hrun
    obtain ⟨s1, hrun1, hrest⟩ := hrun.split
    have hs1 := h0.inv.run hA hrun1
    cases hrest with
    | cons hstep hnil =>
      cases hnil
      have hcall : e.call = true → ∃ i, s1.cpu.running = .task i := by
        rcases hstep with ⟨hcall, _⟩
        exact hcall
      obtain ⟨s2, hstep', _, hresumed⟩ := hs1.step hA e hcall
      rw [SwitchStep.deterministic s1 e s s2 hstep hstep']
      exact hresumed
  · obtain ⟨s', hstep, _⟩ := hs.step hA e hcall
    exact ⟨s', hstep⟩

/-- The records of one hart and two tasks. -/
def TrapLayout.small : TrapLayout where
  addr
    | .hart h => BitVec.ofNat 64 (0x80010000 + 0x220 * h)
    | .task i => BitVec.ofNat 64 (0x80020000 + 0x400 * i)
  ref a :=
    if a = 0x80010000#64 then some (.hart 0)
    else if a = 0x80020000#64 then some (.task 0)
    else if a = 0x80020400#64 then some (.task 1)
    else none

theorem TrapLayout.small_separates : TrapLayout.small.Separates 2 0 := by
  intro r hr
  rcases hr with rfl | ⟨i, hi, rfl⟩
  · rfl
  · have hcases : i = 0 ∨ i = 1 := by omega
    rcases hcases with rfl | rfl
    · rfl
    · rfl

/-- What `kinit` leaves of the hart, with two tasks. -/
def Traced.kinit : Traced where
  cpu :=
    { x := fun _ => 0#64
      pc := 0#64
      sepc := 0#64
      sscratch := TrapLayout.small.addr (.hart 0)
      scause := 0#64
      sys := (Harts.kinit 2).sys
      running := .hart 0 }
  last := fun _ => none

theorem Traced.kinit_leaves : Traced.kinit.KinitLeaves .small 2 0 := by
  have hharts : Traced.kinit.cpu.harts 0 = .kinit 2 := by
    rw [Cpu.harts]
    exact congrArg (Harts.mk _) (Function.update_eq_self _ _)
  exact ⟨rfl, hharts ▸ Harts.kinit_leaves (by decide) (by decide), rfl, fun _ => rfl⟩

/-- A timer, and a call by the task it starts. -/
theorem context_preserved_call : ∃ s, Run (SwitchStep .small 0) .kinit
    [⟨fun _ => 7#64, 0x80000000#64, false, fun _ => 9#64⟩,
      ⟨fun _ => 5#64, 0x1000#64, true, fun _ => 9#64⟩] s ∧ ∃ i, i < 2 ∧ Resumed .small 0 i s := by
  obtain ⟨s1, hstep1, hs1, i, _, hi⟩ := Traced.kinit_leaves.inv.step TrapLayout.small_separates
    ⟨fun _ => 7#64, 0x80000000#64, false, fun _ => 9#64⟩ nofun
  obtain ⟨s2, hstep2, _⟩ := hs1.step TrapLayout.small_separates
    ⟨fun _ => 5#64, 0x1000#64, true, fun _ => 9#64⟩ (fun _ => ⟨i, hi.running⟩)
  have hrun := Run.cons hstep1 (Run.cons hstep2 (Run.nil s2))
  obtain ⟨_, hlast, _⟩ := context_preserved .small 2 0 TrapLayout.small_separates _
    Traced.kinit_leaves _ _ hrun
  exact ⟨s2, hrun, hlast (List.cons_ne_nil _ _)⟩

end IloPali
