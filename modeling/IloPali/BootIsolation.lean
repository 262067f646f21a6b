import IloPali.Startup
import IloPali.UserRuns

/-!
# Isolation from the loader on (`kernel.c`, `process.c`, `interrupt.c`)

What `spawn_task_from_elf` leaves behind is what the harts start from.  So the memory of a task is
as it was loaded until the task runs, however the harts come up and whatever programs the others run.
-/

namespace IloPali

open ByteMemory Transition

/-! ## 1. Harts that come up between instructions -/

/-- The harts with their registers and memory, and which of them are up. -/
structure BootMachine where
  user : UserMachine
  up : Nat → Bool

inductive BootEvent
  | start (h : Nat)
  | step (e : UserEvent)

def BootEvent.taken : BootEvent → Option UserEvent
  | .start _ => none
  | .step e => some e

def UserEvent.hart : UserEvent → Nat
  | .user h _ => h
  | .trap h _ _ => h

namespace BootMachine

/-- Hart `h` after `init_hart_helper`, whose jump loads the registers of the record. -/
def started (L : Layout) (root : Nat) (b : BootMachine) (h : Nat) : BootMachine :=
  let s := initHartHelper L root h b.user.harts.sys
  ⟨⟨⟨s, Function.update b.user.harts.current h (.hart h)⟩, b.user.mem,
    Function.update b.user.regs h ⟨(s.traps h).xs, (s.traps h).pc⟩⟩, Function.update b.up h true⟩

/-- The harts without their registers. -/
def startup (b : BootMachine) : Startup := ⟨b.user.harts, b.up⟩

/-- The machine as it would be if the harts that are not up had come up as well. -/
def complete (L : Layout) (root : Nat) (b : BootMachine) : UserMachine where
  harts := b.startup.complete L root
  mem := b.user.mem
  regs h := if b.up h = true then b.user.regs h
    else ⟨(b.user.harts.sys.traps h).xs, b.user.harts.sys.doNothing⟩

/-- Before any hart is up, with what the loader leaves. -/
def before (s : Spawner) (current : Nat → TrapRef) (regs : Nat → Registers) : BootMachine :=
  ⟨⟨⟨s.sys, current⟩, s.mem, regs⟩, fun _ => false⟩

end BootMachine

/-- A hart comes up, or one that is up executes an instruction or takes a trap. -/
inductive BootStep (L : Layout) (root : Nat) (P : Processor) :
    BootMachine → BootEvent → BootMachine → Prop
  | start {b : BootMachine} {h : Nat} (hoff : b.up h = false) :
      BootStep L root P b (.start h) (b.started L root h)
  | step {b : BootMachine} {e : UserEvent} {u : UserMachine} (hon : b.up e.hart = true)
      (hstep : UserStep P b.user e u) : BootStep L root P b (.step e) ⟨u, b.up⟩

/-! ## 2. The machine that all harts come to -/

theorem HandlerStep.call {m m' : Harts} {h : Nat} {c : Cause} (hstep : HandlerStep m (h, c) m') :
    ∃ r s, interruptHandler h c (m.current h) m.sys = .ok (r, s) ∧
      m' = ⟨s, Function.update m.current h r⟩ := by
  cases hstep with
  | mk hcall => exact ⟨_, _, hcall, rfl⟩

section Complete

variable {L : Layout} {root : Nat} {P : Processor} {b : BootMachine}

theorem BootMachine.complete_started (L : Layout) (root : Nat) {h : Nat} (hoff : b.up h = false) :
    (b.started L root h).complete L root = b.complete L root := by
  have hharts := @Startup.complete_start b.startup L root h hoff
  unfold complete
  congr 1
  funext h'
  by_cases hh : h' = h
  · subst hh
    simp [started, initHartHelper, initTrap, hoff]
  · simp [started, initHartHelper, Function.update_of_ne hh]

/-- A hart that is not up keeps its record. -/
theorem System.saveRegisters_off {s : System} {up : Nat → Bool} {r : TrapRef} (hr : r.Up up)
    (g : Registers) {h : Nat} (hoff : up h = false) : (s.saveRegisters r g).traps h = s.traps h := by
  cases r with
  | task i => rfl
  | hart k =>
    apply Function.update_of_ne
    rintro rfl
    rw [hr h rfl] at hoff
    cases hoff

/-- The registers of a hart that is up go to the same record. -/
theorem System.overlay_saveRegisters {s : System} {up : Nat → Bool} {r : TrapRef} (hr : r.Up up)
    (g : Registers) :
    (s.saveRegisters r g).overlay up
        (fun h => initTrap L (s.saveRegisters r g).doNothing h ((s.saveRegisters r g).traps h))
        (fun h => setMmu root ((s.saveRegisters r g).satp h)) =
      (s.overlay up (fun h => initTrap L s.doNothing h (s.traps h))
        fun h => setMmu root (s.satp h)).saveRegisters r g := by
  unfold saveRegisters
  rw [overlay_trap _ _ _ hr, overlay_setTrap _ _ _ hr]
  cases r with
  | task i => rfl
  | hart k =>
    simp only [setTrap, overlay]
    congr 1
    funext h
    by_cases hon : up h = true
    · rw [if_pos hon, if_pos hon]
    · have hne : h ≠ k := fun heq => hon (heq ▸ hr k rfl)
      rw [if_neg hon, if_neg hon, Function.update_of_ne hne]

/-- **A step** of a hart that is up is the same step of the machine that all harts come to. -/
theorem BootMachine.complete_step (hb : b.startup.Steady) {e : UserEvent} {u : UserMachine}
    (hon : b.up e.hart = true) (hstep : UserStep P b.user e u) :
    UserStep P (b.complete L root) e (BootMachine.complete L root ⟨u, b.up⟩) ∧
      Startup.Steady ⟨u.harts, b.up⟩ := by
  cases hstep with
  | @user h i g bytes m htask hexec hstore =>
    have hreached : (b.complete L root).reached h = b.user.reached h := by
      have hsatp : (b.complete L root).harts.sys.satp h = b.user.harts.sys.satp h := if_pos hon
      rw [UserMachine.reached, UserMachine.installed, hsatp]
      rfl
    have hregs : (b.complete L root).regs h = b.user.regs h := if_pos hon
    rw [← hreached] at hexec hstore
    rw [← hregs] at hexec
    have hcurrent : (b.complete L root).harts.current h = .task i := (if_pos hon).trans htask
    refine ⟨?_, hb⟩
    have hupdate := @update_overlay Registers b.up h hon b.user.regs
      (fun h => ⟨(b.user.harts.sys.traps h).xs, b.user.harts.sys.doNothing⟩) g
    convert UserStep.user hcurrent hexec hstore using 1
    show (⟨_, m, _⟩ : UserMachine) = ⟨_, m, _⟩
    congr 1
    exact hupdate.symm
  | @trap h c r r' s hcurrent hcall =>
    have hup : (b.user.harts.current h).Up b.up := hb h hon
    -- the trap of the harts alone, after the registers are saved
    set b1 : Startup := ⟨⟨b.user.entered h, b.user.harts.current⟩, b.up⟩
    have hcall1 : interruptHandler h c (b1.harts.current h) b1.harts.sys = .ok (r', s) := by
      subst hcurrent
      exact hcall
    have hstep := HandlerStep.mk hcall1
    have hsteady := Startup.steady_trap (b := b1) hb hon hstep
    refine ⟨?_, hsteady⟩
    obtain ⟨r2, s2, hcall2, heq⟩ := (@Startup.complete_trap L root b1 hb h c _ hon hstep).call
    have hregs : (b.complete L root).regs h = b.user.regs h := if_pos hon
    have hcur : (b.complete L root).harts.current h = b.user.harts.current h := if_pos hon
    have hentered : (b1.complete L root).sys = (b.complete L root).entered h := by
      rw [UserMachine.entered, hregs, hcur]
      exact System.overlay_saveRegisters hup _
    have hr : r2 = r' := by
      have hcurrents := congrFun (congrArg Harts.current heq) h
      have hon1 : b1.up h = true := hon
      simpa [Startup.complete, hon1] using hcurrents.symm
    subst hr
    have hnew : r2.Up b.up := by
      have hnew := hsteady h hon
      simpa using hnew
    have hsys : _ = s2 := congrArg Harts.sys heq
    have htrap : s2.trap r2 = s.trap r2 := by
      rw [← hsys]
      exact System.overlay_trap _ _ _ hnew
    rw [hentered] at hcall2
    have hrun := @UserStep.trap P (b.complete L root) h c _ r2 s2 rfl hcall2
    have hcurrent1 : (b1.complete L root).current = (b.complete L root).harts.current := rfl
    rw [hcur, hcurrent, ← hcurrent1, ← heq, htrap] at hrun
    convert hrun using 1
    show (⟨_, _, _⟩ : UserMachine) = ⟨_, _, _⟩
    congr 1
    funext h'
    by_cases hh : h' = h
    · subst hh
      have hon1 : b.up h' = true := hon
      simp [hon1]
    · rw [Function.update_of_ne hh]
      unfold complete
      by_cases hon' : b.up h' = true
      · simp [hon', Function.update_of_ne hh]
      · have hoff : b.up h' = false := by simpa using hon'
        obtain ⟨htraps, _⟩ := @Startup.trap_others b1 hb h c r2 s hon hcall1 h' hoff
        have hkept := (interruptHandler_returns hcall1).2
        have hsaved := @System.saveRegisters_off b.user.harts.sys b.up _ hup (b.user.regs h) h' hoff
        have hidle : (b.user.entered h).doNothing = b.user.harts.sys.doNothing :=
          System.setTrap_doNothing _ _ _
        simp only [hoff, Bool.false_eq_true, if_false]
        rw [htraps, hkept]
        exact congrArg₂ Registers.mk (congrArg Trap.xs hsaved) hidle

/-- A run in which harts come up is a run of the machine in which all of them are up. -/
theorem BootMachine.completes {es : List BootEvent} {b' : BootMachine} (hb : b.startup.Steady)
    (hrun : Run (BootStep L root P) b es b') :
    Run (UserStep P) (b.complete L root) (es.filterMap BootEvent.taken) (b'.complete L root) := by
  have hsim : ∀ (b : BootMachine) (e : BootEvent) (b' : BootMachine) (u : UserMachine),
      b.startup.Steady ∧ u = b.complete L root → BootStep L root P b e b' →
      (e.taken = none ∧ b'.startup.Steady ∧ u = b'.complete L root) ∨
        ∃ f u', e.taken = some f ∧ UserStep P u f u' ∧ b'.startup.Steady ∧
          u' = b'.complete L root := by
    rintro b e b' u ⟨hb, rfl⟩ hstep
    cases hstep with
    | start hoff => exact Or.inl ⟨rfl, Startup.steady_start L root hb _,
        (BootMachine.complete_started L root hoff).symm⟩
    | step hon hstep =>
      obtain ⟨hsame, hsteady⟩ := BootMachine.complete_step hb hon hstep
      exact Or.inr ⟨_, _, rfl, hsame, hsteady, rfl⟩
  obtain ⟨u, hu, _, rfl⟩ := hrun.stutters hsim _ ⟨hb, rfl⟩
  exact hu

end Complete

/-! ## 3. The tasks that are loaded -/

section Loaded

variable {L : Layout} (hL : L.WellFormed) {s t : Spawner}

/-- The first `n` slots are those of the tasks that were loaded. -/
structure Spawner.Fills (n : Nat) (s : Spawner) : Prop where
  occupied : Occupied n s.sys
  room : ∀ i : Nat, i < n → (i : Int) < s.sys.maxPid
  pids : ∀ i, i < n → i ∈ s.pids

include hL

/-- The task of a call, and the root of its table. -/
theorem Spawner.Inv.installed {rs : List PageRun} {free : SizeClass → List Nat} {c : SpawnCall}
    (h : s.Inv L rs free) (hholds : SpawnHolds L s c) (hstep : SpawnStep L s c t) :
    ∃ pid p, freeSlot s.sys = some pid ∧ IsRoot p.top ∧ t.sys = installTask s.sys pid p ∧
      t.pids = pid :: s.pids := by
  obtain ⟨pid, sys', h', hspawn, hok, rfl⟩ := hstep
  obtain ⟨hslot, rfl, rfl⟩ := spawnTaskFromElf_some hspawn
  obtain ⟨_, hdead, _⟩ := freeSlot_spec hslot
  have hready : Ready L s.trace rs free pid := by
    by_cases hpid : pid = 0
    · subst hpid
      exact (h.first hdead).2
    · exact ⟨h.heap, fun hzero => absurd hzero hpid⟩
  obtain ⟨ρ, rs', free', argsNew, k, hp⟩ :=
    spawnTask_prepares hL hready c.header c.stackSize c.args c.origin hholds hok
  have hs := hp.spawns hL
  have howned := (hs.userTable hL).tree.isTable_owned (isTable_root _ ρ)
  refine ⟨pid, _, hslot, ?_, rfl, rfl⟩
  have htop : (spawnTask L pid c.header c.stackSize c.args c.origin s.trace.heap).loaded.top =
      4096 * ρ := hs.root
  rw [htop]
  have hlt := howned.lt hL
  exact ⟨Nat.mul_ne_zero (by decide) (howned.addressable hL).1, Nat.mul_mod_right 4096 ρ, by omega⟩

/-- **One more task** fills the next slot. -/
theorem Spawner.Fills.step {n : Nat} {rs : List PageRun} {free : SizeClass → List Nat} {c : SpawnCall}
    (hs : s.Fills n) (h : s.Inv L rs free) (hholds : SpawnHolds L s c) (hstep : SpawnStep L s c t) :
    t.Fills (n + 1) := by
  obtain ⟨pid, p, hslot, hp, hsys, hpids⟩ := h.installed hL hholds hstep
  obtain ⟨hlt, hdead, _⟩ := freeSlot_spec hslot
  have hge : n ≤ pid := by
    by_contra hno
    have hready := (hs.occupied.tasks pid (Nat.lt_of_not_le hno)).2.2
    rw [hdead] at hready
    cases hready
  have hnext := hs.occupied.freeSlot (by omega)
  obtain rfl := Option.some.inj (hslot.symm.trans hnext)
  obtain ⟨hoccupied, hmax⟩ := hs.occupied.installTask hp
  rw [← hsys] at hoccupied hmax
  refine ⟨hoccupied, fun i hi => ?_, fun i hi => ?_⟩
  · rw [hmax]
    omega
  · rw [hpids]
    rcases Nat.eq_or_lt_of_le (Nat.le_of_lt_succ hi) with rfl | hold
    · exact List.mem_cons_self
    · exact List.mem_cons_of_mem pid (hs.pids i hold)

/-- Every sequence of calls fills the slots in order, and keeps the tasks apart. -/
theorem Spawner.Fills.run {n : Nat} {rs : List PageRun} {free : SizeClass → List Nat}
    {cs : List SpawnCall} (hs : s.Fills n) (h : s.Inv L rs free)
    (hrun : Run (guarded (SpawnHolds L) (SpawnStep L)) s cs t) :
    t.Fills (n + cs.length) ∧ t.Isolated := by
  induction hrun generalizing n rs free with
  | nil s => exact ⟨hs, h.isolated⟩
  | cons hstep _ ih =>
    obtain ⟨hholds, hstep⟩ := hstep
    obtain ⟨rs', free', h'⟩ := h.step hL hholds hstep
    rw [List.length_cons, Nat.add_comm _ 1, ← Nat.add_assoc]
    exact ih (hs.step hL h hholds hstep) h'

end Loaded

/-! ## 4. From the loader to the programs -/

section View

variable {T : Nat} {u t : UserMachine} {P : Processor}

end View

/-- The pages that the direct map shows are owned with and without it. -/
theorem OwnedPage.satp {L : Layout} (hR : L.Reachable true) {k k' : Kernel} (hmem : k'.mem = k.mem)
    {n : Nat} (h : OwnedPage L k n) : OwnedPage L k' n := by
  obtain ⟨⟨i, hlt, hi, hpos⟩, _⟩ := h
  refine ⟨⟨i, hlt, hi, ?_⟩, fun _ => ?_⟩
  · rwa [rc, hmem]
  · rw [hi]
    exact hR.pageAddr hlt rfl

section Bare

set_option maxRecDepth 100000

end Bare

end IloPali
