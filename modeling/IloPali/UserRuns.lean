import IloPali.Isolation
import IloPali.TrapHandler
import IloPali.Lib.Noninterference

/-!
# User programs on the harts

Between two traps a hart executes instructions of the task it runs, and reaches memory through the
table of that task only.  Where no frame is seen by two tasks and no frame is a table, nothing a task
executes changes what another one sees: memory keeps every byte that the tasks which ran may not write,
and what becomes of a task does not depend on the programs of the others.
-/

namespace IloPali

open ByteMemory Transition RadixTree

/-! ## 1. User mode -/

/-- The registers that `handle_interrupt` saves. -/
structure Registers where
  xs : Fin 32 → Word
  pc : Word

/-- What user code reaches at an address: a physical address, and what it may do there. -/
def userAccess (map : PageNumber → Option Mapping) (addr : Nat) : Option (Nat × Word) :=
  if Canonical addr then
    ((map (getVpns addr)).filter fun x => mmuEntryUser x.flags).map fun x =>
      (4096 * x.page + addr % 4096, permissions x.flags)
  else none

/-- Memory as user code sees it. -/
def userView (map : PageNumber → Option Mapping) (m : Mem) (addr : Nat) : Option (UInt8 × Word) :=
  (userAccess map addr).map fun x => (m x.1, x.2)

/-- The instruction at the program counter, with what it finds in memory: the registers after it and
    the bytes it stores, or nothing where it traps.  The instruction itself is part of what it finds. -/
abbrev Processor :=
  Registers → (Nat → Option (UInt8 × Word)) → Option (Registers × List (Nat × UInt8))

/-- The stores of an instruction; all of them are translated before the first takes effect. -/
def userStore (map : PageNumber → Option Mapping) : List (Nat × UInt8) → Mem → Option Mem
  | [], m => some m
  | (addr, b) :: bytes, m =>
    match userAccess map addr with
    | some (phys, perm) =>
      if mmuEntryWrite perm = true then userStore map bytes (Function.update m phys b) else none
    | none => none

/-- User code may write the byte at physical address `x`. -/
def UserWritable (map : PageNumber → Option Mapping) (x : Nat) : Prop :=
  ∃ addr perm, userAccess map addr = some (x, perm) ∧ mmuEntryWrite perm = true

/-! ## 2. Instructions and traps -/

namespace System

/-- `handle_interrupt`: the registers go to the record. -/
def saveRegisters (s : System) (r : TrapRef) (g : Registers) : System :=
  s.setTrap r { s.trap r with xs := g.xs, pc := g.pc }

/-- The registers that the record of task `i` holds. -/
def registers (s : System) (i : Nat) : Registers := ⟨(s.tasks i).trap.xs, (s.tasks i).trap.pc⟩

end System

/-- The harts with their registers, and memory. -/
structure UserMachine where
  harts : Harts
  mem : Mem
  regs : Nat → Registers

namespace UserMachine

/-- The page of the root of the table of task `i`. -/
def root (u : UserMachine) (i : Nat) : Nat := (u.harts.sys.tasks i).mmuData / PAGE_SIZE

/-- What the table of task `i` stands for. -/
def map (u : UserMachine) (i : Nat) : PageNumber → Option Mapping := denote u.mem (u.root i)

/-- The page of the root of the table that hart `h` translates with. -/
def installed (u : UserMachine) (h : Nat) : Nat := getMmu (u.harts.sys.satp h) / PAGE_SIZE

/-- What hart `h` translates by. -/
def reached (u : UserMachine) (h : Nat) : PageNumber → Option Mapping :=
  denote u.mem (u.installed h)

/-- The registers of hart `h` have been saved to the record it runs on. -/
def entered (u : UserMachine) (h : Nat) : System :=
  u.harts.sys.saveRegisters (u.harts.current h) (u.regs h)

end UserMachine

/-- An instruction of task `i` on hart `h`, or a trap on hart `h` which runs on record `r`. -/
inductive UserEvent
  | user (h i : Nat)
  | trap (h : Nat) (r : TrapRef) (c : Cause)
deriving DecidableEq

/-- What concerns task `j`: its own instructions and traps, and every timer. -/
def UserEvent.concerns (j : Nat) : UserEvent → Bool
  | .user _ i => i == j
  | .trap _ r c => c == .timer || r == .task j

inductive UserStep (P : Processor) : UserMachine → UserEvent → UserMachine → Prop
  | user {u : UserMachine} {h i : Nat} {r : Registers} {bytes : List (Nat × UInt8)} {m : Mem}
      (htask : u.harts.current h = .task i)
      (hexec : P (u.regs h) (userView (u.reached h) u.mem) = some (r, bytes))
      (hstore : userStore (u.reached h) bytes u.mem = some m) :
      UserStep P u (.user h i) { u with mem := m, regs := Function.update u.regs h r }
  | trap {u : UserMachine} {h : Nat} {c : Cause} {r r' : TrapRef} {s : System}
      (hcurrent : u.harts.current h = r)
      (hcall : interruptHandler h c r (u.entered h) = .ok (r', s)) :
      UserStep P u (.trap h r c)
        ⟨⟨s, Function.update u.harts.current h r'⟩, u.mem,
          Function.update u.regs h ⟨(s.trap r').xs, (s.trap r').pc⟩⟩

/-- **Walls.**  No frame is seen by two of the tasks, or twice by one, and none is a table. -/
structure UserMachine.Walls (T : Nat) (u : UserMachine) : Prop where
  frames : ∀ i, i < T → ∀ j, j < T → ∀ v w p, UserFrame u.mem (u.root i) v p →
    UserFrame u.mem (u.root j) w p → i = j ∧ v = w
  tables : ∀ i, i < T → ∀ j, j < T → ∀ v p, UserFrame u.mem (u.root i) v p →
    ¬ IsTable u.mem (u.root j) p

/-- What the loader leaves has walls. -/
theorem Spawner.Isolated.walls {s : Spawner} (hs : s.Isolated) {T : Nat}
    (hpids : ∀ i, i < T → i ∈ s.pids) {u : UserMachine} (hmem : u.mem = s.mem)
    (hroots : ∀ i, i < T → u.root i = s.root i) : u.Walls T := by
  constructor
  · intro i hi j hj v w p hv hw
    rw [hmem, hroots i hi] at hv
    rw [hmem, hroots j hj] at hw
    exact hs.frames i (hpids i hi) j (hpids j hj) v w p hv hw
  · intro i hi j hj v p hv
    rw [hmem, hroots i hi] at hv
    rw [hmem, hroots j hj]
    exact hs.tables i (hpids i hi) j (hpids j hj) v p hv

/-! ## 3. What an instruction writes -/

section Memory

variable {m m' : Mem} {ρ : Nat}

/-- A walk reads tables only. -/
theorem tableAt_same (h : ∀ n, IsTable m ρ n → ∀ x, x / 4096 = n → m' x = m x)
    (π : List (Fin 512)) (hπ : π.length ≤ 2) : tableAt m' ρ π = tableAt m ρ π := by
  refine nodeAt_congr (d := 2) (fun σ n i hσ hn => ?_) π hπ
  rw [cells_congr (h n ⟨σ, hσ.le, hn⟩)]

theorem isTable_same (h : ∀ n, IsTable m ρ n → ∀ x, x / 4096 = n → m' x = m x) (n : Nat) :
    IsTable m' ρ n ↔ IsTable m ρ n := by
  constructor
  · rintro ⟨π, hπ, hn⟩
    exact ⟨π, hπ, (tableAt_same h π hπ).symm.trans hn⟩
  · rintro ⟨π, hπ, hn⟩
    exact ⟨π, hπ, (tableAt_same h π hπ).trans hn⟩

/-- The rest of a walk, from the table at the end of `π`. -/
theorem translate_same (h : ∀ n, IsTable m ρ n → ∀ x, x / 4096 = n → m' x = m x)
    (vpns π : List (Fin 512)) (n : Nat) (hlen : π.length + vpns.length ≤ 3)
    (hn : tableAt m ρ π = some n) : translate m' vpns n = translate m vpns n := by
  induction vpns generalizing π n with
  | nil => rfl
  | cons i vpns ih =>
    rw [List.length_cons] at hlen
    have hcell : cells m' n i = cells m n i := cells_congr (h n ⟨π, by omega, hn⟩) i
    unfold translate
    rw [hcell]
    split
    · rfl
    · rename_i hvalid
      split
      · rfl
      · rename_i hframe
        apply ih (π ++ [i])
        · rw [List.length_append, List.length_singleton]
          omega
        · have hchild : childTable (cells m n i) = some (entryPhys (cells m n i) / 4096) := by
            unfold childTable
            rw [if_pos]
            constructor
            · simpa using hvalid
            · simpa using hframe
          rw [tableAt_snoc, hn, Option.bind_some, hchild]

/-- A table that is not written stands for the same map. -/
theorem denote_same (h : ∀ n, IsTable m ρ n → ∀ x, x / 4096 = n → m' x = m x) :
    denote m' ρ = denote m ρ := by
  funext v
  exact translate_same h [v.vpn0, v.vpn1, v.vpn2] [] ρ (Nat.le_refl 3) rfl

/-- What user code reaches lies in one of its frames. -/
theorem userAccess_frame {addr x : Nat} {perm : Word}
    (h : userAccess (denote m ρ) addr = some (x, perm)) :
    UserFrame m ρ (getVpns addr) (x / 4096) := by
  unfold userAccess at h
  split at h
  · obtain ⟨y, hy, heq⟩ := Option.map_eq_some_iff.mp h
    obtain ⟨hy, huser⟩ := Option.filter_eq_some_iff.mp hy
    obtain ⟨rfl, rfl⟩ := Prod.mk.inj heq
    exact ⟨y, hy, huser, by omega⟩
  · cases h

theorem userStore_outside {map : PageNumber → Option Mapping} {bytes : List (Nat × UInt8)}
    {m0 m1 : Mem} (h : userStore map bytes m0 = some m1) {x : Nat} (hx : ¬ UserWritable map x) :
    m1 x = m0 x := by
  induction bytes generalizing m0 with
  | nil =>
    obtain rfl := Option.some.inj h
    rfl
  | cons b bytes ih =>
    obtain ⟨addr, c⟩ := b
    unfold userStore at h
    split at h
    · rename_i phys perm haccess
      split at h
      · rename_i hwrite
        rw [ih h]
        apply Function.update_of_ne
        rintro rfl
        exact hx ⟨addr, perm, haccess, hwrite⟩
      · cases h
    · cases h

/-- The same stores to two memories. -/
theorem userStore_alike {map : PageNumber → Option Mapping} {bytes : List (Nat × UInt8)}
    {m0 m1 m0' m1' : Mem} (h : userStore map bytes m0 = some m1)
    (h' : userStore map bytes m0' = some m1') {x : Nat} (hx : m0' x = m0 x) : m1' x = m1 x := by
  induction bytes generalizing m0 m0' with
  | nil =>
    obtain rfl := Option.some.inj h
    obtain rfl := Option.some.inj h'
    exact hx
  | cons b bytes ih =>
    obtain ⟨addr, c⟩ := b
    unfold userStore at h h'
    cases hp : userAccess map addr with
    | none =>
      rw [hp] at h
      cases h
    | some y =>
      rw [hp] at h h'
      dsimp only at h h'
      by_cases hwrite : mmuEntryWrite y.2 = true
      · rw [if_pos hwrite] at h h'
        apply ih h h'
        by_cases hxy : x = y.1
        · subst hxy
          rw [Function.update_self, Function.update_self]
        · rw [Function.update_of_ne hxy, Function.update_of_ne hxy]
          exact hx
      · rw [if_neg hwrite] at h
        cases h

end Memory

/-! ## 4. Traps -/

section Traps

variable {T : Nat} {s : System} {r : TrapRef} {g : Registers}

/-- Only the registers change. -/
theorem saveRegisters_frame (s : System) (r : TrapRef) (g : Registers) :
    (s.saveRegisters r g).maxPid = s.maxPid ∧ (s.saveRegisters r g).next = s.next ∧
      (s.saveRegisters r g).upTo = s.upTo ∧ (s.saveRegisters r g).satp = s.satp ∧
      (∀ h, ((s.saveRegisters r g).traps h).pid = (s.traps h).pid ∧
        ((s.saveRegisters r g).traps h).hartid = (s.traps h).hartid) ∧
      ∀ i, ((s.saveRegisters r g).tasks i).pid = (s.tasks i).pid ∧
        ((s.saveRegisters r g).tasks i).trap.pid = (s.tasks i).trap.pid ∧
        ((s.saveRegisters r g).tasks i).mmuData = (s.tasks i).mmuData := by
  cases r with
  | hart h =>
    refine ⟨rfl, rfl, rfl, rfl, fun h' => ?_, fun _ => ⟨rfl, rfl, rfl⟩⟩
    by_cases hh : h' = h
    · subst hh
      simp [System.saveRegisters, System.setTrap, System.trap]
    · simp [System.saveRegisters, System.setTrap, Function.update_of_ne hh]
  | task j =>
    refine ⟨rfl, rfl, rfl, rfl, fun _ => ⟨rfl, rfl⟩, fun i => ?_⟩
    by_cases hij : i = j
    · subst hij
      simp [System.saveRegisters, System.setTrap, System.setTask, System.trap]
    · simp [System.saveRegisters, System.setTrap, System.setTask, Function.update_of_ne hij]

theorem saveRegisters_registers (s : System) (r : TrapRef) (g : Registers) (i : Nat) :
    (s.saveRegisters r g).registers i = if r = .task i then g else s.registers i := by
  cases r with
  | hart h => simp [System.saveRegisters, System.registers, System.setTrap]
  | task j =>
    by_cases hij : i = j
    · subst hij
      simp [System.saveRegisters, System.registers, System.setTrap, System.setTask]
    · simp [System.saveRegisters, System.registers, System.setTrap, System.setTask,
        Function.update_of_ne hij, Ne.symm hij]

theorem Scheduled.saveRegisters (hs : Scheduled T s) (r : TrapRef) (g : Registers) :
    Scheduled T (s.saveRegisters r g) := by
  obtain ⟨hmax, hnext, hup, _, htraps, htasks⟩ := saveRegisters_frame s r g
  exact hs.congr hmax hup (hnext ▸ hs.next) htraps htasks

/-- An environment call moves the program counter of its task on. -/
theorem skipCall_registers (s : System) (i j : Nat) :
    (s.skipCall (.task i)).registers j =
      if i = j then ⟨(s.registers j).xs, (s.registers j).pc + 4#64⟩ else s.registers j := by
  by_cases hij : i = j
  · subst hij
    simp [System.skipCall, System.registers, System.setTrap, System.setTask, System.trap]
  · simp [System.skipCall, System.registers, System.setTrap, System.setTask,
      Function.update_of_ne (Ne.symm hij), hij]

end Traps

/-! ## 5. The invariant -/

/-- Every hart that runs a task translates with its table, and the walls stand. -/
structure UserMachine.Inv (T : Nat) (u : UserMachine) : Prop where
  scheduled : Scheduled T u.harts.sys
  fits : ∀ h, (u.harts.current h).Fits T h
  satp : ∀ h i, u.harts.current h = .task i →
    getMmu (u.harts.sys.satp h) = (u.harts.sys.tasks i).mmuData
  walls : u.Walls T

theorem KinitLeaves.userInv {T : Nat} {u : UserMachine} (h0 : KinitLeaves T u.harts)
    (hw : u.Walls T) : u.Inv T := by
  refine ⟨h0.scheduled, fun h => Or.inl (h0.idle h).1, fun h i hc => ?_, hw⟩
  rw [(h0.idle h).1] at hc
  exact nomatch hc

section Steps

variable {T : Nat} {u t : UserMachine} {P : Processor}

theorem UserMachine.Inv.installed (hu : u.Inv T) {h i : Nat} (hc : u.harts.current h = .task i) :
    u.installed h = u.root i := by
  rw [UserMachine.installed, hu.satp h i hc, UserMachine.root]

theorem UserMachine.Inv.lt (hu : u.Inv T) {h i : Nat} (hc : u.harts.current h = .task i) : i < T := by
  rcases hu.fits h with hidle | ⟨j, hj, htask⟩
  · rw [hidle] at hc
    exact nomatch hc
  · rw [htask] at hc
    exact TrapRef.task.inj hc ▸ hj

theorem UserMachine.Inv.reached (hu : u.Inv T) {h i : Nat} (hc : u.harts.current h = .task i) :
    u.reached h = u.map i := by
  rw [UserMachine.reached, hu.installed hc, UserMachine.map]

/-- A byte that a task may write is in no table. -/
theorem UserMachine.Inv.tables (hu : u.Inv T) {i j x : Nat} (hi : i < T) (hj : j < T)
    (hx : UserWritable (u.map i) x) : ¬ IsTable u.mem (u.root j) (x / 4096) := by
  obtain ⟨addr, perm, haccess, _⟩ := hx
  exact hu.walls.tables i hi j hj _ _ (userAccess_frame haccess)

/-- The stores of a task leave every table alone. -/
theorem UserMachine.Inv.store (hu : u.Inv T) {i j : Nat} (hi : i < T) (hj : j < T)
    {bytes : List (Nat × UInt8)} {m : Mem}
    (hstore : userStore (u.map i) bytes u.mem = some m) :
    ∀ n, IsTable u.mem (u.root j) n → ∀ x, x / 4096 = n → m x = u.mem x := by
  rintro n hn x rfl
  exact userStore_outside hstore fun hx => hu.tables hi hj hx hn

/-- What a trap does to the machine. -/
theorem UserMachine.Inv.trap (hu : u.Inv T) {h : Nat} {c : Cause} {r r' : TrapRef} {s : System}
    (hcurrent : u.harts.current h = r)
    (hcall : interruptHandler h c r (u.entered h) = .ok (r', s)) :
    (c = .timer ∧ ∃ n, n < T ∧ u.harts.sys.next = n ∧ r' = .task n ∧
        Switched T h r n (u.entered h) s) ∨
      c ≠ .timer ∧ ∃ i, i < T ∧ r = .task i ∧ r' = .task i ∧ s = afterCall c i (u.entered h) := by
  have hnext : (u.entered h).next = u.harts.sys.next :=
    (saveRegisters_frame u.harts.sys (u.harts.current h) (u.regs h)).2.1
  rw [← hnext]
  exact interruptHandler_cases (hu.scheduled.saveRegisters _ _) (hcurrent ▸ hu.fits h) hcall

/-- The roots of the tables stay where they are, and every table stands for the same map. -/
structure SameMaps (T : Nat) (u t : UserMachine) : Prop where
  roots : ∀ j, t.root j = u.root j
  maps : ∀ j, j < T → t.map j = u.map j
  tables : ∀ j, j < T → ∀ p, IsTable t.mem (t.root j) p ↔ IsTable u.mem (u.root j) p

theorem SameMaps.walls (h : SameMaps T u t) (hw : u.Walls T) : t.Walls T := by
  constructor
  · intro i hi j hj v w p hv hw'
    have hi' := h.maps i hi
    have hj' := h.maps j hj
    unfold UserFrame at hv hw'
    unfold UserMachine.map at hi' hj'
    rw [hi'] at hv
    rw [hj'] at hw'
    exact hw.frames i hi j hj v w p hv hw'
  · intro i hi j hj v p hv ht
    have hi' := h.maps i hi
    unfold UserFrame at hv
    unfold UserMachine.map at hi'
    rw [hi'] at hv
    exact hw.tables i hi j hj v p hv ((h.tables j hj p).mp ht)

theorem UserMachine.Inv.maps (hu : u.Inv T) {e : UserEvent} (hstep : UserStep P u e t) :
    SameMaps T u t := by
  cases hstep with
  | @user h i r bytes m hc hexec hstore =>
    rw [hu.reached hc] at hstore
    have hi := hu.lt hc
    exact ⟨fun _ => rfl, fun j hj => denote_same (hu.store hi hj hstore),
      fun j hj => isTable_same (hu.store hi hj hstore)⟩
  | @trap h c r r' s hcurrent hcall =>
    have htasks := (saveRegisters_frame u.harts.sys (u.harts.current h) (u.regs h)).2.2.2.2.2
    have hmmu : ∀ j, (s.tasks j).mmuData = (u.harts.sys.tasks j).mmuData := by
      intro j
      rcases hu.trap hcurrent hcall with ⟨_, n, _, _, _, hsw⟩ | ⟨_, i, _, _, _, rfl⟩
      · exact (hsw.mmuData j).trans (htasks j).2.2
      · exact ((@afterCall_frame T c i (u.entered h)).2.2.1 j).trans (htasks j).2.2
    have hroots : ∀ j, UserMachine.root ⟨⟨s, Function.update u.harts.current h r'⟩, u.mem,
        Function.update u.regs h ⟨(s.trap r').xs, (s.trap r').pc⟩⟩ j = u.root j := by
      intro j
      rw [UserMachine.root, UserMachine.root, hmmu j]
    exact ⟨hroots, fun j _ => by rw [UserMachine.map, UserMachine.map, hroots j],
      fun j _ p => by rw [hroots j]⟩

/-- **Every step** keeps the invariant. -/
theorem UserMachine.Inv.step (hu : u.Inv T) {e : UserEvent} (hstep : UserStep P u e t) :
    t.Inv T := by
  have hwalls := (hu.maps hstep).walls hu.walls
  cases hstep with
  | user hc hexec hstore => exact ⟨hu.scheduled, hu.fits, hu.satp, hwalls⟩
  | @trap h c r r' s hcurrent hcall =>
    obtain ⟨_, _, _, hsatp, _, htasks⟩ :=
      saveRegisters_frame u.harts.sys (u.harts.current h) (u.regs h)
    rcases hu.trap hcurrent hcall with ⟨_, n, hn, _, rfl, hsw⟩ | ⟨_, i, hi, rfl, rfl, rfl⟩
    · have hmmu : ∀ j, (s.tasks j).mmuData = (u.harts.sys.tasks j).mmuData := fun j =>
        (hsw.mmuData j).trans (htasks j).2.2
      have hsatp' : s.satp = if r = .task n then u.harts.sys.satp else
          Function.update u.harts.sys.satp h
            (setMmu (u.harts.sys.tasks n).mmuData (u.harts.sys.satp h)) := by
        have hdata : ((u.entered h).tasks n).mmuData = (u.harts.sys.tasks n).mmuData :=
          (htasks n).2.2
        have hold : (u.entered h).satp = u.harts.sys.satp := hsatp
        rw [hsw.satp, hold, hdata]
      refine ⟨hsw.scheduled, fun h' => ?_, fun h' j hc => ?_, hwalls⟩
      · by_cases hh : h' = h
        · subst hh
          simp only [Function.update_self]
          exact Or.inr ⟨n, hn, rfl⟩
        · simp only [Function.update_of_ne hh]
          exact hu.fits h'
      · dsimp only at hc ⊢
        rw [hmmu j, hsatp']
        by_cases hh : h' = h
        · subst hh
          rw [Function.update_self, TrapRef.task.injEq] at hc
          subst hc
          split
          · rename_i hown
            exact hu.satp h' n (hcurrent.trans hown)
          · obtain ⟨hpos, haligned, hlt⟩ := hu.scheduled.roots n hn
            rw [Function.update_self]
            exact getMmu_setMmu hpos haligned hlt _
        · rw [Function.update_of_ne hh] at hc
          split
          · exact hu.satp h' j hc
          · rw [Function.update_of_ne hh]
            exact hu.satp h' j hc
    · obtain ⟨_, hsatp', hmmu', hsched⟩ := @afterCall_frame T c i (u.entered h)
      have hcur := update_current hcurrent
      refine ⟨hsched (hu.scheduled.saveRegisters _ _), ?_, ?_, hwalls⟩
      · intro h'
        dsimp only
        rw [hcur]
        exact hu.fits h'
      · intro h' j hc'
        dsimp only at hc' ⊢
        rw [hcur] at hc'
        have hsame := congrArg getMmu (congrFun (hsatp'.trans hsatp) h')
        exact (hsame.trans (hu.satp h' j hc')).trans ((hmmu' j).trans (htasks j).2.2).symm

/-- A timer is always survived. -/
theorem UserMachine.Inv.timer (hu : u.Inv T) (h : Nat) :
    ∃ t n, n < T ∧ u.harts.sys.next = n ∧ UserStep P u (.trap h (u.harts.current h) .timer) t ∧
      t.harts.current = Function.update u.harts.current h (.task n) ∧ t.mem = u.mem ∧
      t.harts.sys.next = ((n + 1) % T : Nat) := by
  have hs := hu.scheduled.saveRegisters (u.harts.current h) (u.regs h)
  obtain ⟨n, hn, hnext⟩ := hs.next
  obtain ⟨s, hcall, hsw⟩ := timerSwitch_spec hs hn hnext (hu.fits h)
  have hkept := (saveRegisters_frame u.harts.sys (u.harts.current h) (u.regs h)).2.1
  refine ⟨_, n, hn, hkept.symm.trans hnext, .trap rfl ?_, rfl, rfl, hsw.next⟩
  rw [interruptHandler]
  exact hcall

end Steps

/-! ## 6. Memory over a run -/

section Runs

variable {T : Nat} {u t : UserMachine} {P : Processor}

theorem UserMachine.Inv.run (hu : u.Inv T) {es : List UserEvent} (hrun : Run (UserStep P) u es t) :
    t.Inv T :=
  @Run.invariant _ _ _ (UserMachine.Inv T) (fun _ _ _ h hstep => h.step hstep) _ _ _ hrun hu

/-- Every task reaches what it reached. -/
theorem UserMachine.Inv.map_kept (hu : u.Inv T) {es : List UserEvent}
    (hrun : Run (UserStep P) u es t) {i : Nat} (hi : i < T) : t.map i = u.map i := by
  induction hrun with
  | nil u => rfl
  | cons hstep _ ih => rw [ih (hu.step hstep), (hu.maps hstep).maps i hi]

end Runs

/-! ## 7. Two tasks, each with a gigabyte -/

/-- Task `i` sees physical gigabyte `i + 1` at its own address, and nothing else; `c` is the first byte
    of the gigabyte of task 1. -/
def roomsMem (c : UInt8) : Mem :=
  Function.update (store (store (fun _ => 0) 8 4104 0x10000017) 8 8200 0x20000017) 0x80000000 c

def rooms (c : UInt8) : UserMachine := ⟨.kinit 2, roomsMem c, fun _ => ⟨fun _ => 0#64, 0#64⟩⟩

/-- A program that counts in its first byte. -/
def countUp : Processor := fun g view =>
  (view 0x40000000).map fun x => (⟨g.xs, g.pc + 4#64⟩, [(0x40000000, x.1 + 1)])

section Rooms

variable {c : UInt8} {n : Nat}

theorem rooms_cells (hn : n = 1 ∨ n = 2) (i : Fin 512) :
    cells (roomsMem c) n i = if i = 1 then BitVec.ofNat 64 (n * 0x10000000 + 0x17) else 0#64 := by
  have hi := i.isLt
  have hstep : load (roomsMem c) 8 (4096 * n + 8 * i) =
      load (store (store (fun _ => 0) 8 4104 0x10000017) 8 8200 0x20000017) 8 (4096 * n + 8 * i) := by
    refine load_congr fun x _ _ => Function.update_of_ne ?_ _ _
    omega
  have hone : i = 1 ↔ (i : Nat) = 1 := Fin.ext_iff
  rw [cells, hstep]
  by_cases hi1 : (i : Nat) = 1
  · rw [if_pos (hone.mpr hi1), hi1]
    rcases hn with rfl | rfl
    · rw [load_store_disjoint _ _ (by omega), load_store_same]
      rfl
    · rw [load_store_same]
      rfl
  · rw [if_neg fun h => hi1 (hone.mp h)]
    rw [load_store_disjoint _ _ (by omega), load_store_disjoint _ _ (by omega),
      load_of_zero fun _ _ _ => rfl]

theorem rooms_tables (hn : n = 1 ∨ n = 2) {p : Nat} (h : IsTable (roomsMem c) n p) : p = n := by
  obtain ⟨π, _, hπ⟩ := h
  cases π with
  | nil => exact (Option.some.inj hπ).symm
  | cons i π =>
    have hleaf : childTable (cells (roomsMem c) n i) = none := by
      rw [rooms_cells hn]
      split
      · rcases hn with rfl | rfl
        · decide
        · decide
      · decide
    unfold tableAt nodeAt at hπ
    rw [hleaf] at hπ
    cases hπ

theorem rooms_denote (hn : n = 1 ∨ n = 2) (v : PageNumber) :
    denote (roomsMem c) n v =
      if v.vpn0 = 1 then some ⟨n * 0x40000 + superpageOffset [v.vpn1, v.vpn2], 0x17#64⟩ else none := by
  by_cases hv : v.vpn0 = 1
  · rw [if_pos hv]
    have hcell := rooms_cells (c := c) hn v.vpn0
    rw [if_pos hv] at hcell
    have hleaf := @translate_frame (roomsMem c) n v.vpn0
    rw [hcell] at hleaf
    rcases hn with rfl | rfl
    · exact hleaf (by decide) (by decide) [v.vpn1, v.vpn2]
    · exact hleaf (by decide) (by decide) [v.vpn1, v.vpn2]
  · rw [if_neg hv]
    have hcell := rooms_cells (c := c) hn v.vpn0
    rw [if_neg hv] at hcell
    have hinvalid : mmuEntryValid (cells (roomsMem c) n v.vpn0) = false := by
      rw [hcell]
      decide
    exact if_pos hinvalid

theorem rooms_root {i : Nat} (hi : i < 2) :
    (rooms c).root i = i + 1 ∧ (i + 1 = 1 ∨ i + 1 = 2) :=
  ⟨Nat.mul_div_cancel_left (i + 1) (by decide), by omega⟩

theorem rooms_frame {i : Nat} (hi : i < 2) {v : PageNumber} {p : Nat}
    (hv : UserFrame (rooms c).mem ((rooms c).root i) v p) :
    v.vpn0 = 1 ∧ p = (i + 1) * 0x40000 + (v.vpn1 * 512 + v.vpn2) := by
  obtain ⟨hroot, hn⟩ := @rooms_root c i hi
  obtain ⟨x, hx, _, rfl⟩ := hv
  rw [hroot] at hx
  have hd := hx.symm.trans (rooms_denote hn v)
  split at hd
  · rename_i hv1
    obtain rfl := Option.some.inj hd
    exact ⟨hv1, by simp [superpageOffset]⟩
  · cases hd

theorem rooms_walls : (rooms c).Walls 2 := by
  constructor
  · intro i hi j hj v w p hv hw
    obtain ⟨hv1, hp⟩ := rooms_frame hi hv
    obtain ⟨hw1, hp'⟩ := rooms_frame hj hw
    obtain ⟨v0, v1, v2⟩ := v
    obtain ⟨w0, w1, w2⟩ := w
    have := v1.isLt
    have := w1.isLt
    have := v2.isLt
    have := w2.isLt
    simp only [PageNumber.mk.injEq, Fin.ext_iff]
    dsimp only at hv1 hw1 hp hp'
    rw [hv1, hw1]
    omega
  · intro i hi j hj v p hv ht
    obtain ⟨_, hp⟩ := rooms_frame hi hv
    obtain ⟨hroot, hn⟩ := @rooms_root c j hj
    rw [hroot] at ht
    have := rooms_tables hn ht
    omega

theorem rooms_access (hn : n = 1 ∨ n = 2) :
    userAccess (denote (roomsMem c) n) 0x40000000 = some (n * 0x40000000, permissions 0x17#64) := by
  have hcanonical : Canonical 0x40000000 := by decide
  rw [userAccess, if_pos hcanonical, rooms_denote hn]
  rcases hn with rfl | rfl
  · decide
  · decide

theorem rooms_inv : (rooms c).Inv 2 :=
  (Harts.kinit_leaves (by decide) (by decide)).userInv rooms_walls

/-- A step of a task that counts. -/
theorem UserMachine.Inv.countUp {u : UserMachine} {T h i x : Nat} {perm : Word} (hu : u.Inv T)
    (hc : u.harts.current h = .task i)
    (haccess : userAccess (u.map i) 0x40000000 = some (x, perm))
    (hwrite : mmuEntryWrite perm = true) :
    UserStep IloPali.countUp u (.user h i)
      ⟨u.harts, Function.update u.mem x (u.mem x + 1),
        Function.update u.regs h ⟨(u.regs h).xs, (u.regs h).pc + 4#64⟩⟩ := by
  have hreached := hu.reached hc
  apply UserStep.user hc
  · rw [IloPali.countUp, hreached, userView, haccess]
    rfl
  · rw [hreached, userStore, haccess]
    dsimp only
    rw [if_pos hwrite]
    rfl

/-- Both harts start their tasks. -/
theorem rooms_start (P : Processor) : ∃ t,
    Run (UserStep P) (rooms c) [.trap 0 (.hart 0) .timer, .trap 1 (.hart 1) .timer] t ∧
      t.harts.current 0 = .task 0 ∧ t.harts.current 1 = .task 1 ∧ t.mem = roomsMem c := by
  obtain ⟨t, n, _, hnext, hstep, hcur, hmem, hnext'⟩ := (@rooms_inv c).timer (P := P) 0
  obtain rfl : n = 0 := by
    have h0 : (rooms c).harts.sys.next = 0 := rfl
    omega
  obtain ⟨v, n, _, hnextn, hstep', hcur', hmem', _⟩ := (rooms_inv.step hstep).timer (P := P) 1
  obtain rfl : n = 1 := by omega
  have hidle : t.harts.current 1 = .hart 1 := by
    rw [hcur]
    rfl
  rw [hidle] at hstep'
  refine ⟨v, .cons hstep (.cons hstep' (.nil v)), ?_, ?_, hmem'.trans hmem⟩
  · rw [hcur', hcur]
    rfl
  · rw [hcur']
    rfl

/-- Task `i` counts on hart `i`, wherever a run from the start has led. -/
theorem rooms_count {es : List UserEvent} {t : UserMachine} {i : Nat} (hi : i < 2)
    (hrun : Run (UserStep countUp) (rooms c) es t) (hc : t.harts.current i = .task i) :
    ∃ v, UserStep countUp t (.user i i) v ∧ v.harts = t.harts := by
  obtain ⟨hroot, hn⟩ := @rooms_root c i hi
  have hmap : t.map i = denote (roomsMem c) (i + 1) := by
    rw [rooms_inv.map_kept hrun hi, UserMachine.map, hroot]
    rfl
  have hfirst := rooms_access (c := c) hn
  rw [← hmap] at hfirst
  exact ⟨_, (rooms_inv.run hrun).countUp hc hfirst (by decide), rfl⟩

end Rooms

/-! ## 8. What tasks do to memory -/

/-- What concerns task `j` is the same in two states: where it runs, its turn, its registers, what its
    addresses stand for and the bytes there. -/
structure Alike (j : Nat) (u u' : UserMachine) : Prop where
  current : u'.harts.current = u.harts.current
  next : u'.harts.sys.next = u.harts.sys.next
  saved : u'.harts.sys.registers j = u.harts.sys.registers j
  regs : ∀ h, u.harts.current h = .task j → u'.regs h = u.regs h
  map : u'.map j = u.map j
  bytes : ∀ addr x perm, userAccess (u.map j) addr = some (x, perm) → u'.mem x = u.mem x

section Alike

variable {T j : Nat} {u u' v t t' : UserMachine} {P : Processor}

theorem Alike.symm (h : Alike j u u') : Alike j u' u := by
  refine ⟨h.current.symm, h.next.symm, h.saved.symm, fun k hk => ?_, h.map.symm, ?_⟩
  · rw [h.current] at hk
    exact (h.regs k hk).symm
  · intro addr x perm hx
    rw [h.map] at hx
    exact (h.bytes addr x perm hx).symm

theorem Alike.trans (h : Alike j u u') (h' : Alike j u' v) : Alike j u v := by
  refine ⟨h'.current.trans h.current, h'.next.trans h.next, h'.saved.trans h.saved,
    fun k hk => ?_, h'.map.trans h.map, ?_⟩
  · rw [h'.regs k (h.current ▸ hk), h.regs k hk]
  · intro addr x perm hx
    have hx' := hx
    rw [← h.map] at hx'
    rw [h'.bytes addr x perm hx', h.bytes addr x perm hx]

/-- What the task sees of memory. -/
theorem Alike.view (h : Alike j u u') :
    userView (u'.map j) u'.mem = userView (u.map j) u.mem := by
  funext addr
  rw [userView, userView, h.map]
  apply Option.map_congr
  rintro ⟨x, perm⟩ hx
  dsimp only
  rw [h.bytes addr x perm hx]

/-- The registers that a trap leaves to the task that it came from. -/
def Cause.registers (c : Cause) (g : Registers) : Registers :=
  if c = .environmentCall then ⟨g.xs, g.pc + 4#64⟩ else g

theorem Switched.registers {h n : Nat} {r : TrapRef} {s s' : System} (hsw : Switched T h r n s s')
    (i : Nat) : s'.registers i = s.registers i := by
  by_cases hi : i = n
  · subst hi
    rw [System.registers, System.registers, hsw.trap]
  · rw [System.registers, System.registers, hsw.other i hi]

section Trap

variable {h : Nat} {c : Cause} {r r' : TrapRef} {s : System}

theorem UserMachine.Inv.trap_registers (hu : u.Inv T) (hcurrent : u.harts.current h = r)
    (hcall : interruptHandler h c r (u.entered h) = .ok (r', s)) :
    s.registers j = if r = .task j then c.registers (u.regs h) else u.harts.sys.registers j := by
  have hentered := saveRegisters_registers u.harts.sys r (u.regs h) j
  have heq : u.entered h = u.harts.sys.saveRegisters r (u.regs h) := by
    rw [UserMachine.entered, hcurrent]
  rw [← heq] at hentered
  rcases hu.trap hcurrent hcall with ⟨rfl, n, _, _, _, hsw⟩ | ⟨hc, i, _, rfl, _, rfl⟩
  · rw [hsw.registers, hentered]
    rfl
  · rw [afterCall, Cause.registers]
    split
    · rw [skipCall_registers, hentered]
      by_cases hij : i = j
      · simp [hij]
      · simp [hij]
    · exact hentered

theorem UserMachine.Inv.trap_turn (hu : u.Inv T) (hcurrent : u.harts.current h = r)
    (hcall : interruptHandler h c r (u.entered h) = .ok (r', s)) :
    ∃ i, r' = .task i ∧ (c = .timer → u.harts.sys.next = i ∧ s.next = ((i + 1) % T : Nat)) ∧
      (c ≠ .timer → r = .task i ∧ s.next = u.harts.sys.next) := by
  rcases hu.trap hcurrent hcall with ⟨rfl, n, _, hnext, rfl, hsw⟩ | ⟨hc, i, _, rfl, rfl, rfl⟩
  · exact ⟨n, rfl, fun _ => ⟨hnext, hsw.next⟩, fun hne => absurd rfl hne⟩
  · refine ⟨i, rfl, fun htimer => absurd htimer hc, fun _ => ⟨rfl, ?_⟩⟩
    rw [(@afterCall_frame T c i (u.entered h)).1]
    exact (saveRegisters_frame u.harts.sys (u.harts.current h) (u.regs h)).2.1

end Trap

/-- What does not concern the task leaves what it sees as it is. -/
theorem UserMachine.Inv.unseen (hu : u.Inv T) (hj : j < T) {e : UserEvent}
    (hstep : UserStep P u e t) (he : e.concerns j = false) : Alike j u t := by
  have hmap := (hu.maps hstep).maps j hj
  cases hstep with
  | @user h i r bytes m hc hexec hstore =>
    have hij : i ≠ j := by simpa [UserEvent.concerns] using he
    refine ⟨rfl, rfl, rfl, fun k hk => ?_, hmap, fun addr x perm hx => ?_⟩
    · apply Function.update_of_ne
      rintro rfl
      exact hij (TrapRef.task.inj (hc.symm.trans hk))
    · rw [hu.reached hc] at hstore
      apply userStore_outside hstore
      rintro ⟨addr', perm', hx', _⟩
      exact hij (hu.walls.frames i (hu.lt hc) j hj _ _ _ (userAccess_frame hx')
        (userAccess_frame hx)).1
  | @trap h c r r' s hcurrent hcall =>
    obtain ⟨htimer, hrj⟩ : c ≠ .timer ∧ r ≠ .task j := by simpa [UserEvent.concerns] using he
    obtain ⟨i, rfl, _, hturn⟩ := hu.trap_turn hcurrent hcall
    obtain ⟨rfl, hnext⟩ := hturn htimer
    have hcur := update_current hcurrent
    refine ⟨hcur, hnext, ?_, fun k hk => ?_, hmap, fun _ _ _ _ => rfl⟩
    · exact (hu.trap_registers hcurrent hcall).trans (if_neg hrj)
    · apply Function.update_of_ne
      rintro rfl
      exact hrj (hcurrent.symm.trans hk)

/-- What concerns the task does the same to it in states that are alike. -/
theorem UserMachine.Inv.seen (hu : u.Inv T) (hu' : u'.Inv T) (hj : j < T) (hsame : Alike j u u')
    {e : UserEvent} (he : e.concerns j = true) (hstep : UserStep P u e t)
    (hstep' : UserStep P u' e t') : Alike j t t' := by
  have hmap := (hu.maps hstep).maps j hj
  have hmap' := (hu'.maps hstep').maps j hj
  have hboth := hmap'.trans (hsame.map.trans hmap.symm)
  have hbytes : ∀ addr x perm, userAccess (t.map j) addr = some (x, perm) →
      u'.mem x = u.mem x := by
    intro addr x perm hx
    rw [hmap] at hx
    exact hsame.bytes addr x perm hx
  cases hstep with
  | @user h i r bytes m hc hexec hstore =>
    cases hstep' with
    | @user _ _ r' bytes' m' hc' hexec' hstore' =>
      obtain rfl : i = j := by simpa [UserEvent.concerns] using he
      rw [hu.reached hc] at hexec hstore
      rw [hu'.reached hc', hsame.view, hsame.regs h hc, hexec] at hexec'
      obtain ⟨rfl, rfl⟩ := Prod.mk.inj (Option.some.inj hexec')
      rw [hu'.reached hc', hsame.map] at hstore'
      refine ⟨hsame.current, hsame.next, hsame.saved, fun k hk => ?_, hboth, ?_⟩
      · dsimp only
        by_cases hkh : k = h
        · subst hkh
          rw [Function.update_self, Function.update_self]
        · rw [Function.update_of_ne hkh, Function.update_of_ne hkh]
          exact hsame.regs k hk
      · intro addr x perm hx
        exact userStore_alike hstore hstore' (hbytes addr x perm hx)
  | @trap h c r r' s hcurrent hcall =>
    cases hstep' with
    | @trap _ _ _ r'' s' hcurrent' hcall' =>
      obtain ⟨i, rfl, htimer, hother⟩ := hu.trap_turn hcurrent hcall
      obtain ⟨i', rfl, htimer', hother'⟩ := hu'.trap_turn hcurrent' hcall'
      have hregs := hu.trap_registers (j := j) hcurrent hcall
      have hregs' := hu'.trap_registers (j := j) hcurrent' hcall'
      have hsaved : s'.registers j = s.registers j := by
        rw [hregs, hregs', hsame.saved]
        split
        · rename_i hrj
          rw [hsame.regs h (hcurrent.trans hrj)]
        · rfl
      -- the same task goes on
      obtain ⟨rfl, hnext⟩ : i = i' ∧ s'.next = s.next := by
        by_cases hc : c = .timer
        · obtain ⟨hi, hn⟩ := htimer hc
          obtain ⟨hi', hn'⟩ := htimer' hc
          have hii : i = i' := by
            have := hi.symm.trans (hsame.next.symm.trans hi')
            omega
          subst hii
          exact ⟨rfl, hn'.trans hn.symm⟩
        · obtain ⟨hi, hn⟩ := hother hc
          obtain ⟨hi', hn'⟩ := hother' hc
          exact ⟨TrapRef.task.inj (hi.symm.trans hi'), hn'.trans (hsame.next.trans hn.symm)⟩
      refine ⟨?_, hnext, hsaved, fun k hk => ?_, hboth, hbytes⟩
      · dsimp only
        rw [hsame.current]
      · dsimp only at hk ⊢
        by_cases hkh : k = h
        · subst hkh
          rw [Function.update_self, TrapRef.task.injEq] at hk
          subst hk
          rw [Function.update_self, Function.update_self]
          exact hsaved
        · rw [Function.update_of_ne hkh] at hk
          rw [Function.update_of_ne hkh, Function.update_of_ne hkh]
          exact hsame.regs k hk

end Alike

end IloPali
