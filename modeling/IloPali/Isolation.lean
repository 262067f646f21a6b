import IloPali.KernelProtection

/-!
# Isolation of user memory

Tasks are loaded one after the other.  The tables and the user pages of each were free before its
call and are neither of the heap nor of any other task, and the calls that follow write none of
them.  So no frame that user code sees is seen twice, and none holds a page table.
-/

namespace IloPali

open ByteMemory Transition

/-! ## 1. Loading one task after the other -/

/-- What user code sees at `v` is page `p`. -/
def UserFrame (m : Mem) (ρ : Nat) (v : PageNumber) (p : Nat) : Prop :=
  ∃ x, denote m ρ v = some x ∧ mmuEntryUser x.flags = true ∧ x.page = p

/-- The machine, with what is known of its heap, and the tasks that were loaded. -/
structure Spawner where
  sys : System
  trace : HeapTrace
  pids : List Nat

namespace Spawner

abbrev mem (s : Spawner) : Mem := s.trace.heap.kernel.mem

/-- The page of the root of the table of a task. -/
def root (s : Spawner) (pid : Nat) : Nat := (s.sys.tasks pid).mmuData / PAGE_SIZE

/-- **Isolation.**  No frame is seen by two tasks, or twice by one, and none is a page table of a
    task. -/
structure Isolated (s : Spawner) : Prop where
  frames : ∀ pid ∈ s.pids, ∀ pid' ∈ s.pids, ∀ v v' p, UserFrame s.mem (s.root pid) v p →
    UserFrame s.mem (s.root pid') v' p → pid = pid' ∧ v = v'
  tables : ∀ pid ∈ s.pids, ∀ pid' ∈ s.pids, ∀ v p, UserFrame s.mem (s.root pid) v p →
    ¬ IsTable s.mem (s.root pid') p

end Spawner

/-- The arguments of `spawn_task_from_elf`. -/
structure SpawnCall where
  header : Nat
  stackSize : Nat
  args : List (List UInt8)
  origin : Nat

/-- A call that returns a task, and in which no page allocation fails. -/
def SpawnStep (L : Layout) (s : Spawner) (c : SpawnCall) (t : Spawner) : Prop :=
  ∃ pid sys' h', spawnTaskFromElf L c.header c.stackSize c.args c.origin s.sys s.trace.heap =
      (some pid, sys', h') ∧
    h'.kernel.failed = s.trace.heap.kernel.failed ∧
    t = ⟨sys', { s.trace.spawned L c.stackSize c.args c.origin
      (spawnTask L pid c.header c.stackSize c.args c.origin s.trace.heap) with heap := h' },
      pid :: s.pids⟩

/-- `malloc` has a block of the size of the argument vector. -/
def SpawnHolds (L : Layout) (s : Spawner) (c : SpawnCall) : Prop :=
  s.trace.Holds L (8 * c.args.length)

/-- Nothing has been loaded yet, the heap is as `malloc` and `free` keep it, and where the first task
    is still to come, the kernel is ready for it. -/
def Spawner.Initial (L : Layout) (s : Spawner) : Prop :=
  s.pids = [] ∧ ∃ rs free, UseInv L s.trace rs free ∧
    ((s.sys.tasks 0).state = .dead → Ready L s.trace rs free 0)

/-! ## 2. The pages of a task -/

/-- The table at `ρ` is a tree, and each of its user pages is a page of its own.  None of these pages
    is one of the pages `H` of the heap. -/
structure UserTable (L : Layout) (H : Nat → Prop) (k : Kernel) (ρ : Nat) : Prop where
  tree : Tree L k ρ
  notHeap : ∀ n, IsTable k.mem ρ n → ¬ H n
  user : ∀ v, mmuEntryUser (leaf k.mem ρ v) = true → ∃ p, entryPhys (leaf k.mem ρ v) = 4096 * p ∧
    OwnedPage L k p ∧ ¬ H p ∧ ¬ IsTable k.mem ρ p
  once : ∀ v v', mmuEntryUser (leaf k.mem ρ v) = true → mmuEntryUser (leaf k.mem ρ v') = true →
    entryPhys (leaf k.mem ρ v) = entryPhys (leaf k.mem ρ v') → v = v'

/-- Page `n` is a table or a user page of the table at `ρ`. -/
def Uses (m : Mem) (ρ n : Nat) : Prop :=
  IsTable m ρ n ∨ ∃ v, mmuEntryUser (leaf m ρ v) = true ∧ entryPhys (leaf m ρ v) = 4096 * n

section Pages

variable {L : Layout} (hL : L.WellFormed) {H : Nat → Prop} {ρ : Nat} {k k' : Kernel}

/-- The frames that user code sees are those of the entries of the last level. -/
theorem userFrame_leaf (hT : Tree L k ρ) {v : PageNumber} {p : Nat}
    (h : UserFrame k.mem ρ v p) :
    mmuEntryUser (leaf k.mem ρ v) = true ∧ entryPhys (leaf k.mem ρ v) = 4096 * p := by
  obtain ⟨x, hx, huser, rfl⟩ := h
  rcases Nat.lt_or_ge v.vpn0.val 256 with hlow | hhigh
  · rw [denote_lower hT hlow] at hx
    unfold mappingOf at hx
    split at hx
    · obtain rfl := Option.some.inj hx
      constructor
      · rw [← huser]
        exact mmuEntryUser_congr (by rw [BitVec.and_assoc, BitVec.and_self])
      · have haligned := entryPhys_aligned (leaf k.mem ρ v)
        dsimp only
        omega
    · exact nomatch hx
  · rw [denote_upper hT hhigh] at hx
    rw [directMap_flags hx] at huser
    exact absurd huser (by decide)

theorem UserTable.uses_owned (h : UserTable L H k ρ) {n : Nat} (hn : Uses k.mem ρ n) :
    OwnedPage L k n ∧ ¬ H n := by
  rcases hn with ht | ⟨v, huser, hphys⟩
  · exact ⟨h.tree.isTable_owned ht, h.notHeap n ht⟩
  · obtain ⟨p, hp, howned, hheap, _⟩ := h.user v huser
    obtain rfl : p = n := by omega
    exact ⟨howned, hheap⟩

/-- **A table that is not written** stays what it was. -/
theorem UserTable.frame (h : UserTable L H k ρ) {W H' : Nat → Prop} (hF : Frame L W k k')
    (hW : ∀ n, Uses k.mem ρ n → ¬ W n) (hH : ∀ n, H' n → H n ∨ FreePage L k n) :
    UserTable L H' k' ρ ∧ ∀ n, Uses k'.mem ρ n ↔ Uses k.mem ρ n := by
  have hWt : ∀ n, IsTable k.mem ρ n → ¬ W n := fun n hn => hW n (Or.inl hn)
  have hleaf := h.tree.frame_leaf hF hWt
  have htable := h.tree.frame_isTable hF hWt
  have hnot : ∀ n, OwnedPage L k n → ¬ H n → ¬ H' n := by
    intro n howned hn hn'
    rcases hH n hn' with hold | hfree
    · exact hn hold
    · exact howned.not_free hfree
  refine ⟨⟨h.tree.frame hF hWt, fun n hn => ?_, fun v hv => ?_, fun v v' hv hv' heq => ?_⟩,
    fun n => ?_⟩
  · rw [htable] at hn
    exact hnot n (h.tree.isTable_owned hn) (h.notHeap n hn)
  · rw [hleaf] at hv ⊢
    obtain ⟨p, hp, howned, hheap, hno⟩ := h.user v hv
    refine ⟨p, hp, hF.owned howned, hnot p howned hheap, ?_⟩
    rwa [htable]
  · rw [hleaf] at hv heq
    rw [hleaf] at hv' heq
    exact h.once v v' hv hv' heq
  · unfold Uses
    simp only [htable, hleaf]

end Pages

/-! ## 3. The pages of a new task -/

section NewTask

variable {L : Layout} (hL : L.WellFormed) {s : HeapTrace} {rs rs' : List PageRun}
  {free free' : SizeClass → List Nat} {pid stackSize : Nat} {args : List (List UInt8)}
  {origin ρ : Nat} {p : LoadedTask}
include hL

omit hL in
/-- The user pages of a new task are those of the loader. -/
theorem Spawns.taskPage (h : Spawns L s rs rs' free free' pid stackSize args origin ρ p)
    {v : PageNumber} (huser : mmuEntryUser (leaf p.args.load.kernel.mem ρ v) = true) :
    ∃ flags q, TaskPage L (HeapPage L rs') ρ p.table p.args.load.kernel v flags q := by
  rcases h.inv.working.loading.leaves v with hleaf | hpage
  · rw [hleaf, h.table.noUser v] at huser
    exact nomatch huser
  · exact hpage

theorem Spawns.userTable (h : Spawns L s rs rs' free free' pid stackSize args origin ρ p) :
    UserTable L (HeapPage L rs') p.args.load.kernel ρ := by
  have hload := h.inv.working.loading
  refine ⟨hload.tree, fun n hn hheap => (hload.heap n hheap).2 hn, fun v hv => ?_,
    fun v v' hv hv' heq => ?_⟩
  · obtain ⟨flags, q, hq⟩ := h.taskPage hv
    exact ⟨q, hq.entryPhys_eq hL, hq.owned, hq.notHeap, hq.notTable⟩
  · obtain ⟨_, _, hq⟩ := h.taskPage hv
    obtain ⟨_, _, hq'⟩ := h.taskPage hv'
    exact hload.apart v v' (hq.added hL) (hq'.added hL) heq

/-- All of its pages were free, unless it is the first task. -/
theorem Spawns.uses_free (h : Spawns L s rs rs' free free' pid stackSize args origin ρ p)
    (hpid : pid ≠ 0) {n : Nat} (hn : Uses p.args.load.kernel.mem ρ n) :
    FreePage L s.heap.kernel n := by
  have hload := h.inv.working.loading
  rcases hn with ht | ⟨v, huser, hphys⟩
  · rcases hload.tables n ht with hnew | hfree
    · exact h.table.new hpid n hnew
    · exact h.table.frame.free hfree
  · obtain ⟨_, q, hq⟩ := h.taskPage huser
    have heq := hq.entryPhys_eq hL
    obtain rfl : q = n := by omega
    exact h.table.frame.free hq.free

omit hL in
/-- What the call writes of the pages in use: the heap and page 0, and for the first task the table in
    force. -/
theorem Spawns.frame (h : Spawns L s rs rs' free free' pid stackSize args origin ρ p) :
    Frame L (fun n => pid = 0 ∨ HeapPage L rs n ∨ n = 0) s.heap.kernel p.args.load.kernel := by
  have htable : Frame L (fun n => pid = 0 ∨ HeapPage L rs n ∨ n = 0) s.heap.kernel p.table :=
    h.table.frame.mono fun _ hn => hn.elim
  apply htable.trans h.inv.working.loading.frame
  rintro n (ht | hheap | hzero)
  · by_cases hpid : pid = 0
    · exact Or.inl (Or.inl hpid)
    · exact Or.inr (h.table.new hpid n ht)
  · rcases h.new n hheap with hold | hfree
    · exact Or.inl (Or.inr (Or.inl hold))
    · exact Or.inr hfree
  · exact Or.inl (Or.inr (Or.inr hzero))

end NewTask

/-! ## 4. The invariant -/

theorem installTask_tasks (s : System) (pid : Nat) (p : Loaded) :
    ((installTask s pid p).tasks pid).state = .ready ∧
      ∀ pid', pid' ≠ pid → (installTask s pid p).tasks pid' = s.tasks pid' := by
  constructor
  · simp [installTask, scheduleTask_tasks, System.setTask]
  · intro pid' hne
    simp [installTask, scheduleTask_tasks, System.setTask, Function.update_of_ne hne]

/-- **The invariant of loading.**  No page is used by two tasks. -/
structure Spawner.Inv (L : Layout) (s : Spawner) (rs : List PageRun)
    (free : SizeClass → List Nat) : Prop where
  heap : UseInv L s.trace rs free
  first : (s.sys.tasks 0).state = .dead → s.pids = [] ∧ Ready L s.trace rs free 0
  live : ∀ pid ∈ s.pids, (s.sys.tasks pid).state ≠ .dead
  table : ∀ pid ∈ s.pids, UserTable L (HeapPage L rs) s.trace.heap.kernel (s.root pid)
  apart : ∀ pid ∈ s.pids, ∀ pid' ∈ s.pids, pid ≠ pid' → ∀ n,
    Uses s.mem (s.root pid) n → ¬ Uses s.mem (s.root pid') n

section Run

variable {L : Layout} (hL : L.WellFormed) {s t : Spawner} {c : SpawnCall}

theorem Spawner.Initial.inv (h : s.Initial L) : ∃ rs free, s.Inv L rs free := by
  obtain ⟨hpids, rs, free, hheap, hfirst⟩ := h
  refine ⟨rs, free, hheap, fun hdead => ⟨hpids, hfirst hdead⟩, ?_, ?_, ?_⟩
  all_goals
    rw [hpids]
    exact fun _ hmem => absurd hmem List.not_mem_nil

include hL

/-- **One call** keeps the invariant. -/
theorem Spawner.Inv.step {rs : List PageRun} {free : SizeClass → List Nat} (h : s.Inv L rs free)
    (hholds : SpawnHolds L s c) (hstep : SpawnStep L s c t) : ∃ rs' free', t.Inv L rs' free' := by
  obtain ⟨pid, sys', h', hspawn, hok, rfl⟩ := hstep
  obtain ⟨hslot, rfl, rfl⟩ := spawnTaskFromElf_some hspawn
  obtain ⟨_, hdead, hbelow⟩ := freeSlot_spec hslot
  have hready : Ready L s.trace rs free pid := by
    by_cases hpid : pid = 0
    · subst hpid
      exact (h.first hdead).2
    · exact ⟨h.heap, fun hzero => absurd hzero hpid⟩
  obtain ⟨ρ, rs', free', argsNew, k, hp⟩ :=
    spawnTask_prepares hL hready c.header c.stackSize c.args c.origin hholds hok
  have hs := hp.spawns hL
  have hkernel : (spawnTask L pid c.header c.stackSize c.args c.origin s.trace.heap).heap.kernel =
      (spawnTask L pid c.header c.stackSize c.args c.origin s.trace.heap).args.load.kernel := rfl
  have htop : (spawnTask L pid c.header c.stackSize c.args c.origin s.trace.heap).loaded.top =
      4096 * ρ := hs.root
  generalize spawnTask L pid c.header c.stackSize c.args c.origin s.trace.heap = p at *
  have hnew : pid ∉ s.pids := fun hmem => h.live pid hmem hdead
  have hempty : pid = 0 → s.pids = [] := fun hzero => (h.first (hzero ▸ hdead)).1
  obtain ⟨hstate, hothers⟩ := installTask_tasks s.sys pid p.loaded
  obtain ⟨_, _, hdata⟩ := installTask_args s.sys pid p.loaded
  have htrace : { s.trace.spawned L c.stackSize c.args c.origin p with heap := p.heap } =
      s.trace.spawned L c.stackSize c.args c.origin p := by
    rw [hs.heap]
  rw [htrace]
  set t : Spawner := ⟨installTask s.sys pid p.loaded, s.trace.spawned L c.stackSize c.args c.origin p,
    pid :: s.pids⟩
  have hmem : t.trace.heap.kernel = p.args.load.kernel := rfl
  have hroot : t.root pid = ρ := by
    show ((installTask s.sys pid p.loaded).tasks pid).mmuData / PAGE_SIZE = ρ
    rw [hdata, htop, root_page]
  have hsame : ∀ pid' ∈ s.pids, pid' ≠ pid ∧ t.root pid' = s.root pid' := by
    intro pid' hmem'
    have hne : pid' ≠ pid := fun heq => hnew (heq ▸ hmem')
    refine ⟨hne, ?_⟩
    show ((installTask s.sys pid p.loaded).tasks pid').mmuData / PAGE_SIZE = _
    rw [hothers pid' hne]
    rfl
  -- the tasks that were there keep their pages
  have hkeep : ∀ pid' ∈ s.pids, UserTable L (HeapPage L rs') t.trace.heap.kernel (s.root pid') ∧
      ∀ n, Uses t.mem (s.root pid') n ↔ Uses s.mem (s.root pid') n := by
    intro pid' hmem'
    have hold := h.table pid' hmem'
    refine hold.frame hs.frame ?_ hs.new
    rintro n hn (hzero | hheap | rfl)
    · rw [hempty hzero] at hmem'
      exact List.not_mem_nil hmem'
    · exact (hold.uses_owned hn).2 hheap
    · exact ((hold.uses_owned hn).1.addressable hL).1 rfl
  have hapart : ∀ pid' ∈ s.pids, ∀ n, Uses t.mem ρ n → ¬ Uses t.mem (s.root pid') n := by
    intro pid' hmem' n hn hn'
    have hpid : pid ≠ 0 := by
      intro hzero
      rw [hempty hzero] at hmem'
      exact List.not_mem_nil hmem'
    rw [(hkeep pid' hmem').2] at hn'
    exact ((h.table pid' hmem').uses_owned hn').1.not_free (hs.uses_free hL hpid hn)
  refine ⟨rs', free', hs.inv.working.heap, fun hzero => ?_, fun pid' hmem' => ?_, fun pid' hmem' => ?_,
    fun pid1 hmem1 pid2 hmem2 hne n hn hn' => ?_⟩
  · exfalso
    -- the slot of the first task has been taken, if not before then by this call
    rcases Nat.eq_zero_or_pos pid with rfl | hpos
    · exact absurd (hstate.symm.trans hzero) (by decide)
    · have hother := hothers 0 (Nat.ne_of_lt hpos)
      have hzero' : ((installTask s.sys pid p.loaded).tasks 0).state = .dead := hzero
      rw [hother] at hzero'
      exact hbelow 0 hpos hzero'
  · show ((installTask s.sys pid p.loaded).tasks pid').state ≠ .dead
    rcases List.mem_cons.mp hmem' with rfl | hmem'
    · rw [hstate]
      decide
    · rw [hothers pid' (hsame pid' hmem').1]
      exact h.live pid' hmem'
  · rcases List.mem_cons.mp hmem' with rfl | hmem'
    · rw [hroot]
      exact hs.userTable hL
    · rw [(hsame pid' hmem').2]
      exact (hkeep pid' hmem').1
  · rcases List.mem_cons.mp hmem1 with rfl | hold1
    · rcases List.mem_cons.mp hmem2 with rfl | hold2
      · exact hne rfl
      · rw [hroot] at hn
        rw [(hsame pid2 hold2).2] at hn'
        exact hapart pid2 hold2 n hn hn'
    · rw [(hsame pid1 hold1).2] at hn
      rcases List.mem_cons.mp hmem2 with rfl | hold2
      · rw [hroot] at hn'
        exact hapart pid1 hold1 n hn' hn
      · rw [(hsame pid2 hold2).2, (hkeep pid2 hold2).2] at hn'
        rw [(hkeep pid1 hold1).2] at hn
        exact h.apart pid1 hold1 pid2 hold2 hne n hn hn'

omit hL in
/-- What the invariant is for. -/
theorem Spawner.Inv.isolated {rs : List PageRun} {free : SizeClass → List Nat}
    (h : s.Inv L rs free) : s.Isolated := by
  constructor
  · intro pid hpid pid' hpid' v v' p hv hv'
    obtain ⟨huser, hphys⟩ := userFrame_leaf (h.table pid hpid).tree hv
    obtain ⟨huser', hphys'⟩ := userFrame_leaf (h.table pid' hpid').tree hv'
    by_cases heq : pid = pid'
    · subst heq
      exact ⟨rfl, (h.table pid hpid).once v v' huser huser' (hphys.trans hphys'.symm)⟩
    · exact absurd (Or.inr ⟨v', huser', hphys'⟩)
        (h.apart pid hpid pid' hpid' heq p (Or.inr ⟨v, huser, hphys⟩))
  · intro pid hpid pid' hpid' v p hv ht
    obtain ⟨huser, hphys⟩ := userFrame_leaf (h.table pid hpid).tree hv
    by_cases heq : pid = pid'
    · subst heq
      obtain ⟨q, hq, _, _, hno⟩ := (h.table pid hpid).user v huser
      obtain rfl : q = p := by omega
      exact hno ht
    · exact h.apart pid hpid pid' hpid' heq p (Or.inr ⟨v, huser, hphys⟩) (Or.inl ht)

end Run

/-- **User memory is isolated** after every sequence of calls that return a task, whatever the images, the
    stack sizes and the arguments are, where no page allocation fails and `malloc` has a block for
    each argument vector. -/
theorem user_isolation_when (L : Layout) (hL : L.WellFormed) (s t : Spawner) (cs : List SpawnCall)
    (h0 : s.Initial L) (hrun : Run (guarded (SpawnHolds L) (SpawnStep L)) s cs t) : t.Isolated := by
  obtain ⟨rs, free, hinv⟩ := h0.inv
  obtain ⟨rs', free', h⟩ := @Run.invariant _ _ _ (fun s => ∃ rs free, s.Inv L rs free)
    (fun s c t ⟨_, _, h⟩ ⟨hholds, hstep⟩ => h.step hL hholds hstep) _ _ _ hrun ⟨rs, free, hinv⟩
  exact h.isolated

/-! ## 5. A call for which the block is too small -/

/-- The walk ends at a frame, on whatever level it is. -/
theorem translate_frame {m : Mem} {n : Nat} {i : Fin 512} (hvalid : mmuEntryValid (cells m n i) = true)
    (hframe : mmuEntryFrame (cells m n i) = true) (vpns : List (Fin 512)) :
    translate m (i :: vpns) n =
      some ⟨entryPhys (cells m n i) / 4096 + superpageOffset vpns, cells m n i &&& MMU_ALL_BITS⟩ := by
  rw [translate, if_neg (by simp [hvalid]), if_pos hframe]

/-- The machine with `n` slots in use, where the first slot of the task table is taken. -/
def crowdedSpawner (n : Nat) : Spawner := ⟨twoSlots, slotsTrace n lowSegment, []⟩

def crowdedCall : SpawnCall := ⟨lowHeader, 1, manyArgs, 0⟩

def crowdedSpawned (n : Nat) : Spawner where
  sys := installTask twoSlots 1 (crowdedTask n).loaded
  trace := { (slotsTrace n lowSegment).spawned .small 1 manyArgs 0 (crowdedTask n) with
    heap := (crowdedTask n).heap }
  pids := [1]

section Crowded

variable {n : Nat}

theorem crowded_initial (h1 : 1 ≤ n) (hn : n ≤ 252) : (crowdedSpawner n).Initial .small := by
  refine ⟨rfl, _, _, slots_useInv lowSegment h1 hn, fun hdead => ?_⟩
  have hrunning : (twoSlots.tasks 0).state = .running := by decide
  exact absurd (hrunning.symm.trans hdead) (by decide)

theorem crowded_step (hn : n = 251 ∨ n = 252) :
    SpawnStep .small (crowdedSpawner n) crowdedCall (crowdedSpawned n) := by
  obtain ⟨_, hfailed, _, _⟩ := crowded_loadArgs hn
  exact ⟨1, _, _, crowded_spawn hn, hfailed, rfl⟩

end Crowded

theorem user_isolation_crowded : (crowdedSpawned 251).Isolated :=
  user_isolation_when .small Layout.small_wellFormed (crowdedSpawner 251) (crowdedSpawned 251)
    [crowdedCall] (crowded_initial (by decide) (by decide))
    (.cons ⟨crowded_holds, crowded_step (Or.inl rfl)⟩ (.nil _))

/-- **With the last slot of a region** for `args_new` the second entry of the root is the pointer to the
    fourteenth string, which reads as a frame of a gigabyte for user code.  The root itself lies in
    that frame. -/
theorem user_isolation_overrun : (crowdedSpawner 252).Initial .small ∧
    Run (SpawnStep .small) (crowdedSpawner 252) [crowdedCall] (crowdedSpawned 252) ∧
    ¬ (crowdedSpawned 252).Isolated := by
  have hn : 252 = 251 ∨ 252 = 252 := Or.inr rfl
  refine ⟨crowded_initial (by decide) (by decide), .cons (crowded_step hn) (.nil _), fun h => ?_⟩
  obtain ⟨_, _, hdata⟩ := installTask_args twoSlots 1 (crowdedTask 252).loaded
  have htop : (crowdedTask 252).loaded.top = 4096 * 0x80242 := (crowded_top hn).1
  have hroot : (crowdedSpawned 252).root 1 = 0x80242 := by
    show ((installTask twoSlots 1 (crowdedTask 252).loaded).tasks 1).mmuData / PAGE_SIZE = _
    rw [hdata, htop, root_page]
  have hcell : cells (crowdedSpawned 252).mem 0x80242 1 = 0x20000017#64 := by
    show cells (crowdedTask 252).heap.kernel.mem 0x80242 1 = _
    rw [crowded_root (by decide)]
    decide
  have hframe : UserFrame (crowdedSpawned 252).mem 0x80242 ⟨1, 1, 66⟩ 0x80242 := by
    have hleaf := @translate_frame (crowdedSpawned 252).mem 0x80242 1 (by rw [hcell]; decide)
      (by rw [hcell]; decide) [1, 66]
    rw [hcell] at hleaf
    exact ⟨⟨0x80242, 0x17#64⟩, hleaf.trans (by decide), by decide, rfl⟩
  have hmem : 1 ∈ (crowdedSpawned 252).pids := List.mem_singleton_self 1
  apply h.tables 1 hmem 1 hmem ⟨1, 1, 66⟩ 0x80242
  · rw [hroot]
    exact hframe
  · rw [hroot]
    exact isTable_root _ _

end IloPali
