import IloPali.AddressSpace
import IloPali.Loader

/-!
# The initial stack of a task

The stack is mapped from the rounded `max_page` on, and the stack pointer is computed from the
page behind it.  It ends up eight bytes below the highest page of the stack, so that page is
never used, and with one page there is no stack at all.
-/

namespace IloPali

/-! ## 1. What the stack should be -/

/-- The `i`-th page of the stack; those from `stack_size` on are for the arguments. -/
def LoadedTask.stackPage (t : LoadedTask) (i : Nat) : Nat := (t.image.maxPage + i * PAGE_SIZE) % 2 ^ 64

/-- `x` is the address of a byte of a `PT_LOAD` segment. -/
def SegmentByte (k : Kernel) (header x : Nat) : Prop :=
  ∃ index, index < programHeaderNum k header ∧ (getElfProgramHeader k header index).type = 1 ∧
    ∃ j, j < (getElfProgramHeader k header index).memorySize ∧
      x = ((getElfProgramHeader k header index).virtualAddr + j) % 2 ^ 64

/-- The number of pages that were used for the arguments. -/
def LoadedTask.argPages (t : LoadedTask) (stackSize : Nat) : Nat :=
  (t.args.lastVirtualPage + 2 ^ 64 - t.stackPage stackSize) % 2 ^ 64 / PAGE_SIZE

/-- The `stack_size` pages from `max_page` on are new and belong to the stack alone, and the
    stack pointer lies in the highest of them. -/
structure StackPrivate (header stackSize : Nat) (k : Kernel) (t : LoadedTask) (task : Task) :
    Prop where
  mapped : ∀ i, i < stackSize →
    denote t.image.kernel.mem (t.top / PAGE_SIZE) (getVpns (t.stackPage i)) = none ∧
    ∃ x, denote t.heap.kernel.mem (t.top / PAGE_SIZE) (getVpns (t.stackPage i)) = some x ∧
      permissions x.flags = STACK_FLAGS
  noSegment : ∀ i, i < stackSize → ∀ x, SegmentByte k header x →
    x / PAGE_SIZE ≠ t.stackPage i / PAGE_SIZE
  sp : (task.trap.xs 2).toNat / PAGE_SIZE = t.stackPage (stackSize - 1) / PAGE_SIZE
  args : ∀ j, j < t.argPages stackSize →
    (∀ i, i < stackSize → t.stackPage (stackSize + j) ≠ t.stackPage i) ∧
    ∀ x, SegmentByte k header x → x / PAGE_SIZE ≠ t.stackPage (stackSize + j) / PAGE_SIZE

/-- Every segment lies in the lower half and clear of the kernel's pages. -/
def ClearOfKernel (L : Layout) (k : Kernel) (header : Nat) : Prop :=
  ∀ x, SegmentByte k header x → x < DIRECT_MAP_SIZE ∧ ∀ r ∈ L.kernelRanges, ¬ PageMeets x r

/-! ## 2. Where the stack pointer lies -/

theorem roundMaxPage_lt (p : Nat) : roundMaxPage p < 2 ^ 64 := by
  unfold roundMaxPage uintptr
  omega

theorem roundMaxPage_aligned (p : Nat) : roundMaxPage p % PAGE_SIZE = 0 := by
  unfold roundMaxPage uintptr
  generalize Int.tdiv (intptr p + PAGE_SIZE - 1) PAGE_SIZE = q
  simp only [PAGE_SIZE]
  omega

theorem mapStack_maxPage (L : Layout) (top n : Nat) {s : Load} (hs : s.maxPage < 2 ^ 64) :
    (mapStack L top n s).maxPage = (s.maxPage + n * PAGE_SIZE) % 2 ^ 64 := by
  induction n generalizing s with
  | zero => rw [mapStack, Nat.zero_mul, Nat.add_zero, Nat.mod_eq_of_lt hs]
  | succ n ih =>
    rw [mapStack]
    refine (ih (Nat.mod_lt _ (Nat.two_pow_pos 64))).trans ?_
    dsimp only
    rw [Nat.mod_add_mod, Nat.succ_mul, Nat.add_assoc, Nat.add_comm PAGE_SIZE]

section SpawnTask

variable (L : Layout) (pid header stackSize : Nat) (args : List (List UInt8)) (origin : Nat)
  (h : Heap)

/-- The pages of the stack start on page boundaries. -/
theorem stackPage_aligned (i : Nat) :
    (spawnTask L pid header stackSize args origin h).stackPage i % PAGE_SIZE = 0 := by
  have hbase : (spawnTask L pid header stackSize args origin h).image.maxPage % PAGE_SIZE = 0 :=
    roundMaxPage_aligned _
  unfold LoadedTask.stackPage
  generalize (spawnTask L pid header stackSize args origin h).image.maxPage = base at hbase
  simp only [PAGE_SIZE] at hbase ⊢
  omega

/-- The stack pointer, eight bytes below the highest page of the stack. -/
theorem spawnTask_sp (hstack : 1 ≤ stackSize) :
    (spawnTask L pid header stackSize args origin h).loaded.sp.toNat =
      ((spawnTask L pid header stackSize args origin h).stackPage (stackSize - 1) + 2 ^ 64 - 8) %
        2 ^ 64 := by
  have hsp : (spawnTask L pid header stackSize args origin h).loaded.sp.toNat =
      ((mapStack L (spawnTask L pid header stackSize args origin h).top stackSize
        (spawnTask L pid header stackSize args origin h).image).maxPage + 2 ^ 64 - PAGE_SIZE - 8) %
          2 ^ 64 := by
    unfold spawnTask
    simp
  have hlt : (spawnTask L pid header stackSize args origin h).image.maxPage < 2 ^ 64 :=
    roundMaxPage_lt _
  rw [hsp, mapStack_maxPage L _ _ hlt, LoadedTask.stackPage]
  generalize (spawnTask L pid header stackSize args origin h).image.maxPage = base at hlt
  obtain ⟨n, rfl⟩ := Nat.exists_eq_add_of_le' hstack
  rw [Nat.add_sub_cancel, Nat.succ_mul]
  generalize n * PAGE_SIZE = len
  simp only [PAGE_SIZE]
  omega

/-- The stack pointer is not in the highest page. -/
theorem sp_not_highest (hstack : 1 ≤ stackSize) :
    (spawnTask L pid header stackSize args origin h).loaded.sp.toNat / PAGE_SIZE ≠
      (spawnTask L pid header stackSize args origin h).stackPage (stackSize - 1) / PAGE_SIZE := by
  have haligned := stackPage_aligned L pid header stackSize args origin h (stackSize - 1)
  have hlt : (spawnTask L pid header stackSize args origin h).stackPage (stackSize - 1) < 2 ^ 64 :=
    Nat.mod_lt _ (by decide)
  rw [spawnTask_sp L pid header stackSize args origin h hstack]
  generalize (spawnTask L pid header stackSize args origin h).stackPage (stackSize - 1) = page
    at haligned hlt
  simp only [PAGE_SIZE] at haligned ⊢
  omega

theorem spawnTask_not_private (hstack : 1 ≤ stackSize) {k : Kernel} {task : Task}
    (htask : task.trap.xs 2 = (spawnTask L pid header stackSize args origin h).loaded.sp) :
    ¬ StackPrivate header stackSize k (spawnTask L pid header stackSize args origin h) task := by
  intro hprivate
  apply sp_not_highest L pid header stackSize args origin h hstack
  rw [← htask]
  exact hprivate.sp

end SpawnTask

theorem scheduleTask_tasks (pid : Int) (s : System) : (scheduleTask pid s).tasks = s.tasks := by
  unfold scheduleTask
  split
  · rfl
  · rfl

theorem installTask_sp (s : System) (pid : Nat) (p : Loaded) :
    ((installTask s pid p).tasks pid).trap.xs 2 = p.sp := by
  simp [installTask, scheduleTask_tasks, System.setTask]

/-- **The initial stack is never private.**  Whatever the image, the size of the stack and the
    arguments are, and whatever the allocator does: the stack pointer of the task that is
    returned does not lie in the highest page of its stack. -/
theorem initial_stack_never_private (L : Layout) (header stackSize : Nat) (args : List (List UInt8))
    (origin : Nat) (s s' : System) (h h' : Heap) (pid : Nat) (hstack : 1 ≤ stackSize)
    (hspawn : spawnTaskFromElf L header stackSize args origin s h = (some pid, s', h')) :
    ¬ StackPrivate header stackSize h.kernel (spawnTask L pid header stackSize args origin h)
      (s'.tasks pid) := by
  apply spawnTask_not_private L pid header stackSize args origin h hstack
  unfold spawnTaskFromElf at hspawn
  split at hspawn
  · exact nomatch congrArg Prod.fst hspawn
  · split at hspawn
    · exact nomatch congrArg Prod.fst hspawn
    · obtain rfl := Option.some.inj (congrArg Prod.fst hspawn)
      obtain rfl := congrArg (fun r => r.2.1) hspawn
      exact installTask_sp s _ _

/-! ## 3. A program with one segment -/

/-- Two slots, the first of them taken. -/
def twoSlots : System where
  maxPid := 2
  tasks pid := ⟨pid, if pid = 0 then .running else .dead, 0, 0, ⟨fun _ => 0, 0, 0, 0, pid⟩⟩
  traps hartid := ⟨fun _ => 0, 0, 0, hartid, -1⟩
  next := 0
  upTo := 0
  satp _ := 0
  doNothing := 0

/-- An image with one program header: sixteen zero bytes at `0x10010`, to be read and written. -/
def oneSegment (x : Nat) : UInt8 :=
  if x = 0x90000010 then 2
  else if x = 0x90000020 then 64
  else if x = 0x90000036 then 56
  else if x = 0x90000038 then 1
  else if x = 0x90000040 then 1
  else if x = 0x90000044 then 6
  else if x = 0x90000050 ∨ x = 0x90000068 then 16
  else if x = 0x90000052 then 1
  else 0

def oneSegmentHeap : Heap := ⟨⟨oneSegment, 0#64, 0⟩, false, 0, fun _ => 0⟩

theorem oneSegment_byte {x : Nat} (hx : SegmentByte oneSegmentHeap.kernel 0x90000000 x) :
    0x10010 ≤ x ∧ x < 0x10020 := by
  have hnum : programHeaderNum oneSegmentHeap.kernel 0x90000000 = 1 := by decide +kernel
  have haddr : (getElfProgramHeader oneSegmentHeap.kernel 0x90000000 0).virtualAddr = 0x10010 := by
    decide +kernel
  have hsize : (getElfProgramHeader oneSegmentHeap.kernel 0x90000000 0).memorySize = 16 := by
    decide +kernel
  obtain ⟨index, hindex, _, j, hj, rfl⟩ := hx
  rw [hnum, Nat.lt_one_iff] at hindex
  subst hindex
  rw [hsize] at hj
  rw [haddr]
  omega

theorem oneSegment_clear : ClearOfKernel .small oneSegmentHeap.kernel 0x90000000 := by
  intro x hx
  obtain ⟨hlo, hhi⟩ := oneSegment_byte hx
  constructor
  · exact Nat.lt_trans hhi (by decide)
  · rintro r hr ⟨y, hy, hstart, _⟩
    have hbelow : 0x80200000 ≤ r.1 := by
      simp only [Layout.kernelRanges, List.mem_cons, List.not_mem_nil, or_false] at hr
      rcases hr with rfl | rfl | rfl | rfl | rfl | rfl
      all_goals exact le_refl 0x80200000
    simp only [PAGE_SIZE] at hy
    omega

theorem oneSegment_spawned :
    (spawnTaskFromElf .small 0x90000000 1 [] 0 twoSlots oneSegmentHeap).1 = some 1 := by
  decide +kernel

theorem initial_stack_never_private_small :
    ¬ StackPrivate 0x90000000 1 oneSegmentHeap.kernel
      (spawnTask .small 1 0x90000000 1 [] 0 oneSegmentHeap)
      ((spawnTaskFromElf .small 0x90000000 1 [] 0 twoSlots oneSegmentHeap).2.1.tasks 1) :=
  initial_stack_never_private .small 0x90000000 1 [] 0 twoSlots _ oneSegmentHeap _ 1 (le_refl 1)
    (Prod.ext oneSegment_spawned rfl)

/-- No page allocation fails, and still the task has no stack where its stack pointer is. -/
theorem initial_stack_not_private : ∃ s' h',
    spawnTaskFromElf .small 0x90000000 1 [] 0 twoSlots oneSegmentHeap = (some 1, s', h') ∧
    h'.kernel.failed = oneSegmentHeap.kernel.failed ∧
    ClearOfKernel .small oneSegmentHeap.kernel 0x90000000 ∧
    ¬ StackPrivate 0x90000000 1 oneSegmentHeap.kernel
      (spawnTask .small 1 0x90000000 1 [] 0 oneSegmentHeap) (s'.tasks 1) := by
  refine ⟨_, _, Prod.ext oneSegment_spawned rfl, by decide +kernel, oneSegment_clear, ?_⟩
  apply spawnTask_not_private .small 1 0x90000000 1 [] 0 oneSegmentHeap (le_refl 1)
  exact installTask_sp twoSlots 1 _

end IloPali
