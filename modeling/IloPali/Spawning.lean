import IloPali.Loading

/-!
# Loading a task

The invariant of the loader from the beginning of `spawn_task_from_elf` to its end: over the table
of the task, its segments and its stack, the call of `malloc` for `args_new`, and the arguments.
Where `mmu_alloc` fails since a page is mapped, the arguments are written to physical page 0, which
nobody owns.
-/

namespace IloPali

open ByteMemory

/-! ## 1. The table -/

/-- The kernel is ready to load a task in the slot `pid`: its heap is as `malloc` and `free` keep
    it, and the table that the first task gets maps nothing for user code. -/
structure Ready (L : Layout) (s : HeapTrace) (rs : List PageRun) (free : SizeClass → List Nat)
    (pid : Nat) : Prop where
  heap : UseInv L s rs free
  table : pid = 0 → ∃ ρ, getMmu s.heap.kernel.satp = 4096 * ρ ∧ Tree L s.heap.kernel ρ ∧
    (∀ n, IsTable s.heap.kernel.mem ρ n → ¬ HeapPage L rs n) ∧
    ∀ v, mmuEntryUser (leaf s.heap.kernel.mem ρ v) = false

/-- The heap in another memory. -/
abbrev HeapTrace.at (s : HeapTrace) (k : Kernel) : HeapTrace :=
  { s with heap := { s.heap with kernel := k } }

/-- The table at `ρ` is the one of the new task. -/
structure NewTable (L : Layout) (s : HeapTrace) (rs : List PageRun) (free : SizeClass → List Nat)
    (pid ρ : Nat) (k : Kernel) : Prop where
  loading : Loading L (HeapPage L rs) (fun _ => False) ρ k k
  noUser : ∀ v, mmuEntryUser (leaf k.mem ρ v) = false
  heap : UseInv L (s.at k) rs free
  frame : Frame L (fun _ => False) s.heap.kernel k
  new : pid ≠ 0 → ∀ n, IsTable k.mem ρ n → FreePage L s.heap.kernel n
  same : pid = 0 → k = s.heap.kernel ∧ getMmu k.satp = 4096 * ρ
  failed : k.failed = s.heap.kernel.failed

section Spawn

variable {L : Layout} (hL : L.WellFormed) {s : HeapTrace} {rs : List PageRun}
  {free : SizeClass → List Nat} {pid : Nat}
include hL

theorem Ready.newTable (h : Ready L s rs free pid)
    (hok : (taskTable L pid s.heap.kernel).2.failed = s.heap.kernel.failed) :
    ∃ ρ, (taskTable L pid s.heap.kernel).1 = 4096 * ρ ∧
      NewTable L s rs free pid ρ (taskTable L pid s.heap.kernel).2 := by
  unfold taskTable at hok ⊢
  by_cases hpid : pid = 0
  · obtain ⟨ρ, hroot, hT, hheap, hno⟩ := h.table hpid
    rw [if_pos hpid]
    refine ⟨ρ, hroot, .refl hT fun n hn => ⟨h.heap.lists.pages.owned hn, fun ht => ?_⟩, hno, h.heap,
      .refl L _ _, fun hne => absurd hpid hne, fun _ => ⟨rfl, hroot⟩, rfl⟩
    exact hheap n ht hn
  · rw [if_neg hpid] at hok ⊢
    obtain ⟨ρ, hroot, hnew⟩ := createMmuTable_spec hL hok
    refine ⟨ρ, hroot, .refl hnew.tree fun n hn => ⟨?_, fun ht => ?_⟩, hnew.noUser, ?_, hnew.frame,
      fun _ => hnew.new, fun heq => absurd heq hpid, hnew.failed⟩
    · exact hnew.frame.owned (h.heap.lists.pages.owned hn)
    · exact (h.heap.lists.pages.owned hn).not_free (hnew.new n ht)
    · exact h.heap.others hL hnew.frame fun _ hn => hn.elim

/-! ## 2. The program and the stack -/

theorem NewTable.stack {ρ : Nat} {k : Kernel} (h : NewTable L s rs free pid ρ k)
    (header stackSize : Nat)
    (hok : (mapStack L (4096 * ρ) stackSize (loadImage L (4096 * ρ) header k)).kernel.failed =
      k.failed) :
    Loading L (HeapPage L rs) (fun _ => False) ρ k
        (mapStack L (4096 * ρ) stackSize (loadImage L (4096 * ρ) header k)).kernel ∧
      UseInv L (s.at (mapStack L (4096 * ρ) stackSize (loadImage L (4096 * ρ) header k)).kernel)
        rs free := by
  have himage := loadSegments_failed_le L (4096 * ρ) header (2 ^ 16) 0 ⟨k, 0, [], []⟩
  have hstack := mapStack_failed_le L (4096 * ρ) stackSize (loadImage L (4096 * ρ) header k)
  dsimp only [loadImage] at himage hstack hok
  have hload : Loading L (HeapPage L rs) (fun _ => False) ρ k
      (mapStack L (4096 * ρ) stackSize (loadImage L (4096 * ρ) header k)).kernel := by
    apply Loading.mapStack hL
    · apply Loading.loadSegments (s := ⟨k, 0, [], []⟩) hL h.loading h.noUser
      dsimp only
      omega
    · dsimp only [loadImage]
      omega
  refine ⟨hload, h.heap.others hL hload.frame ?_⟩
  rintro n (ht | hn) hheap
  · exact (h.loading.heap n hheap).2 ht
  · exact hn

/-- `malloc` still has what it had. -/
theorem NewTable.holds {ρ : Nat} {k k' : Kernel} (h : NewTable L s rs free pid ρ k)
    (hready : Ready L s rs free pid) (hload : Loading L (HeapPage L rs) (fun _ => False) ρ k k')
    {size : Nat} (hs : s.Holds L size) : HeapTrace.Holds L (s.at k') size := by
  have hs' : HeapTrace.Holds L (s.at k) size :=
    hs.others hL hready.heap h.frame fun _ hn => hn.elim
  apply hs'.others hL h.heap hload.frame
  rintro n (ht | hn) hheap
  · exact (h.loading.heap n hheap).2 ht
  · exact hn

end Spawn

/-! ## 3. The heap and the pages of the task -/

/-- The invariant behind the call of `malloc`, with the heap `t`. -/
structure Working (L : Layout) (t : HeapTrace) (rs : List PageRun) (free : SizeClass → List Nat)
    (ρ : Nat) (k0 k : Kernel) : Prop where
  loading : Loading L (HeapPage L rs) (fun n => HeapPage L rs n ∨ n = 0) ρ k0 k
  heap : UseInv L (t.at k) rs free

/-- Page `p` is one of the task's, or page 0. -/
def Window (L : Layout) (rs : List PageRun) (ρ : Nat) (k0 k : Kernel) (p : Nat) : Prop :=
  p = 0 ∨ ∃ v flags, TaskPage L (HeapPage L rs) ρ k0 k v flags p

section Working

variable {L : Layout} (hL : L.WellFormed) {s t : HeapTrace} {rs : List PageRun}
  {free : SizeClass → List Nat} {ρ : Nat} {k0 k k' : Kernel}
include hL

/-- **The call of `malloc`.** -/
theorem Loading.malloc (h : Loading L (HeapPage L rs) (fun _ => False) ρ k0 k)
    (hheap : UseInv L (s.at k) rs free) {size : Nat} (hs : HeapTrace.Holds L (s.at k) size)
    (origin : Nat)
    (hok : (malloc L size origin (s.at k).heap).2.kernel.failed = k.failed) :
    ∃ rs' free', Mallocs L (s.at k) size origin rs rs' free' ∧
      Working L ((s.at k).allocated L size origin) rs' free' ρ k0
        (IloPali.malloc L size origin (s.at k).heap).2.kernel := by
  obtain ⟨rs', free', hm⟩ := hheap.malloc hL hs origin hok
  have hinv := hm.heap
  have hsame := TraceInv.allocated_heap L size origin (s.at k)
  refine ⟨rs', free', hm, ?_, ?_⟩
  · apply h.grow hm.frame
    · intro n hn
      exact ⟨(h.heap n hn).2, Or.inl (Or.inl (hm.more n hn))⟩
    · exact fun _ hn => hn.elim
    · intro n hn
      refine ⟨?_, hm.new n hn⟩
      have howned := hinv.lists.pages.owned hn
      rwa [hsame] at howned
    · exact hok
  · have hkernel : (IloPali.malloc L size origin (s.at k).heap).2.kernel =
        ((s.at k).allocated L size origin).heap.kernel := by
      rw [hsame, IloPali.malloc]
    rw [hkernel]
    exact hinv

theorem page_zero : (∀ x, InTable L x → x / 4096 ≠ 0) ∧ ∀ rs, ¬ HeapPage L rs 0 := by
  obtain ⟨_, hb, _, haligned, _⟩ := hL.bounds
  have hpos := hL.pagesBottom_pos
  have hpage := hL.pagesBottom_aligned
  rw [PAGE_SIZE] at hpage
  refine ⟨fun x hx => ?_, ?_⟩
  · have hlow := hx.1
    omega
  · rintro rs ⟨r, _, i, _, _, hi⟩
    exact pageAddr_ne_zero hL i hi.symm

theorem Working.alloc (h : Working L t rs free ρ k0 k) {virt : Nat} {flags : Word}
    (hflags : UserFlags flags)
    (hok : (mmuAlloc L (4096 * ρ) virt flags k).2.failed = k.failed) :
    Working L t rs free ρ k0 (mmuAlloc L (4096 * ρ) virt flags k).2 := by
  refine ⟨h.loading.alloc hL hflags hok, ?_⟩
  rcases mmuAlloc_spec hL h.loading.tree hok with ⟨_, _, hF⟩ | ⟨_, p, _, hp⟩
  · exact h.heap.others hL hF fun _ hn => hn.elim
  · exact h.heap.others hL hp.evolves.frame fun n ht hn => (h.loading.heap n hn).2 ht

/-- Writing into a window. -/
theorem Window.frame {p : Nat} (hp : Window L rs ρ k0 k p)
    (hmem : ∀ x, x / 4096 ≠ p → k'.mem x = k.mem x) (hsatp : k'.satp = k.satp) :
    Frame L (· = p) k k' := by
  have hin : ∀ x, InTable L x → x / 4096 ≠ p := by
    intro x hx
    rcases hp with rfl | ⟨_, _, hp⟩
    · exact (page_zero hL).1 x hx
    · rintro rfl
      exact hp.owned.not_inTable hx
  refine ⟨fun i hi hpos => ?_, fun x _ _ hx => hmem x hx, hsatp⟩
  rw [rc_congr hL (fun x hx => hmem x (hin x hx)) hi]
  exact hpos

theorem Window.notTable {p : Nat} (hp : Window L rs ρ k0 k p) (hT : Tree L k ρ) :
    ¬ IsTable k.mem ρ p := by
  rcases hp with rfl | ⟨_, _, hp⟩
  · exact fun ht => (hT.addressable hL ht).1 rfl
  · exact hp.notTable

omit hL in
theorem Window.write {p : Nat} (hp : Window L rs ρ k0 k p) (hT : Tree L k ρ) {V : Nat → Prop}
    (hF : Frame L V k k') (hV : ∀ n, IsTable k.mem ρ n → ¬ V n) : Window L rs ρ k0 k' p :=
  hp.imp_right fun ⟨v, flags, hp⟩ => ⟨v, flags, hp.write hT hF hV⟩

theorem Working.page (h : Working L t rs free ρ k0 k) {p : Nat} (hp : Window L rs ρ k0 k p)
    (hF : Frame L (· = p) k k') (hfailed : k'.failed = k.failed) :
    Working L t rs free ρ k0 k' := by
  refine ⟨h.loading.write hF ?_ hfailed, h.heap.others hL hF ?_⟩
  · rintro n rfl
    refine ⟨hp.notTable hL h.loading.tree, ?_⟩
    rcases hp with rfl | ⟨_, _, hp⟩
    · exact Or.inl (Or.inr rfl)
    · exact Or.inr hp.free
  · rintro n rfl
    rcases hp with rfl | ⟨_, _, hp⟩
    · exact (page_zero hL).2 rs
    · exact hp.notHeap

/-- **Writing into a block.** -/
theorem Working.block (h : Working L t rs free ρ k0 k) {p : Nat × Nat}
    (hp : p ∈ pieces L k.mmu rs) (hw : WritesBlock p k k') (hfailed : k'.failed = k.failed) :
    Working L t rs free ρ k0 k' := by
  refine ⟨h.loading.write (hw.heapFrame hL h.heap.lists.pages hp) ?_ hfailed,
    h.heap.write hL hp hw⟩
  intro n hn
  exact ⟨(h.loading.heap n hn).2, Or.inl (Or.inl hn)⟩

end Working

/-! ## 4. The arguments -/

section Failures

variable (L : Layout) (top argsNew : Nat)

theorem nextPage_failed_le (a : Args) :
    a.load.kernel.failed ≤ (a.nextPage L top).load.kernel.failed :=
  mmuAlloc_failed_le L top a.lastVirtualPage STACK_FLAGS a.load.kernel

theorem room_failed_le (a : Args) : a.load.kernel.failed ≤ (a.room L top).load.kernel.failed := by
  unfold Args.room
  split
  · exact nextPage_failed_le L top a
  · exact le_refl _

theorem putChar_failed_le (a : Args) (c : UInt8) :
    a.load.kernel.failed ≤ (a.putChar L top c).load.kernel.failed := room_failed_le L top a

theorem putChars_failed_le (cs : List UInt8) (a : Args) :
    a.load.kernel.failed ≤ (cs.foldl (Args.putChar L top) a).load.kernel.failed := by
  induction cs generalizing a with
  | nil => exact le_refl _
  | cons c cs ih => exact (putChar_failed_le L top a c).trans (ih _)

theorem copyStrings_failed_le (i : Nat) (args : List (List UInt8)) (a : Args) :
    a.load.kernel.failed ≤ (a.copyStrings L top argsNew i args).load.kernel.failed := by
  induction args generalizing i a with
  | nil => exact le_refl _
  | cons arg args ih => exact (putChars_failed_le L top (arg ++ [0]) (a.setArg argsNew i _)).trans (ih _ _)

theorem copyPointers_failed_le (n i : Nat) (a : Args) :
    a.load.kernel.failed ≤ (a.copyPointers L top argsNew n i).load.kernel.failed := by
  induction n generalizing i a with
  | zero => exact le_refl _
  | succ n ih =>
    rw [Args.copyPointers]
    exact (room_failed_le L top a).trans
      (ih (i + 1) ((a.room L top).write 8 ((a.room L top).load.kernel.load 8 (argsNew + 8 * i))))

end Failures

/-- The `n` bytes at `ptr` are in a block of the heap, behind its header. -/
def InBlock (L : Layout) (mmu : Bool) (rs : List PageRun) (ptr n : Nat) : Prop :=
  ∃ b len, ptr = b + HEADER_SIZE ∧ (b, len) ∈ pieces L mmu rs ∧ HEADER_SIZE + n ≤ len

/-- **The invariant of the loops over the arguments.** -/
structure ArgsInv (L : Layout) (t : HeapTrace) (rs : List PageRun) (free : SizeClass → List Nat)
    (ρ : Nat) (k0 : Kernel) (a : Args) : Prop where
  working : Working L t rs free ρ k0 a.load.kernel
  window : ∃ p, a.physical = phys2safe k0.mmu (4096 * p) ∧ Window L rs ρ k0 a.load.kernel p
  offset : a.offset ≤ PAGE_SIZE

theorem Working.mmu {L : Layout} {t : HeapTrace} {rs : List PageRun} {free : SizeClass → List Nat}
    {ρ : Nat} {k0 k : Kernel} (h : Working L t rs free ρ k0 k) : k.mmu = k0.mmu :=
  h.loading.frame.mmu

section Arguments

variable {L : Layout} (hL : L.WellFormed) {t : HeapTrace} {rs : List PageRun}
  {free : SizeClass → List Nat} {ρ : Nat} {k0 : Kernel} {a : Args} {argsNew : Nat}
include hL

omit hL in
/-- A window is reached by the kernel. -/
theorem Window.pointer {k : Kernel} {p : Nat} (hp : Window L rs ρ k0 k p) (hmmu : k.mmu = k0.mmu)
    (i : Nat) : physOf k.mmu (phys2safe k0.mmu (4096 * p) + i) = 4096 * p + i := by
  rw [← hmmu]
  apply physOf_phys2safe_add
  rcases hp with rfl | ⟨_, _, hp⟩
  · exact fun _ => by decide
  · exact hp.owned.2

theorem Working.nextPage (h : Working L t rs free ρ k0 a.load.kernel)
    (hok : (a.nextPage L (4096 * ρ)).load.kernel.failed = a.load.kernel.failed) :
    ArgsInv L t rs free ρ k0 (a.nextPage L (4096 * ρ)) := by
  have hnew := mmuAlloc_spec hL h.loading.tree hok
  have hload := h.alloc hL userFlags_stack hok
  have hmmu := hload.mmu
  unfold Args.nextPage Load.alloc
  refine ⟨hload, ?_, Nat.zero_le _⟩
  dsimp only
  rw [hmmu]
  rcases hnew with ⟨_, hnull, _⟩ | ⟨hunmapped, p, hpage, hp⟩
  · exact ⟨0, by rw [hnull], Or.inl rfl⟩
  · exact ⟨p, by rw [hpage], Or.inr ⟨_, _, h.loading.taskPage userFlags_stack hunmapped hp⟩⟩

theorem ArgsInv.room (h : ArgsInv L t rs free ρ k0 a)
    (hok : (a.room L (4096 * ρ)).load.kernel.failed = a.load.kernel.failed) :
    ArgsInv L t rs free ρ k0 (a.room L (4096 * ρ)) ∧ (a.room L (4096 * ρ)).offset < PAGE_SIZE := by
  unfold Args.room at hok ⊢
  split
  · rename_i hfull
    rw [if_pos hfull] at hok
    exact ⟨h.working.nextPage hL hok, by unfold Args.nextPage; exact (by decide : 0 < PAGE_SIZE)⟩
  · rename_i hfull
    exact ⟨h, Nat.not_le.mp hfull⟩

/-- A store to the window. -/
theorem ArgsInv.store_frame (h : ArgsInv L t rs free ρ k0 a) {n : Nat} (v : Nat)
    (hn : a.offset + n ≤ PAGE_SIZE) : ∃ p, a.physical = phys2safe k0.mmu (4096 * p) ∧
      Window L rs ρ k0 a.load.kernel p ∧ Frame L (· = p) a.load.kernel
        (a.load.kernel.store n (a.physical + a.offset) v) := by
  obtain ⟨p, hphys, hp⟩ := h.window
  have hptr := hp.pointer h.working.mmu a.offset
  refine ⟨p, hphys, hp, hp.frame hL (fun x hx => ?_) rfl⟩
  rw [Kernel.store, hphys, hptr]
  rw [PAGE_SIZE] at hn
  dsimp only [ByteMemory.store]
  exact patch_outside _ _ (by omega)

theorem ArgsInv.write (h : ArgsInv L t rs free ρ k0 a) {n : Nat} (v : Nat)
    (hn : a.offset + n ≤ PAGE_SIZE) : ArgsInv L t rs free ρ k0 (a.write n v) := by
  obtain ⟨p, hphys, hp, hF⟩ := h.store_frame hL v hn
  refine ⟨h.working.page hL hp hF rfl, ⟨p, hphys, hp.write h.working.loading.tree hF ?_⟩, hn⟩
  rintro n ht rfl
  exact hp.notTable hL h.working.loading.tree ht

theorem ArgsInv.putChar (h : ArgsInv L t rs free ρ k0 a) (c : UInt8)
    (hok : (a.putChar L (4096 * ρ) c).load.kernel.failed = a.load.kernel.failed) :
    ArgsInv L t rs free ρ k0 (a.putChar L (4096 * ρ) c) := by
  obtain ⟨hroom, hlt⟩ := h.room hL hok
  exact hroom.write hL c.toNat hlt

theorem ArgsInv.putChars (h : ArgsInv L t rs free ρ k0 a) (cs : List UInt8)
    (hok : (cs.foldl (Args.putChar L (4096 * ρ)) a).load.kernel.failed = a.load.kernel.failed) :
    ArgsInv L t rs free ρ k0 (cs.foldl (Args.putChar L (4096 * ρ)) a) := by
  induction cs generalizing a with
  | nil => exact h
  | cons c cs ih =>
    rw [List.foldl_cons] at hok ⊢
    have hfirst := putChar_failed_le L (4096 * ρ) a c
    have hrest := putChars_failed_le L (4096 * ρ) cs (a.putChar L (4096 * ρ) c)
    apply ih
    · exact h.putChar hL c (by omega)
    · omega

/-- A store to `args_new`. -/
theorem InBlock.writes {i n v : Nat} {k : Kernel} (h : InBlock L k.mmu rs argsNew n)
    (hplaced : RunsPlaced L k.mmu rs) (hi : 8 * i + 8 ≤ n) :
    ∃ p ∈ pieces L k.mmu rs, WritesBlock p k (k.store 8 (argsNew + 8 * i) v) := by
  obtain ⟨b, len, rfl, hb, hlen⟩ := h
  have hdir := (hplaced.headersApart hL).direct b (List.mem_map_of_mem hb)
  have hphys := hdir.physOf_add (HEADER_SIZE + 8 * i)
  refine ⟨(b, len), hb, rfl, fun x hx => ?_⟩
  dsimp only at hx
  rw [Kernel.store, Nat.add_assoc, hphys]
  dsimp only [ByteMemory.store]
  exact patch_outside _ _ (by omega)

theorem ArgsInv.setArg (h : ArgsInv L t rs free ρ k0 a) {i n : Nat} (v : Nat)
    (hblock : InBlock L k0.mmu rs argsNew n) (hi : 8 * i + 8 ≤ n) :
    ArgsInv L t rs free ρ k0 (a.setArg argsNew i v) := by
  obtain ⟨p, hphys, hp⟩ := h.window
  have hmmu := h.working.mmu
  have hpages := h.working.heap.lists.pages
  rw [← hmmu] at hblock
  obtain ⟨q, hq, hw⟩ := @InBlock.writes L hL rs argsNew i n v _ hblock hpages.toRunsPlaced hi
  have hF := hw.heapFrame hL hpages hq
  refine ⟨h.working.block hL hq hw rfl, ⟨p, hphys, hp.write h.working.loading.tree hF ?_⟩, h.offset⟩
  exact fun n ht hn => (h.working.loading.heap n hn).2 ht

theorem ArgsInv.copyStrings (h : ArgsInv L t rs free ρ k0 a) {n : Nat}
    (hblock : InBlock L k0.mmu rs argsNew (8 * n)) {i : Nat} {args : List (List UInt8)}
    (hi : i + args.length ≤ n)
    (hok : (a.copyStrings L (4096 * ρ) argsNew i args).load.kernel.failed = a.load.kernel.failed) :
    ArgsInv L t rs free ρ k0 (a.copyStrings L (4096 * ρ) argsNew i args) := by
  induction args generalizing i a with
  | nil => exact h
  | cons arg args ih =>
    rw [List.length_cons] at hi
    rw [Args.copyStrings] at hok ⊢
    have hset := h.setArg hL ((a.virtAddr + a.offset) % 2 ^ 64) hblock (by omega : 8 * i + 8 ≤ 8 * n)
    have hfirst := putChars_failed_le L (4096 * ρ) (arg ++ [0])
      (a.setArg argsNew i ((a.virtAddr + a.offset) % 2 ^ 64))
    have hrest := copyStrings_failed_le L (4096 * ρ) argsNew (i + 1) args
      ((arg ++ [0]).foldl (Args.putChar L (4096 * ρ))
        (a.setArg argsNew i ((a.virtAddr + a.offset) % 2 ^ 64)))
    have hsame : (a.setArg argsNew i ((a.virtAddr + a.offset) % 2 ^ 64)).load.kernel.failed =
        a.load.kernel.failed := rfl
    apply ih
    · exact hset.putChars hL (arg ++ [0]) (by omega)
    · omega
    · omega

omit hL in
theorem ArgsInv.align (h : ArgsInv L t rs free ρ k0 a) :
    ArgsInv L t rs free ρ k0 a.align ∧ a.align.offset % 8 = 0 := by
  have hle := h.offset
  unfold Args.align
  rw [PAGE_SIZE] at hle
  refine ⟨⟨h.working, h.window, ?_⟩, ?_⟩
  · dsimp only
    rw [PAGE_SIZE]
    omega
  · dsimp only
    omega

theorem ArgsInv.copyPointers (h : ArgsInv L t rs free ρ k0 a) (halign : a.offset % 8 = 0) {n i : Nat}
    (hok : (a.copyPointers L (4096 * ρ) argsNew n i).load.kernel.failed = a.load.kernel.failed) :
    ArgsInv L t rs free ρ k0 (a.copyPointers L (4096 * ρ) argsNew n i) := by
  induction n generalizing i a with
  | zero => exact h
  | succ n ih =>
    rw [Args.copyPointers] at hok ⊢
    have hfirst := room_failed_le L (4096 * ρ) a
    have hrest := copyPointers_failed_le L (4096 * ρ) argsNew n (i + 1)
      ((a.room L (4096 * ρ)).write 8
        ((a.room L (4096 * ρ)).load.kernel.load 8 (argsNew + 8 * i)))
    have hsame : ((a.room L (4096 * ρ)).write 8 ((a.room L (4096 * ρ)).load.kernel.load 8
        (argsNew + 8 * i))).load.kernel.failed = (a.room L (4096 * ρ)).load.kernel.failed := rfl
    obtain ⟨hroom, hlt⟩ := h.room hL (by omega)
    have halign' : (a.room L (4096 * ρ)).offset % 8 = 0 := by
      unfold Args.room
      split
      · rfl
      · exact halign
    rw [PAGE_SIZE] at hlt
    apply ih
    · exact hroom.write hL _ (by rw [PAGE_SIZE]; omega)
    · unfold Args.write
      dsimp only
      omega
    · omega

/-- **The arguments** keep the invariant. -/
theorem Working.loadArgs {s : Load} (h : Working L t rs free ρ k0 s.kernel)
    {args : List (List UInt8)}
    (hblock : args ≠ [] → InBlock L k0.mmu rs argsNew (8 * args.length))
    (hok : (loadArgs L (4096 * ρ) argsNew args s).1.load.kernel.failed = s.kernel.failed) :
    ArgsInv L t rs free ρ k0 (loadArgs L (4096 * ρ) argsNew args s).1 := by
  unfold IloPali.loadArgs at hok ⊢
  dsimp only at hok ⊢
  have hfirst := nextPage_failed_le L (4096 * ρ) ⟨s, 0, 0, 0, s.maxPage⟩
  generalize hpage : Args.nextPage L (4096 * ρ) ⟨s, 0, 0, 0, s.maxPage⟩ = a at hok hfirst ⊢
  have hstrings := copyStrings_failed_le L (4096 * ρ) argsNew 0 args a
  have hpointers := copyPointers_failed_le L (4096 * ρ) argsNew args.length 0
    (a.copyStrings L (4096 * ρ) argsNew 0 args).align
  have halign : (a.copyStrings L (4096 * ρ) argsNew 0 args).align.load.kernel.failed =
      (a.copyStrings L (4096 * ρ) argsNew 0 args).load.kernel.failed := rfl
  have hnew : ArgsInv L t rs free ρ k0 a := by
    rw [← hpage]
    apply Working.nextPage hL h
    rw [hpage]
    dsimp only at hfirst ⊢
    omega
  have hcopied : ArgsInv L t rs free ρ k0 (a.copyStrings L (4096 * ρ) argsNew 0 args) := by
    cases args with
    | nil => exact hnew
    | cons arg args =>
      apply hnew.copyStrings hL (hblock (List.cons_ne_nil _ _)) (Nat.zero_add _).le
      dsimp only at hfirst
      omega
  obtain ⟨haligned, hoffset⟩ := hcopied.align
  apply haligned.copyPointers hL hoffset
  dsimp only at hfirst
  omega

end Arguments

/-! ## 5. The task -/

section Failures

variable (L : Layout)

theorem taskTable_failed_le (pid : Nat) (k : Kernel) : k.failed ≤ (taskTable L pid k).2.failed := by
  unfold taskTable
  split
  · exact le_refl _
  · rw [createMmuTable_eq]
    have halloc := allocPages_failed_le L 1 k
    refine le_trans ?_ (identityMapKernel_failed_le L _ _)
    rwa [fillTopHalf_failed]

theorem loadImage_failed_le (top header : Nat) (k : Kernel) :
    k.failed ≤ (loadImage L top header k).kernel.failed :=
  loadSegments_failed_le L top header (2 ^ 16) 0 ⟨k, 0, [], []⟩

theorem malloc_failed_le (size origin : Nat) (h : Heap) :
    h.kernel.failed ≤ (malloc L size origin h).2.kernel.failed := by
  rw [malloc, freeBucketsAlloc_failed]
  split
  · exact allocPages_failed_le L _ _
  · exact le_refl _

theorem loadArgs_failed_le (top argsNew : Nat) (args : List (List UInt8)) (s : Load) :
    s.kernel.failed ≤ (loadArgs L top argsNew args s).1.load.kernel.failed := by
  unfold loadArgs
  dsimp only
  refine (nextPage_failed_le L top ⟨s, 0, 0, 0, s.maxPage⟩).trans ?_
  refine (copyStrings_failed_le L top argsNew 0 args _).trans ?_
  exact copyPointers_failed_le L top argsNew args.length 0 (Args.align _)

end Failures

/-- The stack of the task, before the arguments. -/
def LoadedTask.stack (L : Layout) (stackSize : Nat) (p : LoadedTask) : Load :=
  mapStack L p.top stackSize p.image

/-- The heap behind the call, with what is known about its blocks. -/
def HeapTrace.spawned (L : Layout) (stackSize : Nat) (args : List (List UInt8)) (origin : Nat)
    (p : LoadedTask) (s : HeapTrace) : HeapTrace :=
  (((s.at (p.stack L stackSize).kernel).allocated L (8 * args.length) origin).at
    p.args.load.kernel)

/-- A call that returns a task. -/
theorem spawnTaskFromElf_some {L : Layout} {header stackSize origin pid : Nat}
    {args : List (List UInt8)} {sys sys' : System} {h h' : Heap}
    (hspawn : spawnTaskFromElf L header stackSize args origin sys h = (some pid, sys', h')) :
    freeSlot sys = some pid ∧
      sys' = installTask sys pid (spawnTask L pid header stackSize args origin h).loaded ∧
      h' = (spawnTask L pid header stackSize args origin h).heap := by
  unfold spawnTaskFromElf at hspawn
  split at hspawn
  · exact nomatch congrArg Prod.fst hspawn
  · split at hspawn
    · exact nomatch congrArg Prod.fst hspawn
    · rename_i hslot
      obtain rfl := Option.some.inj (congrArg Prod.fst hspawn)
      obtain rfl := congrArg (fun r => r.2.1) hspawn
      obtain rfl := congrArg (fun r => r.2.2) hspawn
      exact ⟨hslot, rfl, rfl⟩

/-- What a call has done when it comes to the arguments: `args_new` is allocated, in the machine
    `k`. -/
structure Prepares (L : Layout) (s : HeapTrace) (rs rs' : List PageRun)
    (free free' : SizeClass → List Nat) (pid stackSize : Nat) (args : List (List UInt8))
    (origin ρ : Nat) (p : LoadedTask) (argsNew : Nat) (k : Kernel) : Prop where
  root : p.top = 4096 * ρ
  table : NewTable L s rs free pid ρ p.table
  working : Working L ((s.at (p.stack L stackSize).kernel).allocated L (8 * args.length) origin)
    rs' free' ρ p.table k
  leaves : ∀ v, leaf k.mem ρ v = leaf (p.stack L stackSize).kernel.mem ρ v
  block : args ≠ [] → InBlock L p.table.mmu rs' argsNew (8 * args.length)
  final : p.args = (loadArgs L (4096 * ρ) argsNew args { p.stack L stackSize with kernel := k }).1
  argv : p.loaded.argv = .ofNat 64
    (loadArgs L (4096 * ρ) argsNew args { p.stack L stackSize with kernel := k }).2
  failed : p.args.load.kernel.failed = k.failed
  heap : p.heap = (s.spawned L stackSize args origin p).heap
  more : ∀ n, HeapPage L rs n → HeapPage L rs' n
  new : ∀ n, HeapPage L rs' n → HeapPage L rs n ∨ FreePage L s.heap.kernel n

theorem spawnTask_prepares {L : Layout} (hL : L.WellFormed) {s : HeapTrace} {rs : List PageRun}
    {free : SizeClass → List Nat} {pid : Nat} (h : Ready L s rs free pid) (header stackSize : Nat)
    (args : List (List UInt8)) (origin : Nat) (hs : s.Holds L (8 * args.length))
    (hok : (spawnTask L pid header stackSize args origin s.heap).heap.kernel.failed =
      s.heap.kernel.failed) :
    ∃ ρ rs' free' argsNew k, Prepares L s rs rs' free free' pid stackSize args origin ρ
      (spawnTask L pid header stackSize args origin s.heap) argsNew k := by
  have hsize : 8 * args.length % 2 ^ 64 = 8 * args.length := by
    have hsmall := hs.small
    rw [HEADER_SIZE, PAGE_SIZE] at hsmall
    omega
  have htable := taskTable_failed_le L pid s.heap.kernel
  have hready := @Ready.newTable L hL s rs free pid h
  unfold spawnTask at hok ⊢
  rw [hsize] at hok ⊢
  rcases hcall : taskTable L pid s.heap.kernel with ⟨top, k⟩
  rw [hcall] at hok htable hready
  dsimp only at hok htable hready ⊢
  -- no step of the call failed
  have himage := loadImage_failed_le L top header k
  have hstack := mapStack_failed_le L top stackSize (loadImage L top header k)
  have hmalloc := malloc_failed_le L (8 * args.length) origin
    (s.at (mapStack L top stackSize (loadImage L top header k)).kernel).heap
  rcases hmem : malloc L (8 * args.length) origin
    (s.at (mapStack L top stackSize (loadImage L top header k)).kernel).heap with ⟨argsNew, heap⟩
  rw [hmem] at hok hmalloc
  dsimp only at hok hmalloc ⊢
  have hargs := loadArgs_failed_le L top argsNew args
    { mapStack L top stackSize (loadImage L top header k) with kernel := heap.kernel }
  dsimp only at hargs
  obtain ⟨ρ, rfl, hnew⟩ := hready (by omega)
  obtain ⟨hload, hheap⟩ := hnew.stack hL header stackSize (by omega)
  obtain ⟨rs', free', hm, hw⟩ := hload.malloc hL hheap (hnew.holds hL h hload hs) origin
    (by rw [hmem]; dsimp only; omega)
  have hblock := hm.block
  have hframe := hm.frame
  have hheapeq := TraceInv.allocated_heap L (8 * args.length) origin
    (s.at (mapStack L (4096 * ρ) stackSize (loadImage L (4096 * ρ) header k)).kernel)
  rw [hmem] at hw hblock hframe
  dsimp only at hw hblock hframe
  refine ⟨ρ, rs', free', argsNew, heap.kernel, rfl, hnew, hw, ?_, ?_, rfl, rfl, ?_, ?_, hm.more,
    fun n hn => ?_⟩
  · exact hload.tree.frame_leaf hframe fun n ht hn => (hload.heap n hn).2 ht
  · intro hne
    have hpos := List.length_pos_of_ne_nil hne
    obtain ⟨b, len, hptr, hb, hlen⟩ := hblock (by omega)
    have hmmu := hw.mmu
    rw [hmmu] at hb
    exact ⟨b, len, hptr, hb, hlen⟩
  · dsimp only
    omega
  · unfold HeapTrace.spawned LoadedTask.stack
    dsimp only
    rw [hheapeq, ← malloc, hmem]
  · rcases hm.new n hn with hold | hfree
    · exact Or.inl hold
    · exact Or.inr (hnew.frame.free (hload.frame.free hfree))

/-- **What a call does to memory** that does not fail and for which `malloc` has a block. -/
structure Spawns (L : Layout) (s : HeapTrace) (rs rs' : List PageRun)
    (free free' : SizeClass → List Nat) (pid stackSize : Nat) (args : List (List UInt8))
    (origin ρ : Nat) (p : LoadedTask) : Prop where
  root : p.top = 4096 * ρ
  table : NewTable L s rs free pid ρ p.table
  inv : ArgsInv L ((s.at (p.stack L stackSize).kernel).allocated L (8 * args.length) origin) rs'
    free' ρ p.table p.args
  heap : p.heap = (s.spawned L stackSize args origin p).heap
  more : ∀ n, HeapPage L rs n → HeapPage L rs' n
  new : ∀ n, HeapPage L rs' n → HeapPage L rs n ∨ FreePage L s.heap.kernel n

theorem Prepares.spawns {L : Layout} (hL : L.WellFormed) {s : HeapTrace} {rs rs' : List PageRun}
    {free free' : SizeClass → List Nat} {pid stackSize : Nat} {args : List (List UInt8)}
    {origin ρ : Nat} {p : LoadedTask} {argsNew : Nat} {k : Kernel}
    (h : Prepares L s rs rs' free free' pid stackSize args origin ρ p argsNew k) :
    Spawns L s rs rs' free free' pid stackSize args origin ρ p := by
  have hok := h.failed
  have hfinal := h.final
  refine ⟨h.root, h.table, ?_, h.heap, h.more, h.new⟩
  rw [hfinal] at hok ⊢
  exact Working.loadArgs (s := { p.stack L stackSize with kernel := k }) hL h.working h.block hok

end IloPali
