import IloPali.ArgumentPage
import IloPali.LastSlot
import Mathlib.Algebra.Order.BigOperators.Group.List

/-!
# Saved pointers that do not fit

A call of `spawn_task_from_elf` with 33 arguments, for which `malloc` takes a slot of 1024 bytes.
With 251 slots in use the block is large enough.  With 252 it is the last slot of the region, and
the page behind the region is the root of the new task's table: the pointers from the thirteenth on
are saved over its entries.
-/

namespace IloPali

open ByteMemory

/-! ## 1. A new table -/

/-- The entries of the upper half, all of them at once. -/
def topHalf (top n i : Nat) (m : Mem) : Mem :=
  patch m (top + 8 * i) (8 * n) fun x =>
    UInt8.ofNat ((directMapEntry (i + x / 8)).toNat / 256 ^ (x % 8))

theorem fillTopHalf_eq {top : Nat} (n i : Nat) {k : Kernel} (hdir : Direct k.mmu top) :
    fillTopHalf top n i k = { k with mem := topHalf (physOf k.mmu top) n i k.mem } := by
  induction n generalizing i k with
  | zero => simp [fillTopHalf, topHalf]
  | succ n ih =>
    have hset : k.setEntry (top + 8 * i) (directMapEntry i) =
        { k with mem := store k.mem 8 (physOf k.mmu top + 8 * i) (directMapEntry i).toNat } := by
      rw [Kernel.setEntry, Kernel.store, hdir.physOf_add]
    generalize hphys : physOf k.mmu top = phys at hset ⊢
    have hrest := @ih (i + 1)
      { k with mem := store k.mem 8 (phys + 8 * i) (directMapEntry i).toNat } hdir
    have hmmu : Kernel.mmu { k with mem := store k.mem 8 (phys + 8 * i) (directMapEntry i).toNat } =
        k.mmu := rfl
    rw [hmmu, hphys] at hrest
    rw [fillTopHalf, hset, hrest]
    congr 1
    funext x
    unfold topHalf store patch
    dsimp only
    by_cases hnext : phys + 8 * (i + 1) ≤ x ∧ x < phys + 8 * (i + 1) + 8 * n
    · have hindex : i + (x - (phys + 8 * i)) / 8 = i + 1 + (x - (phys + 8 * (i + 1))) / 8 := by omega
      have hbyte : (x - (phys + 8 * i)) % 8 = (x - (phys + 8 * (i + 1))) % 8 := by omega
      rw [if_pos hnext, if_pos (by omega), hindex, hbyte]
    · rw [if_neg hnext]
      by_cases hfirst : phys + 8 * i ≤ x ∧ x < phys + 8 * i + 8
      · have hindex : (x - (phys + 8 * i)) / 8 = 0 := by omega
        have hbyte : (x - (phys + 8 * i)) % 8 = x - (phys + 8 * i) := by omega
        rw [if_pos hfirst, if_pos (by omega), hindex, hbyte, Nat.add_zero]
      · rw [if_neg hfirst, if_neg (by omega)]

/-- `create_mmu_table`, where the direct map shows the page of the root. -/
theorem createMmuTable_topHalf (L : Layout) {k : Kernel} {page : Nat}
    (hpage : (allocPages L 1 k).1 = page) (hshown : k.mmu = true → page < DIRECT_MAP_SIZE) :
    createMmuTable L k = (page, identityMapKernel L page
      { (allocPages L 1 k).2 with mem := topHalf page 256 256 (allocPages L 1 k).2.mem }) := by
  have hmmu : (allocPages L 1 k).2.mmu = k.mmu := by
    rw [Kernel.mmu, allocPages_satp, Kernel.mmu]
  have hphys := physOf_phys2safe_add hshown 0
  have hdir : Direct (allocPages L 1 k).2.mmu (phys2safe k.mmu page) := by
    intro hon
    rw [hmmu] at hon
    rw [hon, phys2safe_on (hshown hon)]
    exact Nat.le_add_right _ _
  have hfill := fillTopHalf_eq 256 256 hdir
  unfold createMmuTable
  rcases hcall : allocPages L 1 k with ⟨page', k'⟩
  rw [hcall] at hpage hmmu hfill
  obtain rfl : page' = page := hpage
  rw [Nat.add_zero, Nat.add_zero, ← hmmu] at hphys
  dsimp only [MMU_ENTRY_COUNT, MMU_TOP_HALF] at hmmu hfill ⊢
  rw [← hmmu, hphys] at hfill
  have hmmu' : Kernel.mmu { k' with mem := topHalf page' 256 256 k'.mem } = k'.mmu := rfl
  rw [hfill, hmmu']
  have hsafe : safe2phys k'.mmu (phys2safe k'.mmu page') = page' := hphys
  rw [hsafe]

/-! ## 2. The call -/

/-- An executable with one writable segment of 16 bytes at 0x1fffe010; with a stack of one page
    the arguments begin at 0x20000000. -/
def lowSegment (x : Nat) : UInt8 :=
  if x = 0x90000010 then 2
  else if x = 0x90000020 then 64
  else if x = 0x90000036 then 56
  else if x = 0x90000038 then 1
  else if x = 0x90000040 then 1
  else if x = 0x90000044 then 6
  else if x = 0x90000050 ∨ x = 0x90000068 then 16
  else if x = 0x90000051 then 0xe0
  else if x = 0x90000052 then 0xff
  else if x = 0x90000053 then 0x1f
  else 0

/-- Where the kernel sees it. -/
def lowHeader : Nat := 0xffffffc090000000

/-- A string of ten characters, and 32 empty ones. -/
def manyArgs : List (List UInt8) := List.replicate 10 65 :: List.replicate 32 []

/-- The task that is loaded with `n` slots in use. -/
def crowdedTask (n : Nat) : LoadedTask :=
  spawnTask .small 1 lowHeader 1 manyArgs 0 (slotsHeap n lowSegment)

/-- The call of `malloc`. -/
def crowdedBlock (n : Nat) : Nat × Heap :=
  malloc .small (8 * manyArgs.length % 2 ^ 64) 0
    { slotsHeap n lowSegment with kernel := ((crowdedTask n).stack .small 1).kernel }

/-- The state before the arguments. -/
def crowdedLoad (n : Nat) : Load :=
  { (crowdedTask n).stack .small 1 with kernel := (crowdedBlock n).2.kernel }

/-- The first window. -/
def crowdedWindow (n : Nat) : Args :=
  Args.nextPage .small (crowdedTask n).top ⟨crowdedLoad n, 0, 0, 0, (crowdedLoad n).maxPage⟩

section Crowded

set_option maxRecDepth 100000

theorem crowded_page {n : Nat} (hn : n = 251 ∨ n = 252) :
    (allocPages .small 1 (slotsHeap n lowSegment).kernel).1 = 4096 * 0x80242 := by
  rcases hn with rfl | rfl
  · decide +kernel
  · decide +kernel

theorem crowded_top {n : Nat} (hn : n = 251 ∨ n = 252) :
    (crowdedTask n).top = 4096 * 0x80242 ∧
      ((crowdedTask n).stack .small 1).maxPage = 0x20000000 := by
  unfold crowdedTask spawnTask taskTable
  rw [createMmuTable_topHalf _ (crowded_page hn) (fun _ => by decide)]
  rcases hn with rfl | rfl
  · decide +kernel
  · decide +kernel

theorem crowded_block {n : Nat} (hn : n = 251 ∨ n = 252) :
    (crowdedBlock n).1 = slotAt n + 32 := by
  unfold crowdedBlock crowdedTask spawnTask taskTable
  rw [createMmuTable_topHalf _ (crowded_page hn) (fun _ => by decide)]
  rcases hn with rfl | rfl
  · decide +kernel
  · decide +kernel

theorem crowded_window {n : Nat} (hn : n = 251 ∨ n = 252) :
    (crowdedWindow n).load.kernel.satp = 0x8000000000090001#64 ∧
      (crowdedWindow n).load.kernel.failed = 0 ∧ (crowdedWindow n).virtAddr = 0x20000000 ∧
      0xffffffc080243000 ≤ (crowdedWindow n).physical := by
  unfold crowdedWindow crowdedLoad crowdedBlock crowdedTask spawnTask taskTable
  rw [createMmuTable_topHalf _ (crowded_page hn) (fun _ => by decide)]
  rcases hn with rfl | rfl
  · decide +kernel
  · decide +kernel

theorem crowded_above {n : Nat} (hn : n = 251 ∨ n = 252) :
    mmuEntryValid (leaf ((crowdedTask n).stack .small 1).kernel.mem 0x80242 (getVpns 0x20000000)) =
      false := by
  unfold crowdedTask spawnTask taskTable
  rw [createMmuTable_topHalf _ (crowded_page hn) (fun _ => by decide)]
  rcases hn with rfl | rfl
  · decide +kernel
  · decide +kernel

end Crowded

/-! ## 3. What it leaves behind -/

/-- The loops over the arguments, as a call runs them. -/
theorem spawnTask_loadArgs (L : Layout) (pid header stackSize : Nat) (args : List (List UInt8))
    (origin : Nat) (h : Heap) (p : LoadedTask) (block : Nat × Heap) (s : Load)
    (hp : p = spawnTask L pid header stackSize args origin h)
    (hblock : block = malloc L (8 * args.length % 2 ^ 64) origin
      { h with kernel := (p.stack L stackSize).kernel })
    (hs : s = { p.stack L stackSize with kernel := block.2.kernel }) :
    p.heap.kernel = (loadArgs L p.top block.1 args s).1.load.kernel ∧
      p.loaded.argv = .ofNat 64 (loadArgs L p.top block.1 args s).2 := by
  subst hs hblock hp
  exact ⟨rfl, rfl⟩

theorem stringsSize_take_le (args : List (List UInt8)) (j : Nat) :
    stringsSize (args.take j) ≤ stringsSize args :=
  ((List.take_sublist j args).map _).sum_le_sum fun _ _ => Nat.zero_le _

theorem crowded_loadArgs {n : Nat} (hn : n = 251 ∨ n = 252) :
    (crowdedTask n).heap.kernel.satp = 0x8000000000090001#64 ∧
      (crowdedTask n).heap.kernel.failed = 0 ∧ (crowdedTask n).loaded.argv = 0x20000030#64 ∧
      ∀ j, j < 33 → load (crowdedTask n).heap.kernel.mem 8 (0x80201020 + 1056 * n + 8 * j) =
        0x20000000 + stringsSize (manyArgs.take j) := by
  obtain ⟨hk, hv⟩ := spawnTask_loadArgs .small 1 lowHeader 1 manyArgs 0 (slotsHeap n lowSegment)
    (crowdedTask n) (crowdedBlock n) (crowdedLoad n) rfl rfl rfl
  obtain ⟨hsatp, hfailed, hvirt, hphys⟩ := crowded_window hn
  have hblock := crowded_block hn
  have hon : (crowdedWindow n).load.kernel.mmu = true := by
    rw [Kernel.mmu, hsatp]
    decide
  have hapart : (crowdedWindow n).Apart (crowdedBlock n).1 manyArgs.length := by
    refine ⟨fun _ => ?_, fun _ => ?_, Or.inl ?_⟩
    · rw [KERNEL_SPACE_OFFSET]
      omega
    · rw [hblock, slotAt_eq, KERNEL_SPACE_OFFSET]
      omega
    · have hlength : manyArgs.length = 33 := by decide
      rw [hblock, slotAt_eq, hlength]
      omega
  have hwindow : Args.nextPage .small (crowdedTask n).top
      ⟨crowdedLoad n, 0, 0, 0, (crowdedLoad n).maxPage⟩ = crowdedWindow n := rfl
  have hpage := @loadArgs_onePage .small (crowdedTask n).top (crowdedBlock n).1 manyArgs
    (crowdedLoad n) (by decide) hapart
  dsimp only at hpage
  rw [hwindow] at hpage
  obtain ⟨h1, h2, h3, h4⟩ := hpage
  have hsatp' : (crowdedTask n).heap.kernel.satp = 0x8000000000090001#64 := by
    rw [hk, h1]
    exact hsatp
  have hmmu : (crowdedTask n).heap.kernel.mmu = true := by
    rw [Kernel.mmu, hsatp']
    decide
  refine ⟨hsatp', ?_, ?_, fun j hj => ?_⟩
  · rw [hk, h2]
    exact hfailed
  · have hsize : stringsSize manyArgs = 43 := by decide
    rw [hv, h3, hvirt, hsize]
    decide
  · have hsaved := h4 j hj
    have hsum := stringsSize_take_le manyArgs j
    rw [show stringsSize manyArgs = 43 by decide] at hsum
    have hoffset : (crowdedWindow n).offset = 0 := nextPage_offset _ _ _
    have hphys : physOf true (slotAt n + 32 + 8 * j) = 0x80201020 + 1056 * n + 8 * j := by
      rw [physOf, slotAt_eq, safe2phys_on (by rw [KERNEL_SPACE_OFFSET]; omega), KERNEL_SPACE_OFFSET]
      omega
    rw [← hk, Kernel.load, hmmu, hblock, hphys] at hsaved
    rw [hsaved, savedPointer, hvirt, hoffset, Nat.add_zero, Nat.mod_eq_of_lt (by omega)]

/-- With 252 slots in use the root of the table holds saved pointers. -/
theorem crowded_root {i : Fin 512} (hi : i.val < 21) :
    cells (crowdedTask 252).heap.kernel.mem 0x80242 i =
      .ofNat 64 (0x20000000 + stringsSize (manyArgs.take (12 + i.val))) := by
  obtain ⟨_, _, _, hsaved⟩ := crowded_loadArgs (Or.inr (Eq.refl 252))
  have hword := hsaved (12 + i.val) (by omega)
  have haddr : 0x80201020 + 1056 * 252 + 8 * (12 + i.val) = 4096 * 0x80242 + 8 * i.val := by
    omega
  rw [haddr] at hword
  rw [cells, hword]

section Call

variable {n : Nat} (hn : n = 251 ∨ n = 252)

theorem crowded_ready (h1 : 1 ≤ n) (hn : n ≤ 252) :
    Ready .small (slotsTrace n lowSegment) [slotsRun] (slotsFree n) 1 :=
  ⟨slots_useInv lowSegment h1 hn, fun h => nomatch h⟩

include hn

theorem crowded_spawn : spawnTaskFromElf .small lowHeader 1 manyArgs 0 twoSlots
    (slotsHeap n lowSegment) =
      (some 1, installTask twoSlots 1 (crowdedTask n).loaded, (crowdedTask n).heap) := by
  have htype : elfType (slotsHeap n lowSegment).kernel lowHeader = ELF_EXECUTABLE := by
    rcases hn with rfl | rfl
    · decide +kernel
    · decide +kernel
  have hslot : freeSlot twoSlots = some 1 := by decide
  unfold spawnTaskFromElf crowdedTask
  rw [if_neg (fun hne => hne htype), hslot]

theorem crowded_aboveUnmapped : (crowdedTask n).AboveUnmapped .small 1 manyArgs := by
  obtain ⟨htop, hmax⟩ := crowded_top hn
  intro j hj
  have hsize : argumentsSize manyArgs = 312 := by decide
  have hzero : j = 0 := by
    rw [hsize, PAGE_SIZE] at hj
    omega
  have hpage := @stack_maxPage .small 1 1 lowHeader 0 manyArgs (slotsHeap n lowSegment) 0
  have hmax' : ((spawnTask .small 1 lowHeader 1 manyArgs 0 (slotsHeap n lowSegment)).stack .small
      1).maxPage = 0x20000000 := hmax
  rw [hmax'] at hpage
  subst hzero
  have hpage' : (crowdedTask n).stackPage (1 + 0) = 0x20000000 := hpage
  rw [hpage', htop, root_page]
  refine ⟨by decide, ?_⟩
  rintro (hhigh | hvalid)
  · exact absurd hhigh (by decide)
  · rw [crowded_above hn] at hvalid
    exact Bool.noConfusion hvalid

end Call

/-- With 251 slots in use there is a formatted slot left. -/
theorem crowded_holds : (slotsTrace 251 lowSegment).Holds .small (8 * manyArgs.length) := by
  have hsize : 8 * manyArgs.length = 264 := by decide
  have hclass : sizeClass 264 = some .free1024 := by decide
  rw [hsize]
  refine ⟨by decide, fun m hm => ?_, fun c hc _ hzero => ?_⟩
  · have hnone : requestedPages (slotsHeap 251 lowSegment) 264 = none := by decide
    exact nomatch hnone.symm.trans hm
  · obtain rfl := Option.some.inj (hclass.symm.trans hc)
    have hheader := Kernel.size_of_header (slotsHeap_header 251 lowSegment (by decide : 251 < 252))
    exact nomatch hheader.symm.trans hzero

theorem manyArgs_noZero : ∀ arg ∈ manyArgs, 0 ∉ arg := by decide

/-- With 251 slots in use the arguments are where they should be. -/
theorem argument_vector_crowded :
    HasArguments (crowdedTask 251).heap.kernel.mem
      ((installTask twoSlots 1 (crowdedTask 251).loaded).tasks 1) manyArgs := by
  have hn : 251 = 251 ∨ 251 = 252 := Or.inl rfl
  obtain ⟨_, hfailed, _, _⟩ := crowded_loadArgs hn
  exact argument_vector_when .small Layout.small_wellFormed (slotsTrace 251 lowSegment) [slotsRun]
    (slotsFree 251) twoSlots _ _ 1 lowHeader 1 manyArgs 0 (crowded_ready (by decide) (by decide))
    (crowded_spawn hn) hfailed (crowded_aboveUnmapped hn) manyArgs_noZero crowded_holds

/-- **With 252 slots in use** no page allocation fails, `malloc` returns a block, and the task cannot
    read its argument vector: the entry for it in the root of its table is the pointer to the
    thirteenth string, and not valid. -/
theorem argument_vector_overrun :
    Ready .small (slotsTrace 252 lowSegment) [slotsRun] (slotsFree 252) 1 ∧
    (crowdedBlock 252).1 ≠ 0 ∧ (∀ arg ∈ manyArgs, 0 ∉ arg) ∧
    (spawnTask .small 1 lowHeader 1 manyArgs 0 (slotsHeap 252 lowSegment)).AboveUnmapped .small 1
      manyArgs ∧
    ∃ sys' h', spawnTaskFromElf .small lowHeader 1 manyArgs 0 twoSlots (slotsHeap 252 lowSegment) =
        (some 1, sys', h') ∧
      h'.kernel.failed = (slotsHeap 252 lowSegment).kernel.failed ∧
      ¬ HasArguments h'.kernel.mem (sys'.tasks 1) manyArgs := by
  have hn : 252 = 251 ∨ 252 = 252 := Or.inr rfl
  obtain ⟨_, hfailed, hargv, _⟩ := crowded_loadArgs hn
  refine ⟨crowded_ready (by decide) (by decide), ?_, manyArgs_noZero, crowded_aboveUnmapped hn, _, _,
    crowded_spawn hn, hfailed, ?_⟩
  · rw [crowded_block hn, slotAt_eq]
    decide
  · rintro ⟨_, _, ptrs, hbytes, hptrs⟩
    obtain ⟨_, hx, hroot⟩ := installTask_args twoSlots 1 (crowdedTask 252).loaded
    have htop : (crowdedTask 252).loaded.top = 4096 * 0x80242 := (crowded_top hn).1
    rw [hx, hroot, hargv, htop, root_page] at hbytes
    have hlength := hptrs.length_eq
    cases ptrs with
    | nil => exact absurd hlength (by decide)
    | cons ptr ptrs =>
      -- the first byte of the vector
      have hbyte := userBytes_iff.mp hbytes 0 (by simp)
      have hcell := crowded_root (i := 0) (by decide)
      have hnone : translation (crowdedTask 252).heap.kernel.mem 0x80242 0x20000030 = none := by
        have hvpn : (getVpns 0x20000030).vpn0 = 0 := by decide
        have hinvalid : mmuEntryValid (cells (crowdedTask 252).heap.kernel.mem 0x80242 0) = false := by
          rw [hcell]
          decide
        unfold translation denote translate
        rw [hvpn, hinvalid]
        simp
      have hargv' : (0x20000030#64).toNat + 0 = 0x20000030 := by decide
      rw [hargv', userByte, hnone] at hbyte
      exact absurd hbyte (Option.some_ne_none _).symm

end IloPali
