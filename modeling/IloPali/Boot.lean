import IloPali.RefCount
import IloPali.PageOwnership

/-!
# Setting up the page heap (`init_pages`, `mark_as_used`)

`kinit` lays the page heap out from the size of RAM and then reserves the pages
that hold the device tree and the initial ramdisk.  Both computations mix bytes
and pages.  This module proves exactly for which machines the counted pages lie
in RAM, and exactly for which positions of the two blobs the reservations hold.
-/

namespace IloPali

open ByteMemory Transition

/-! ## 1. The code -/

/-- The number of pages `init_pages` gives to the refcount table; the difference of
    the two `page_t*` counts pages. -/
def pageRcCount (pagesBottom memoryStart size : Nat) : Nat :=
  (size + 2 ^ 64 - (pagesBottom - memoryStart) / PAGE_SIZE) % 2 ^ 64 / PAGE_SIZE / PAGE_SIZE * 2

/-- The `heap_bottom` that `init_pages` computes. -/
def initHeapBottom (pagesBottom memoryStart size : Nat) : Nat :=
  (pagesBottom + PAGE_SIZE * pageRcCount pagesBottom memoryStart size) % 2 ^ 64

def Layout.initPages (L : Layout) (memoryStart size : Nat) : Layout :=
  { L with heapBottom := initHeapBottom L.pagesBottom memoryStart size }

/-- The loop of `init_pages`, over the table of the new layout. -/
def clearTable (L : Layout) (k : Kernel) : Kernel :=
  if L.pagesBottom < L.heapBottom then k.clear L.pagesBottom (L.heapBottom - L.pagesBottom) else k

/-- `mark_as_used`. -/
def markAsUsed (L : Layout) (page size : Nat) (k : Kernel) : Kernel :=
  let p := pageRefCount L page
  if p = 0 then k else markEntries ((size + PAGE_SIZE - 1) % 2 ^ 64 / PAGE_SIZE) p k

/-- A number of bytes in pages, rounded up, as `kinit` computes it. -/
def pagesOf (bytes : Nat) : Nat := (bytes + PAGE_SIZE - 1) / PAGE_SIZE

/-- The device tree (`devicetree.header` and its `totalsize`) and the initial ramdisk. -/
structure BootBlobs where
  header : Nat
  totalsize : Nat
  initrdStart : Nat
  initrdEnd : Nat

/-- The two reservations of `kinit`.  `devicetree` is the address of its local variable
    of that name. -/
def bootReserve (L : Layout) (devicetree : Nat) (b : BootBlobs) (k : Kernel) : Kernel :=
  markAsUsed L b.initrdStart (pagesOf (b.initrdEnd - b.initrdStart))
    (markAsUsed L devicetree (pagesOf b.totalsize) k)

/-! ## 2. The heap in RAM -/

/-- Every counted page lies in RAM, and the refcount table meets none of them. -/
def HeapInRam (L : Layout) (memoryStart size : Nat) : Prop :=
  ∀ i, i < L.entryCount →
    (memoryStart ≤ L.pageAddr i ∧ L.pageAddr i + PAGE_SIZE ≤ memoryStart + size) ∧
      ∀ x, L.pageAddr i ≤ x → x < L.pageAddr i + PAGE_SIZE → ¬ InTable L x

/-- How many times 16 MiB of pages `init_pages` counts. -/
def heapChunks (pagesBottom memoryStart size : Nat) : Nat :=
  (size - (pagesBottom - memoryStart) / PAGE_SIZE) / 2 ^ 24

theorem pageRcCount_eq {pagesBottom memoryStart size : Nat} (h1 : memoryStart ≤ pagesBottom)
    (h2 : pagesBottom < memoryStart + size) (h3 : size < 2 ^ 64) :
    pageRcCount pagesBottom memoryStart size = 2 * heapChunks pagesBottom memoryStart size := by
  rw [pageRcCount, heapChunks, PAGE_SIZE]
  have hq : (pagesBottom - memoryStart) / 4096 ≤ size := by omega
  generalize (pagesBottom - memoryStart) / 4096 = q at hq
  have hmod : (size + 2 ^ 64 - q) % 2 ^ 64 = size - q := by omega
  rw [hmod]
  omega

-- comparing `L.initPages ..` with `L` itself would evaluate the arithmetic: unfold it first
theorem initPages_pagesBottom (L : Layout) (memoryStart size : Nat) :
    (L.initPages memoryStart size).pagesBottom = L.pagesBottom := by
  rw [Layout.initPages]

theorem initPages_heapBottom {L : Layout} {memoryStart size c : Nat}
    (h : pageRcCount L.pagesBottom memoryStart size = 2 * c) :
    (L.initPages memoryStart size).heapBottom = (L.pagesBottom + 8192 * c) % 2 ^ 64 := by
  show initHeapBottom L.pagesBottom memoryStart size = _
  have hsize : PAGE_SIZE * (2 * c) = 8192 * c := by
    rw [PAGE_SIZE]
    omega
  rw [initHeapBottom, h, hsize]

theorem initPages_entryCount {L : Layout} {memoryStart size c : Nat}
    (h : pageRcCount L.pagesBottom memoryStart size = 2 * c) :
    (L.initPages memoryStart size).entryCount =
      ((L.pagesBottom + 8192 * c) % 2 ^ 64 - L.pagesBottom) / 2 := by
  rw [Layout.entryCount, initPages_heapBottom h, initPages_pagesBottom]

theorem heapChunks_lt {pagesBottom memoryStart size : Nat} (h : size < 2 ^ 64) :
    heapChunks pagesBottom memoryStart size < 2 ^ 40 := by
  have hle : size - (pagesBottom - memoryStart) / PAGE_SIZE ≤ size := Nat.sub_le _ _
  unfold heapChunks
  generalize size - (pagesBottom - memoryStart) / PAGE_SIZE = len at hle ⊢
  omega

/-- **The page heap in RAM.**  For every RAM and every kernel image in it, the counted
    pages lie in RAM exactly when the chunks of 16 MiB, their share of the table and
    what comes before the heap fit into it, or no page is counted at all. -/
theorem heap_in_ram_iff (L : Layout) (memoryStart size : Nat)
    (h1 : memoryStart ≤ L.pagesBottom) (h2 : L.pagesBottom < memoryStart + size)
    (h3 : size < 2 ^ 64) (h4 : memoryStart + size ≤ 2 ^ 64) :
    HeapInRam (L.initPages memoryStart size) memoryStart size ↔
      (heapChunks L.pagesBottom memoryStart size = 0 ∨
        L.pagesBottom - memoryStart +
          heapChunks L.pagesBottom memoryStart size * (2 ^ 24 + 8192) ≤ size ∨
        2 ^ 64 ≤ L.pagesBottom + heapChunks L.pagesBottom memoryStart size * 8192) := by
  have hrc := pageRcCount_eq h1 h2 h3
  have hchunks := @heapChunks_lt L.pagesBottom memoryStart size h3
  generalize heapChunks L.pagesBottom memoryStart size = c at hrc hchunks ⊢
  have hheap := initPages_heapBottom hrc
  have hcount := initPages_entryCount hrc
  by_cases hwrap : 2 ^ 64 ≤ L.pagesBottom + c * 8192
  · -- `heap_bottom` wraps around, and the table is empty
    refine ⟨fun _ => Or.inr (Or.inr hwrap), fun _ i hi => ?_⟩
    rw [hcount] at hi
    omega
  · rw [Nat.mod_eq_of_lt (by omega)] at hheap hcount
    have haddr : ∀ i, (L.initPages memoryStart size).pageAddr i =
        L.pagesBottom + 8192 * c + 4096 * i := fun i => by rw [pageAddr_eq, hheap]
    have hentries : (L.initPages memoryStart size).entryCount = 4096 * c := by
      rw [hcount]
      omega
    constructor
    · intro h
      by_cases hc : c = 0
      · exact Or.inl hc
      · -- the last counted page is in RAM
        obtain ⟨⟨_, hlast⟩, _⟩ := h (4096 * c - 1) (by omega)
        rw [haddr, PAGE_SIZE] at hlast
        exact Or.inr (Or.inl (by omega))
    · intro h i hi
      rw [hentries] at hi
      refine ⟨⟨?_, ?_⟩, fun x hx _ hin => ?_⟩
      · rw [haddr]
        omega
      · rw [haddr, PAGE_SIZE]
        omega
      · have htop := hin.2
        rw [hheap] at htop
        rw [haddr] at hx
        omega

/-- A machine with 1 GiB of RAM, where the heap fits. -/
theorem heap_in_ram_board :
    HeapInRam (Layout.board.initPages 0x80000000 0x40000000) 0x80000000 0x40000000 :=
  (heap_in_ram_iff .board 0x80000000 0x40000000 (by decide) (by decide) (by decide)
    (by decide)).mpr (Or.inr (Or.inl (by decide)))

/-- One page more than 256 MiB, and the last counted page lies behind the end of RAM. -/
theorem heap_past_ram :
    ¬ HeapInRam (Layout.board.initPages 0x80000000 0x10001000) 0x80000000 0x10001000 := by
  intro h
  obtain ⟨⟨_, hlast⟩, _⟩ := h 65535 (by decide +kernel)
  exact absurd hlast (by decide +kernel)

/-! ## 3. What the reservations promise -/

namespace BootBlobs

/-- The address holds a byte of the device tree or of the initial ramdisk. -/
def Has (b : BootBlobs) (x : Nat) : Prop :=
  (b.header ≤ x ∧ x < b.header + b.totalsize) ∨ (b.initrdStart ≤ x ∧ x < b.initrdEnd)

/-- Page `i` of the heap holds such a byte. -/
def Meets (L : Layout) (b : BootBlobs) (i : Nat) : Prop :=
  ∃ x, b.Has x ∧ L.pageAddr i ≤ x ∧ x < L.pageAddr i + PAGE_SIZE

/-- The page of the heap in which the initial ramdisk starts. -/
def first (L : Layout) (b : BootBlobs) : Nat := (b.initrdStart - L.heapBottom) / PAGE_SIZE

/-- One entry for every 4096 pages of the initial ramdisk. -/
def marked (b : BootBlobs) : Nat := pagesOf (pagesOf (b.initrdEnd - b.initrdStart))

/-- Entry `i` is one of those that `kinit` marks. -/
def Marks (L : Layout) (b : BootBlobs) (i : Nat) : Prop :=
  L.heapBottom < b.initrdStart ∧ b.first L ≤ i ∧ i < b.first L + b.marked

end BootBlobs

/-- No page handed out in any later run holds a byte of a blob, and the reservations
    wrote to the refcount table only. -/
def BootReserved (L : Layout) (devicetree : Nat) (b : BootBlobs) : Prop :=
  ∀ k : Kernel, k.mmu = false → (∀ i, i < L.entryCount → rc L k i = 0) →
    (∀ ops s,
      Run (guarded (fun s _ => L.Reachable s.kernel.mmu) (PageStep L))
        (.initial (bootReserve L devicetree b k)) ops s →
      ∀ r ∈ s.live, ∀ x, r.Has x → ¬ b.Has x) ∧
    ∀ x, ¬ InTable L x → (bootReserve L devicetree b k).mem x = k.mem x

/-! ## 4. What the reservations do -/

theorem pageRefCount_above {L : Layout} (hL : L.WellFormed) {page : Nat}
    (h : L.heapBottom < page) (hpage : page ≤ 2 ^ 56) :
    pageRefCount L page = L.pagesBottom + 2 * ((page - L.heapBottom) / PAGE_SIZE) := by
  obtain ⟨hpos, hb, hend, _⟩ := hL.bounds
  have hdiff : (page : Int) - (L.heapBottom : Int) = ((page - L.heapBottom : Nat) : Int) := by omega
  have hidx : Int.tdiv (((page - L.heapBottom : Nat) : Int)) PAGE_SIZE =
      (((page - L.heapBottom) / PAGE_SIZE : Nat) : Int) := rfl
  have hle : (page - L.heapBottom) / PAGE_SIZE ≤ page - L.heapBottom := Nat.div_le_self _ _
  rw [pageRefCount, if_pos h, intptr_of_lt (by omega), intptr_of_lt (by omega), hdiff, hidx]
  generalize (page - L.heapBottom) / PAGE_SIZE = q at hle ⊢
  rw [show (L.pagesBottom : Int) + 2 * (q : Int) = ((L.pagesBottom + 2 * q : Nat) : Int) by omega,
    uintptr_of_nonneg (by omega)]

/-- `kinit` passes the address of a variable on its stack, and nothing is marked. -/
theorem markAsUsed_stack {L : Layout} {page size : Nat} {k : Kernel}
    (h : page ≤ L.heapBottom) : markAsUsed L page size k = k := by
  rw [markAsUsed, pageRefCount, if_neg (Nat.not_lt.mpr h)]
  exact if_pos rfl

theorem pagesOf_le (n : Nat) : pagesOf n ≤ n := by
  rw [pagesOf, PAGE_SIZE]
  omega

/-- Only the second reservation marks anything, and it marks what it counts in
    pages of pages. -/
theorem bootReserve_eq {L : Layout} (hL : L.WellFormed) {devicetree : Nat}
    (hstack : devicetree < L.stackTop) {b : BootBlobs} (hstart : b.initrdStart ≤ b.initrdEnd)
    (hend : b.initrdEnd ≤ 2 ^ 56) (k : Kernel) :
    bootReserve L devicetree b k =
      if L.heapBottom < b.initrdStart then
        markEntries b.marked (L.pagesBottom + 2 * b.first L) k
      else k := by
  obtain ⟨hpos, _⟩ := hL.bounds
  obtain ⟨_, _, _, _, _, _, htop⟩ := hL.image
  have htable := hL.table_nonneg
  have hlow : devicetree ≤ L.heapBottom := by omega
  rw [bootReserve, markAsUsed_stack hlow]
  by_cases h : L.heapBottom < b.initrdStart
  · have hsize : pagesOf (b.initrdEnd - b.initrdStart) ≤ 2 ^ 56 :=
      (pagesOf_le _).trans (by omega)
    rw [if_pos h, markAsUsed, pageRefCount_above hL h (by omega)]
    rw [if_neg (by omega), BootBlobs.marked, BootBlobs.first]
    generalize pagesOf (b.initrdEnd - b.initrdStart) = n at hsize ⊢
    rw [pagesOf, Nat.mod_eq_of_lt (by rw [PAGE_SIZE]; omega)]
  · rw [if_neg h, markAsUsed_stack (Nat.not_lt.mp h)]

theorem store_mem_off {k : Kernel} (hmmu : k.mmu = false) (n ptr v : Nat) :
    (k.store n ptr v).mem = ByteMemory.store k.mem n ptr v := by
  rw [Kernel.store, hmmu, physOf_off]

/-- Marking entries writes nothing below them. -/
theorem markEntries_below {n q x : Nat} {k : Kernel} (hmmu : k.mmu = false) (hx : x < q) :
    (markEntries n q k).mem x = k.mem x := by
  induction n generalizing q k with
  | zero => rfl
  | succ n ih =>
    have hmmu' : (k.store 2 q 1).mmu = false := hmmu
    rw [markEntries, ih hmmu' (by omega), store_mem_off hmmu]
    exact patch_outside _ _ (Or.inl hx)

/-- Every entry from `q` on is written, wherever it lies. -/
theorem markEntries_writes {n q j : Nat} {k : Kernel} (hmmu : k.mmu = false) (hj : j < n) :
    (markEntries n q k).mem (q + 2 * j) = 1 := by
  induction n generalizing q k j with
  | zero => exact absurd hj (Nat.not_lt_zero j)
  | succ n ih =>
    have hmmu' : (k.store 2 q 1).mmu = false := hmmu
    rw [markEntries]
    cases j with
    | zero =>
      rw [Nat.mul_zero, Nat.add_zero q, markEntries_below (x := q) hmmu' (by omega),
        store_mem_off hmmu, ByteMemory.store, patch_inside _ _ (le_refl q) (by omega), Nat.sub_self]
      rfl
    | succ j =>
      rw [show q + 2 * (j + 1) = q + 2 + 2 * j by omega]
      exact ih hmmu' (by omega)

/-- The entries that are nonzero after the reservations are the marked ones. -/
theorem bootReserve_spec {L : Layout} (hL : L.WellFormed) {devicetree : Nat}
    (hstack : devicetree < L.stackTop) {b : BootBlobs} (hstart : b.initrdStart ≤ b.initrdEnd)
    (hend : b.initrdEnd ≤ 2 ^ 56) (hroom : L.heapBottom < b.initrdStart → b.marked = 0 ∨
      b.first L + b.marked ≤ L.entryCount) {k : Kernel} (hclear : ∀ i, i < L.entryCount → rc L k i = 0) :
    (∀ i, i < L.entryCount → (rc L (bootReserve L devicetree b k) i ≠ 0 ↔ b.Marks L i)) ∧
    (∀ x, ¬ InTable L x → (bootReserve L devicetree b k).mem x = k.mem x) ∧
    (bootReserve L devicetree b k).satp = k.satp := by
  rw [bootReserve_eq hL hstack hstart hend]
  by_cases h : L.heapBottom < b.initrdStart
  · rw [if_pos h]
    rcases hroom h with hzero | hroom
    · rw [hzero]
      refine ⟨fun i hi => ⟨fun hne => absurd (hclear i hi) hne, fun hmarks => ?_⟩, fun _ _ => rfl, rfl⟩
      obtain ⟨_, hle, hlt⟩ := hmarks
      omega
    · obtain ⟨hrc, hmem⟩ := markEntries_spec hL hroom k
      refine ⟨fun i hi => ?_, hmem, markEntries_satp _ _ _⟩
      rw [hrc i, hclear i hi]
      constructor
      · intro hne
        by_cases hin : b.first L ≤ i ∧ i < b.first L + b.marked
        · exact ⟨h, hin⟩
        · rw [if_neg hin] at hne
          exact absurd rfl hne
      · rintro ⟨_, hin⟩
        rw [if_pos hin]
        exact one_ne_zero
  · rw [if_neg h]
    exact ⟨fun i hi => ⟨fun hne => absurd (hclear i hi) hne, fun hmarks => absurd hmarks.1 h⟩,
      fun _ _ => rfl, rfl⟩

/-! ## 5. Every later run -/

/-- The range of pages that the reservations protect. -/
def BootBlobs.range (L : Layout) (b : BootBlobs) : PageRange := ⟨L.pageAddr (b.first L), b.marked⟩

/-- A live range is part of what the scan can hand out, which leaves the last page out. -/
def BelowLast (L : Layout) (s : PageState) : Prop :=
  ∀ r ∈ s.live, ∃ i, r.At L i ∧ i + r.count < L.entryCount

theorem BelowLast.step {L : Layout} (hL : L.WellFormed) {s t : PageState} {op : PageOp}
    (hs : BelowLast L s) (hR : L.Reachable s.kernel.mmu) (h : PageStep L s op t) :
    BelowLast L t := by
  cases h with
  | @alloc count page k h1 hN hcall =>
    have hspec := allocPages_spec hL hR h1 (room_of_count hL hN)
    rw [hcall] at hspec
    rcases hspec with ⟨_, hfail⟩ | ⟨i, hpage, hg⟩
    · obtain ⟨rfl, rfl⟩ := Prod.mk.inj hfail
      exact hs
    · dsimp only at hpage hg
      subst hpage
      rw [if_neg (pageAddr_ne_zero hL i)]
      intro r hr
      rcases List.mem_cons.mp hr with rfl | hr
      · exact ⟨i, hg.at h1, hg.bound⟩
      · exact hs r hr
  | dealloc hr hpage => exact fun r hr => hs r (List.mem_of_mem_erase hr)
  | csrwSatp w => exact hs

/-- A range that is never given back can be kept beside a run. -/
theorem PageStep.keep {L : Layout} {s t : PageState} {op : PageOp} (r : PageRange)
    (h : PageStep L s op t) :
    PageStep L ⟨s.kernel, s.live ++ [r]⟩ op ⟨t.kernel, t.live ++ [r]⟩ := by
  cases h with
  | @alloc count page k h1 hN hcall =>
    have hstep := PageStep.alloc (s := ⟨s.kernel, s.live ++ [r]⟩) h1 hN hcall
    split
    · rwa [if_pos (by assumption)] at hstep
    · rwa [if_neg (by assumption)] at hstep
  | @dealloc r' page hr hpage =>
    have hstep := PageStep.dealloc (L := L) (s := ⟨s.kernel, s.live ++ [r]⟩)
      (List.mem_append_left [r] hr) hpage
    rwa [List.erase_append_left _ hr] at hstep
  | csrwSatp w => exact .csrwSatp w

/-- **Reserved pages stay reserved.**  Entries that are marked before a run keep
    their pages out of every range the run hands out. -/
theorem reserved_apart {L : Layout} (hL : L.WellFormed) {k : Kernel} {r : PageRange} {i : Nat}
    (hat : r.At L i) (hcounted : r.Counted L k) {ops : List PageOp} {s : PageState}
    (hrun : Run (guarded (fun s _ => L.Reachable s.kernel.mmu) (PageStep L)) (.initial k) ops s) :
    ∀ r' ∈ s.live, r'.Apart r := by
  have howned : Owned L ⟨k, [r]⟩ :=
    ⟨List.pairwise_singleton _ r,
      fun r' hr' => by rw [List.mem_singleton.mp hr']; exact ⟨i, hat⟩,
      fun r' hr' => by rw [List.mem_singleton.mp hr']; exact hcounted⟩
  obtain ⟨s', hrun', _, hlive⟩ := @Run.simulates _ _ _ _
    (guarded (fun s _ => L.Reachable s.kernel.mmu) (PageStep L))
    (fun s s' : PageState => s'.kernel = s.kernel ∧ s'.live = s.live ++ [r])
    (fun s op t s' hR hstep => by
      obtain ⟨hk, hl⟩ := hR
      obtain ⟨_, _⟩ := s'
      subst hk hl
      exact ⟨_, ⟨hstep.1, hstep.2.keep r⟩, rfl, rfl⟩) _ _ _ hrun ⟨k, [r]⟩ ⟨rfl, rfl⟩
  have hs : Owned L s' :=
    hrun'.invariant (fun _ _ _ hs hstep => hs.step hL hstep.1 hstep.2) howned
  have hpair := hs.apart
  rw [hlive, List.pairwise_append] at hpair
  exact fun r' hr' => hpair.2.2 r' hr' r (List.mem_singleton_self r)

/-- A free page with no free page below it is handed out next. -/
theorem alloc_first_free {L : Layout} (hL : L.WellFormed) {k : Kernel} (hmmu : k.mmu = false)
    {i : Nat} (hi : i + 1 < L.entryCount) (hfree : rc L k i = 0)
    (htaken : ∀ j, j < i → rc L k j ≠ 0) :
    (allocPages L 1 k).1 = L.pageAddr i ∧ Grabbed L i 1 k (allocPages L 1 k).2 := by
  have hR : L.Reachable k.mmu := fun hon => by
    rw [hmmu] at hon
    exact nomatch hon
  have hrun : RunFree L k 1 i := fun j h1 h2 => by
    rw [show j = i by omega]
    exact hfree
  rcases allocPages_spec hL hR (le_refl 1) (room_of_count hL (by omega)) with
    ⟨hnone, _⟩ | ⟨j, hpage, hg⟩
  · exact absurd hrun (hnone i hi)
  · have hj : j = i := by
      rcases Nat.lt_trichotomy j i with hlt | heq | hgt
      · exact absurd (hg.free j (le_refl j) (by omega)) (htaken j hlt)
      · exact heq
      · exact absurd hrun (hg.first i hgt)
    subst hj
    exact ⟨hpage, hg⟩

/-- **Every free page is handed out in the end**, except the last one: `n` is the number
    of pages below it that may still be free. -/
theorem exists_handed_out {L : Layout} (hL : L.WellFormed) {i : Nat} (hi : i + 1 < L.entryCount)
    (n : Nat) (hn : n ≤ i) (s : PageState) (hmmu : s.kernel.mmu = false)
    (hfree : rc L s.kernel i = 0) (htaken : ∀ j, j < i - n → rc L s.kernel j ≠ 0) :
    ∃ ops t, Run (guarded (fun s _ => L.Reachable s.kernel.mmu) (PageStep L)) s ops t ∧
      ⟨L.pageAddr i, 1⟩ ∈ t.live := by
  have hR : L.Reachable s.kernel.mmu := fun hon => by
    rw [hmmu] at hon
    exact nomatch hon
  have hone : 1 ≤ L.entryCount := by omega
  induction n generalizing s with
  | zero =>
    obtain ⟨hpage, _⟩ := alloc_first_free hL hmmu hi hfree htaken
    have hstep := PageStep.alloc_of_page (s := s) (le_refl 1) hone (pageAddr_ne_zero hL i)
      (Prod.ext hpage rfl)
    exact ⟨_, _, .cons ⟨hR, hstep⟩ (.nil _), List.mem_cons_self⟩
  | succ n ih =>
    by_cases hj : rc L s.kernel (i - (n + 1)) = 0
    · -- the page below is handed out first
      obtain ⟨hpage, hg⟩ := alloc_first_free hL hmmu (by omega) hj htaken
      have hstep := PageStep.alloc_of_page (s := s) (le_refl 1) hone (pageAddr_ne_zero hL _)
        (Prod.ext hpage rfl)
      have hmmu' : (allocPages L 1 s.kernel).2.mmu = false := by
        rw [Kernel.mmu, hg.satp]
        exact hmmu
      have hfree' : rc L (allocPages L 1 s.kernel).2 i = 0 := by
        rw [hg.rc_eq i (by omega), if_neg (by omega)]
        exact hfree
      have htaken' : ∀ j, j < i - n → rc L (allocPages L 1 s.kernel).2 j ≠ 0 := by
        intro j hj'
        rw [hg.rc_eq j (by omega)]
        by_cases hnew : i - (n + 1) ≤ j ∧ j < i - (n + 1) + 1
        · rw [if_pos hnew]
          exact one_ne_zero
        · rw [if_neg hnew]
          exact htaken j (by omega)
      obtain ⟨ops, t, hrun, hmem⟩ := ih (by omega) ⟨_, _⟩ hmmu' hfree' htaken' fun hon => by
        rw [hmmu'] at hon
        exact nomatch hon
      exact ⟨_, t, .cons ⟨hR, hstep⟩ hrun, hmem⟩
    · refine ih (by omega) s hmmu hfree (fun j hj' => ?_) hR
      by_cases hlast : j = i - (n + 1)
      · rw [hlast]
        exact hj
      · exact htaken j (by omega)

/-! ## 6. When the reservations hold -/

/-- The reservations hold: every page of the heap that the scan reaches and that holds a
    byte of a blob is marked, and the marked entries are counted ones. -/
structure Covered (L : Layout) (b : BootBlobs) : Prop where
  pages : ∀ i, i + 1 < L.entryCount → b.Meets L i → b.Marks L i
  room : L.heapBottom < b.initrdStart → b.marked = 0 ∨ b.first L + b.marked ≤ L.entryCount

theorem rc_blank (L : Layout) (i : Nat) : rc L .blank i = 0 := load_of_zero fun _ _ _ => rfl

theorem Covered.reserved {L : Layout} (hL : L.WellFormed) {devicetree : Nat}
    (hstack : devicetree < L.stackTop) {b : BootBlobs} (hstart : b.initrdStart ≤ b.initrdEnd)
    (hend : b.initrdEnd ≤ 2 ^ 56) (h : Covered L b) : BootReserved L devicetree b := by
  intro k _ hclear
  obtain ⟨hrc, hmem, _⟩ := bootReserve_spec hL hstack hstart hend h.room hclear
  refine ⟨fun ops s hrun r hr x hx hblob => ?_, hmem⟩
  have hbelow : BelowLast L s :=
    hrun.invariant (fun _ _ _ hs hstep => hs.step hL hstep.1 hstep.2) fun _ hr => nomatch hr
  obtain ⟨i, hat, hlast⟩ := hbelow r hr
  -- the page of the range that holds the byte is marked
  obtain ⟨hlow, hhigh⟩ := (hat.has_iff x).mp hx
  rw [pageAddr_eq] at hlow hhigh
  have hpage : L.pageAddr ((x - L.heapBottom) / PAGE_SIZE) ≤ x ∧
      x < L.pageAddr ((x - L.heapBottom) / PAGE_SIZE) + PAGE_SIZE := by
    rw [pageAddr_eq, PAGE_SIZE]
    omega
  have hj : (x - L.heapBottom) / PAGE_SIZE + 1 < L.entryCount := by
    rw [PAGE_SIZE]
    omega
  generalize (x - L.heapBottom) / PAGE_SIZE = j at hpage hj
  obtain ⟨habove, hfirst, hmarked⟩ := h.pages j hj ⟨x, hblob, hpage⟩
  have hroom : b.first L + b.marked ≤ L.entryCount := by
    rcases h.room habove with hzero | hroom
    · omega
    · exact hroom
  have hrange : (b.range L).At L (b.first L) := ⟨rfl, by show 1 ≤ b.marked; omega, hroom⟩
  have hcounted : (b.range L).Counted L (bootReserve L devicetree b k) := by
    intro i' hi' j' h1 h2
    obtain rfl := hrange.unique hi'
    have h2' : j' < b.first L + b.marked := h2
    exact (hrc j' (by omega)).mpr ⟨habove, h1, h2'⟩
  apply reserved_apart hL hrange hcounted hrun r hr x
  refine ⟨hx, (hrange.has_iff x).mpr ⟨?_, ?_⟩⟩
  · rw [pageAddr_eq] at hpage ⊢
    omega
  · show x < L.pageAddr (b.first L + b.marked)
    rw [pageAddr_eq] at hpage ⊢
    rw [PAGE_SIZE] at hpage
    omega

/-- Marked entries past the table are stores past the table. -/
theorem BootReserved.room {L : Layout} (hL : L.WellFormed) {devicetree : Nat}
    (hstack : devicetree < L.stackTop) {b : BootBlobs} (hstart : b.initrdStart ≤ b.initrdEnd)
    (hend : b.initrdEnd ≤ 2 ^ 56) (h : BootReserved L devicetree b)
    (habove : L.heapBottom < b.initrdStart) :
    b.marked = 0 ∨ b.first L + b.marked ≤ L.entryCount := by
  obtain ⟨_, hb, _⟩ := hL.bounds
  by_contra hcon
  rw [not_or] at hcon
  obtain ⟨hne, hout⟩ := hcon
  have hlast : b.marked - 1 < b.marked := by omega
  have hwrite := markEntries_writes (q := L.pagesBottom + 2 * b.first L) (k := .blank) rfl hlast
  have hkeep := (h .blank rfl fun i _ => rc_blank L i).2
    (L.pagesBottom + 2 * b.first L + 2 * (b.marked - 1)) fun hin => by
      have htop := hin.2
      omega
  rw [bootReserve_eq hL hstack hstart hend, if_pos habove, hwrite] at hkeep
  exact absurd hkeep (show (1 : UInt8) ≠ 0 by decide)

/-- **Boot reservations.**  They hold exactly where the few entries that the mixed units
    leave for the initial ramdisk happen to cover every page that matters. -/
theorem boot_reserved_iff (L : Layout) (hL : L.WellFormed) (devicetree : Nat)
    (hstack : devicetree < L.stackTop) (b : BootBlobs) (hstart : b.initrdStart ≤ b.initrdEnd)
    (hend : b.initrdEnd ≤ 2 ^ 56) : BootReserved L devicetree b ↔ Covered L b := by
  constructor
  · intro h
    have hroom := h.room hL hstack hstart hend
    refine ⟨fun i hi hmeets => ?_, hroom⟩
    by_contra hnot
    obtain ⟨hrc, _, hsatp⟩ :=
      bootReserve_spec hL hstack hstart hend hroom (k := .blank) fun i _ => rc_blank L i
    have hfree : rc L (bootReserve L devicetree b .blank) i = 0 := by
      by_contra hne
      exact hnot ((hrc i (by omega)).mp hne)
    have hmmu : (bootReserve L devicetree b .blank).mmu = false := by
      rw [Kernel.mmu, hsatp]
      rfl
    obtain ⟨ops, s, hrun, hmem⟩ := exists_handed_out hL hi i (le_refl i)
      (.initial (bootReserve L devicetree b .blank)) hmmu hfree fun j hj => by omega
    obtain ⟨x, hblob, hx⟩ := hmeets
    exact (h .blank rfl fun i _ => rc_blank L i).1 ops s hrun _ hmem x hx hblob
  · exact Covered.reserved hL hstack hstart hend

/-- A device tree below the heap and a ramdisk of one page. -/
def BootBlobs.lucky : BootBlobs := ⟨0x80000000, 0x1000, 0x80202000, 0x80203000⟩

theorem boot_reserved_lucky : BootReserved .small 0x801ff000 .lucky := by
  refine (boot_reserved_iff .small Layout.small_wellFormed 0x801ff000 (by decide) .lucky
    (by decide) (by decide)).mpr ⟨fun i _ hmeets => ?_, fun _ => Or.inr (by decide)⟩
  obtain ⟨x, hblob, h1, h2⟩ := hmeets
  simp only [BootBlobs.Has, BootBlobs.lucky, pageAddr_eq, Layout.small, PAGE_SIZE] at hblob h1 h2
  have hfirst : BootBlobs.first .small .lucky = 1 := by decide
  have hmarked : BootBlobs.lucky.marked = 1 := by decide
  refine ⟨by decide, ?_, ?_⟩
  · rw [hfirst]
    omega
  · rw [hfirst, hmarked]
    omega

/-- The device tree in the first page of the heap, and a ramdisk of 4 MiB. -/
def BootBlobs.qemu : BootBlobs := ⟨0x80444000, 0x1000, 0x84000000, 0x84400000⟩

/-- The first page that is handed out after the reservations is the one that holds the
    device tree. -/
theorem boot_reservation_lost : ¬ BootReserved .board 0x80424000 .qemu := by
  intro h
  have hpage : (allocPages .board 1 (bootReserve .board 0x80424000 .qemu .blank)).1 = 0x80444000 := by
    decide +kernel
  have hstep := PageStep.alloc_of_page
    (s := .initial (bootReserve .board 0x80424000 .qemu .blank)) (L := .board) (le_refl 1)
    (by decide) (by decide) (Prod.ext hpage rfl)
  exact (h .blank rfl fun i _ => rc_blank .board i).1 _ _
    (.cons ⟨fun _ => by decide, hstep⟩ (.nil _)) ⟨0x80444000, 1⟩ List.mem_cons_self 0x80444000
    (by decide) (Or.inl (by decide))

end IloPali
