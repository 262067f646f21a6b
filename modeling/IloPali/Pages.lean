import IloPali.Machine

/-!
# The page allocator (`memory.c`)

`alloc_pages` scans the refcount table for the first run of zero entries and
`dealloc_pages` decrements the entries of a range.  The definitions follow the
loops of the source entry by entry; two specification lemmas (`Grabbed` and
`Released`) then say everything a caller may rely on, in terms of the refcounts
`rc L k i` and of the bytes of memory, and no later proof unfolds the loops.
-/

namespace IloPali

open ByteMemory

/-! ## 1. The code -/

/-- `page_ref_count`: a pointer to the refcount of the page, or `NULL`. -/
def pageRefCount (L : Layout) (page : Nat) : Nat :=
  if page > L.heapBottom then
    uintptr (L.pagesBottom + 2 * Int.tdiv (intptr page - intptr L.heapBottom) PAGE_SIZE)
  else 0

/-- The inner scan of `alloc_pages`: the `n` entries from `q` are all zero. -/
def entriesFree (k : Kernel) : Nat → Nat → Bool
  | 0, _ => true
  | n + 1, q => if k.load 2 q ≠ 0 then false else entriesFree k n (q + 2)

/-- The outer scan of `alloc_pages`, `n` steps from entry `p`. -/
def scanEntries (k : Kernel) (count : Nat) : Nat → Nat → Option Nat
  | 0, _ => none
  | n + 1, p =>
    if k.load 2 p = 0 ∧ entriesFree k (count - 1) (p + 2) = true then some p
    else scanEntries k count n (p + 2)

/-- `*q = 1` for the `n` entries from `q`. -/
def markEntries : Nat → Nat → Kernel → Kernel
  | 0, _, k => k
  | n + 1, q, k => markEntries n (q + 2) (k.store 2 q 1)

/-- The number of steps of `for (; p < (uint16_t*) heap_bottom - count; p++)`. -/
def scanSteps (L : Layout) (count : Nat) : Nat :=
  (uintptr ((L.heapBottom : Int) - 2 * count) - L.pagesBottom + 1) / 2

/-- The clearing loop of `alloc_pages`; the end pointer is computed modulo
    `2 ^ 64`, and the loop does nothing when it lies below the start. -/
def clearPages (page count : Nat) (k : Kernel) : Kernel :=
  let end_ := (page + PAGE_SIZE * count) % 2 ^ 64
  let k' := if page < end_ then k.clear page (end_ - page) else k
  if page = 0 ∨ end_ ≤ page then k'.fail else k'

/-- `alloc_pages`. -/
def allocPages (L : Layout) (count : Nat) (k : Kernel) : Nat × Kernel :=
  match scanEntries k count (scanSteps L count) L.pagesBottom with
  | none => (0, k.fail)
  | some p =>
    let k := markEntries count p k
    let page := phys2safe k.mmu (L.pageAddr ((p - L.pagesBottom) / 2))
    (safe2phys k.mmu page, clearPages page count k)

/-- The loop of `dealloc_pages`. -/
def decrEntries : Nat → Nat → Kernel → Kernel
  | 0, _, k => k
  | n + 1, rc, k =>
    decrEntries n (rc + 2) (if k.load 2 rc ≠ 0 then k.store 2 rc (k.load 2 rc - 1) else k)

/-- `dealloc_pages`. -/
def deallocPages (L : Layout) (page count : Nat) (k : Kernel) : Kernel :=
  let rc := pageRefCount L (safe2phys k.mmu page)
  if rc = 0 then k else decrEntries count rc k

/-! ## 2. Refcounts -/

/-- The refcount of counted page `i`. -/
def rc (L : Layout) (k : Kernel) (i : Nat) : Nat :=
  ByteMemory.load k.mem 2 (L.pagesBottom + 2 * i)

/-- The address holds a byte of the refcount table. -/
def InTable (L : Layout) (x : Nat) : Prop := L.pagesBottom ≤ x ∧ x < L.heapBottom

/-- The address holds a byte of one of the pages `i, …, i + count - 1`. -/
def InPages (L : Layout) (i count x : Nat) : Prop :=
  L.pageAddr i ≤ x ∧ x < L.pageAddr (i + count)

theorem rc_congr {L : Layout} (hL : L.WellFormed) {k k' : Kernel}
    (h : ∀ x, InTable L x → k'.mem x = k.mem x) {i : Nat} (hi : i < L.entryCount) :
    rc L k' i = rc L k i := by
  have hb := Layout.heapBottom_eq hL
  exact load_congr fun x h1 h2 => h x ⟨by omega, by omega⟩

theorem rc_lt (L : Layout) (k : Kernel) (i : Nat) : rc L k i < 2 ^ 16 := by
  have := load_lt k.mem 2 (L.pagesBottom + 2 * i)
  simpa [rc] using this

/-- The numbers `omega` needs about a well-formed layout. -/
theorem Layout.WellFormed.bounds {L : Layout} (hL : L.WellFormed) :
    0 < L.pagesBottom ∧ L.heapBottom = L.pagesBottom + 2 * L.entryCount ∧
      L.heapBottom + 4096 * L.entryCount ≤ 2 ^ 56 ∧ L.heapBottom % 4096 = 0 ∧
      4096 ≤ L.pagesBottom := by
  have h1 := hL.pagesBottom_aligned
  have h2 := hL.pagesBottom_pos
  have h3 := hL.heapEnd_le
  have h4 := hL.heapBottom_aligned
  simp only [PAGE_SIZE, Layout.heapEnd, Layout.pageAddr] at h1 h3 h4
  exact ⟨h2, Layout.heapBottom_eq hL, h3, h4, by omega⟩

theorem pageAddr_eq (L : Layout) (i : Nat) : L.pageAddr i = L.heapBottom + 4096 * i := rfl

theorem pageAddr_inj {L : Layout} {i j : Nat} : L.pageAddr i = L.pageAddr j ↔ i = j := by
  rw [pageAddr_eq, pageAddr_eq]
  omega

theorem pageAddr_ne_zero {L : Layout} (hL : L.WellFormed) (i : Nat) : L.pageAddr i ≠ 0 := by
  obtain ⟨hpos, hb, _⟩ := hL.bounds
  rw [pageAddr_eq]
  omega

theorem Layout.Reachable.pageAddr {L : Layout} {mmu : Bool} (hR : L.Reachable mmu) {i : Nat}
    (hi : i < L.entryCount) : mmu = true → L.pageAddr i < DIRECT_MAP_SIZE := by
  intro hon
  have := hR hon
  rw [Layout.heapEnd, pageAddr_eq] at this
  rw [pageAddr_eq]
  omega

theorem load_entry {L : Layout} (hL : L.WellFormed) (k : Kernel) {i : Nat}
    (hi : i < L.entryCount) : k.load 2 (L.pagesBottom + 2 * i) = rc L k i := by
  obtain ⟨_, hb, hend, _⟩ := hL.bounds
  rw [Kernel.load, physOf_low k.mmu, rc]
  simp only [KERNEL_SPACE_OFFSET]
  omega

/-- A store to entry `i` sets that refcount and touches nothing else. -/
theorem store_entry {L : Layout} (hL : L.WellFormed) (k : Kernel) {i : Nat}
    (hi : i < L.entryCount) (v : Nat) :
    (∀ j, rc L (k.store 2 (L.pagesBottom + 2 * i) v) j =
      if j = i then v % 2 ^ 16 else rc L k j) ∧
    ∀ x, ¬ InTable L x → (k.store 2 (L.pagesBottom + 2 * i) v).mem x = k.mem x := by
  obtain ⟨_, hb, hend, _⟩ := hL.bounds
  have hphys : physOf k.mmu (L.pagesBottom + 2 * i) = L.pagesBottom + 2 * i :=
    physOf_low k.mmu (by simp only [KERNEL_SPACE_OFFSET]; omega)
  constructor
  · intro j
    simp only [rc, Kernel.store, hphys]
    by_cases hj : j = i
    · subst hj
      rw [if_pos rfl, load_store_same]
      rfl
    · rw [if_neg hj, load_store_disjoint _ _ (by omega)]
  · intro x hx
    simp only [Kernel.store, hphys]
    exact patch_outside _ _ (by simp only [InTable] at hx; omega)

/-! ## 3. The scan -/

theorem entriesFree_iff {L : Layout} (hL : L.WellFormed) (k : Kernel) {n i : Nat}
    (hi : i + n ≤ L.entryCount) :
    entriesFree k n (L.pagesBottom + 2 * i) = true ↔ ∀ j, i ≤ j → j < i + n → rc L k j = 0 := by
  induction n generalizing i with
  | zero =>
    simp only [entriesFree, true_iff]
    intro j h1 h2
    omega
  | succ n ih =>
    rw [entriesFree, load_entry hL k (by omega),
      show L.pagesBottom + 2 * i + 2 = L.pagesBottom + 2 * (i + 1) by omega]
    by_cases hz : rc L k i = 0
    · rw [if_neg (by simpa using hz), ih (by omega)]
      constructor
      · intro h j h1 h2
        rcases Nat.eq_or_lt_of_le h1 with rfl | h1
        · exact hz
        · exact h j h1 (by omega)
      · exact fun h j h1 h2 => h j (by omega) (by omega)
    · rw [if_pos (by simpa using hz)]
      constructor
      · exact fun h => absurd h (by decide)
      · exact fun h => absurd (h i (le_refl i) (by omega)) hz

/-- Entries `i, …, i + count - 1` are zero. -/
def RunFree (L : Layout) (k : Kernel) (count i : Nat) : Prop :=
  ∀ j, i ≤ j → j < i + count → rc L k j = 0

theorem scan_test {L : Layout} (hL : L.WellFormed) (k : Kernel) {count i : Nat}
    (hc : 1 ≤ count) (hi : i + count ≤ L.entryCount) :
    (k.load 2 (L.pagesBottom + 2 * i) = 0 ∧
      entriesFree k (count - 1) (L.pagesBottom + 2 * i + 2) = true) ↔ RunFree L k count i := by
  rw [load_entry hL k (by omega),
    show L.pagesBottom + 2 * i + 2 = L.pagesBottom + 2 * (i + 1) by omega,
    entriesFree_iff hL k (by omega)]
  constructor
  · rintro ⟨h0, hrest⟩ j h1 h2
    rcases Nat.eq_or_lt_of_le h1 with rfl | h1
    · exact h0
    · exact hrest j h1 (by omega)
  · intro h
    exact ⟨h i (le_refl i) (by omega), fun j h1 h2 => h j (by omega) (by omega)⟩

/-- The outer scan returns the first entry at which a free run of `count`
    entries starts, among the `n` entries from `i`. -/
theorem scanEntries_spec {L : Layout} (hL : L.WellFormed) (k : Kernel) {count : Nat}
    (hc : 1 ≤ count) (n i : Nat) (hn : i + n + count ≤ L.entryCount + 1) :
    (scanEntries k count n (L.pagesBottom + 2 * i) = none →
      ∀ j, i ≤ j → j < i + n → ¬ RunFree L k count j) ∧
    ∀ p, scanEntries k count n (L.pagesBottom + 2 * i) = some p →
      ∃ j, p = L.pagesBottom + 2 * j ∧ i ≤ j ∧ j < i + n ∧ RunFree L k count j ∧
        ∀ j', i ≤ j' → j' < j → ¬ RunFree L k count j' := by
  induction n generalizing i with
  | zero =>
    refine ⟨fun _ j h1 h2 => by omega, fun p hp => ?_⟩
    rw [scanEntries] at hp
    exact nomatch hp
  | succ n ih =>
    rw [scanEntries]
    by_cases htest : RunFree L k count i
    · rw [if_pos ((scan_test hL k hc (by omega)).mpr htest)]
      refine ⟨fun h => (nomatch h), fun p hp => ?_⟩
      rw [Option.some.injEq] at hp
      exact ⟨i, hp.symm, le_refl i, by omega, htest, fun j' h1 h2 => by omega⟩
    · rw [if_neg (fun h => htest ((scan_test hL k hc (by omega)).mp h)),
        show L.pagesBottom + 2 * i + 2 = L.pagesBottom + 2 * (i + 1) by omega]
      obtain ⟨hnone, hsome⟩ := ih (i + 1) (by omega)
      have hfirst : ∀ j', i ≤ j' → j' < i + 1 → ¬ RunFree L k count j' := by
        intro j' h1 h2
        rw [show j' = i by omega]
        exact htest
      constructor
      · intro hs j h1 h2
        by_cases hj : j < i + 1
        · exact hfirst j h1 hj
        · exact hnone hs j (by omega) (by omega)
      · intro p hs
        obtain ⟨j, hp, h1, h2, hfree, hmin⟩ := hsome p hs
        refine ⟨j, hp, by omega, by omega, hfree, ?_⟩
        intro j' h1' h2'
        by_cases hj : j' < i + 1
        · exact hfirst j' h1' hj
        · exact hmin j' (by omega) h2'

theorem scanSteps_eq {L : Layout} (hL : L.WellFormed) {count : Nat}
    (hc : 2 * count ≤ L.heapBottom) : scanSteps L count = L.entryCount - count := by
  obtain ⟨_, hb, hend, _⟩ := hL.bounds
  rw [scanSteps, show (L.heapBottom : Int) - 2 * count = ((L.heapBottom - 2 * count : Nat) : Int) by
    omega, uintptr_of_nonneg (by omega)]
  omega

/-! ## 4. What `alloc_pages` does -/

theorem markEntries_satp (n q : Nat) (k : Kernel) : (markEntries n q k).satp = k.satp := by
  induction n generalizing q k with
  | zero => rfl
  | succ n ih => exact ih (q + 2) (k.store 2 q 1)

theorem markEntries_failed (n q : Nat) (k : Kernel) : (markEntries n q k).failed = k.failed := by
  induction n generalizing q k with
  | zero => rfl
  | succ n ih => exact ih (q + 2) (k.store 2 q 1)

theorem markEntries_spec {L : Layout} (hL : L.WellFormed) {n i : Nat}
    (hi : i + n ≤ L.entryCount) (k : Kernel) :
    (∀ j, rc L (markEntries n (L.pagesBottom + 2 * i) k) j =
      if i ≤ j ∧ j < i + n then 1 else rc L k j) ∧
    ∀ x, ¬ InTable L x → (markEntries n (L.pagesBottom + 2 * i) k).mem x = k.mem x := by
  induction n generalizing i k with
  | zero =>
    refine ⟨fun j => ?_, fun _ _ => rfl⟩
    rw [if_neg (by omega), markEntries]
  | succ n ih =>
    rw [markEntries, show L.pagesBottom + 2 * i + 2 = L.pagesBottom + 2 * (i + 1) by omega]
    obtain ⟨hrc, hmem⟩ := store_entry hL k (i := i) (by omega) 1
    obtain ⟨ih1, ih2⟩ := ih (i := i + 1) (by omega) (k.store 2 (L.pagesBottom + 2 * i) 1)
    refine ⟨fun j => ?_, fun x hx => (ih2 x hx).trans (hmem x hx)⟩
    rw [ih1 j, hrc j]
    by_cases hj : j = i
    · subst hj
      rw [if_neg (by omega), if_pos rfl, if_pos (by omega)]
      rfl
    · by_cases hin : i + 1 ≤ j ∧ j < i + 1 + n
      · rw [if_pos hin, if_pos (by omega)]
      · rw [if_neg hin, if_neg hj, if_neg (by omega)]

/-- `alloc_pages(count)` took the pages `i, …, i + count - 1`: they were free,
    now have refcount 1 and hold zeros, and nothing else changed. -/
structure Grabbed (L : Layout) (i count : Nat) (k k' : Kernel) : Prop where
  bound : i + count < L.entryCount
  free : RunFree L k count i
  first : ∀ j, j < i → ¬ RunFree L k count j
  rc_eq : ∀ j, j < L.entryCount → rc L k' j = if i ≤ j ∧ j < i + count then 1 else rc L k j
  zero : ∀ x, InPages L i count x → k'.mem x = 0
  frame : ∀ x, ¬ InTable L x → ¬ InPages L i count x → k'.mem x = k.mem x
  satp : k'.satp = k.satp
  failed : k'.failed = k.failed

/-- The run of `count` pages from page `i` can be cleared through the direct map. -/
def Shown (L : Layout) (mmu : Bool) (i count : Nat) : Prop :=
  mmu = true → L.pageAddr i + PAGE_SIZE * count < DIRECT_MAP_SIZE

theorem Layout.Reachable.shown {L : Layout} {mmu : Bool} (hR : L.Reachable mmu) {i count : Nat}
    (hi : i + count < L.entryCount) : Shown L mmu i count := by
  intro hon
  have h := hR hon
  rw [Layout.heapEnd, pageAddr_eq] at h
  rw [pageAddr_eq, PAGE_SIZE]
  omega

/-- The clearing loop succeeds exactly on the runs the direct map shows. -/
theorem clearPages_spec {L : Layout} (hL : L.WellFormed) (k : Kernel) {i count : Nat}
    (hc : 1 ≤ count) (hi : i + count < L.entryCount) :
    (Shown L k.mmu i count ∧ clearPages (phys2safe k.mmu (L.pageAddr i)) count k =
      { k with mem := zeroFill k.mem (L.pageAddr i) (PAGE_SIZE * count) }) ∨
    (¬ Shown L k.mmu i count ∧
      (clearPages (phys2safe k.mmu (L.pageAddr i)) count k).failed = k.failed + 1) := by
  obtain ⟨hpos, hb, hend, _⟩ := hL.bounds
  have hsum := KERNEL_SPACE_OFFSET_add
  have hsize := DIRECT_MAP_SIZE_eq
  have haddr : L.pageAddr i + PAGE_SIZE * count < 2 ^ 56 := by
    rw [pageAddr_eq, PAGE_SIZE]
    omega
  have hlow : 0 < L.pageAddr i := by
    rw [pageAddr_eq]
    omega
  have hcount : 0 < PAGE_SIZE * count := Nat.mul_pos (by decide) hc
  by_cases hshown : Shown L k.mmu i count
  · -- the end pointer cannot wrap
    left
    refine ⟨hshown, ?_⟩
    have hon : k.mmu = true → L.pageAddr i < DIRECT_MAP_SIZE := fun h =>
      Nat.lt_of_le_of_lt (Nat.le_add_right _ _) (hshown h)
    have hno : phys2safe k.mmu (L.pageAddr i) + PAGE_SIZE * count < 2 ^ 64 := by
      cases hm : k.mmu with
      | false =>
        rw [phys2safe_off]
        omega
      | true =>
        have := hshown hm
        rw [phys2safe_on (hon hm)]
        omega
    have hne := phys2safe_pos hlow hon
    have hphys := physOf_phys2safe_add hon 0
    rw [Nat.add_zero, Nat.add_zero] at hphys
    rw [clearPages]
    simp only [Nat.mod_eq_of_lt hno]
    rw [if_neg (by omega), if_pos (by omega), Nat.add_sub_cancel_left, Kernel.clear, hphys]
  · right
    refine ⟨hshown, ?_⟩
    have hon : k.mmu = true := by
      by_contra hoff
      exact hshown fun h => absurd h hoff
    have hfar : DIRECT_MAP_SIZE ≤ L.pageAddr i + PAGE_SIZE * count := by
      by_contra hlt
      exact hshown fun _ => by omega
    have hbad : phys2safe k.mmu (L.pageAddr i) = 0 ∨
        (phys2safe k.mmu (L.pageAddr i) + PAGE_SIZE * count) % 2 ^ 64 ≤
          phys2safe k.mmu (L.pageAddr i) := by
      rw [hon]
      by_cases hp : L.pageAddr i < DIRECT_MAP_SIZE
      · right
        rw [phys2safe_on hp]
        omega
      · left
        exact phys2safe_past (by omega) (by omega)
    rw [clearPages, if_pos hbad]
    split
    · rfl
    · rfl

/-- Clearing the pages of a run whose entries were just marked. -/
theorem grabbed_of_clear {L : Layout} (hL : L.WellFormed) {k : Kernel} {i count : Nat}
    (hbound : i + count < L.entryCount) (hfree : RunFree L k count i)
    (hmin : ∀ j, j < i → ¬ RunFree L k count j) :
    let k' := markEntries count (L.pagesBottom + 2 * i) k
    Grabbed L i count k
      { k' with mem := zeroFill k'.mem (L.pageAddr i) (PAGE_SIZE * count) } := by
  intro k'
  obtain ⟨hrc, hmem⟩ := markEntries_spec hL (n := count) (i := i) (by omega) k
  have hin : ∀ x, InPages L i count x ↔
      L.pageAddr i ≤ x ∧ x < L.pageAddr i + PAGE_SIZE * count := by
    intro x
    simp only [InPages, pageAddr_eq, PAGE_SIZE]
    omega
  refine ⟨hbound, hfree, hmin, ?_, ?_, ?_, markEntries_satp _ _ _, markEntries_failed _ _ _⟩
  · -- clearing the pages stays above the table
    intro j hj
    rw [← hrc j]
    refine rc_congr hL (fun x hx => ?_) hj
    refine zeroFill_outside k'.mem (Or.inl ?_)
    rw [pageAddr_eq]
    exact Nat.lt_of_lt_of_le hx.2 (Nat.le_add_right _ _)
  · intro x hx
    exact zeroFill_inside k'.mem ((hin x).mp hx).1 ((hin x).mp hx).2
  · intro x ht hx
    rw [hin] at hx
    rw [← hmem x ht]
    exact zeroFill_outside k'.mem (by omega)

/-- What the scan decides: either there is no free run below the last entry, or
    the first such run is marked and handed over to the clearing loop. -/
theorem allocPages_scan {L : Layout} (hL : L.WellFormed) (k : Kernel) {count : Nat}
    (hc : 1 ≤ count) (hcN : 2 * count ≤ L.heapBottom) :
    ((∀ j, j + count < L.entryCount → ¬ RunFree L k count j) ∧ allocPages L count k = (0, k.fail)) ∨
    ∃ i, i + count < L.entryCount ∧ RunFree L k count i ∧ (∀ j, j < i → ¬ RunFree L k count j) ∧
      let k' := markEntries count (L.pagesBottom + 2 * i) k
      allocPages L count k = (safe2phys k'.mmu (phys2safe k'.mmu (L.pageAddr i)),
        clearPages (phys2safe k'.mmu (L.pageAddr i)) count k') := by
  by_cases hbig : L.entryCount < count
  · -- the loop bound lies below the first entry, so there is nothing to scan
    left
    refine ⟨fun j hj => by omega, ?_⟩
    rw [allocPages, scanSteps_eq hL hcN, Nat.sub_eq_zero_of_le hbig.le, scanEntries]
  obtain ⟨hnone, hsome⟩ := scanEntries_spec hL k hc (L.entryCount - count) 0 (by omega)
  rw [Nat.mul_zero, Nat.add_zero] at hnone hsome
  cases hs : scanEntries k count (L.entryCount - count) L.pagesBottom with
  | none =>
    left
    refine ⟨fun j hj => hnone hs j (Nat.zero_le j) (by omega), ?_⟩
    rw [allocPages, scanSteps_eq hL hcN, hs]
  | some p =>
    obtain ⟨i, rfl, _, hi, hfree, hmin⟩ := hsome p hs
    right
    have hidx : (L.pagesBottom + 2 * i - L.pagesBottom) / 2 = i := by omega
    refine ⟨i, by omega, hfree, fun j hj => hmin j (Nat.zero_le j) hj, ?_⟩
    rw [allocPages, scanSteps_eq hL hcN, hs]
    simp only [hidx]

theorem markEntries_mmu (n q : Nat) (k : Kernel) : (markEntries n q k).mmu = k.mmu := by
  rw [Kernel.mmu, markEntries_satp, Kernel.mmu]

/-- Handing out a run that the direct map shows. -/
theorem grabbed_of_shown {L : Layout} (hL : L.WellFormed) {k : Kernel} {i count : Nat}
    (hc : 1 ≤ count) (hi : i + count < L.entryCount) (hfree : RunFree L k count i)
    (hmin : ∀ j, j < i → ¬ RunFree L k count j) (hshown : Shown L k.mmu i count)
    (hcall : let k' := markEntries count (L.pagesBottom + 2 * i) k
      allocPages L count k = (safe2phys k'.mmu (phys2safe k'.mmu (L.pageAddr i)),
        clearPages (phys2safe k'.mmu (L.pageAddr i)) count k')) :
    (allocPages L count k).1 = L.pageAddr i ∧ Grabbed L i count k (allocPages L count k).2 := by
  dsimp only at hcall
  have hmmu := markEntries_mmu count (L.pagesBottom + 2 * i) k
  have hon : k.mmu = true → L.pageAddr i < DIRECT_MAP_SIZE := fun h =>
    Nat.lt_of_le_of_lt (Nat.le_add_right _ _) (hshown h)
  rcases clearPages_spec hL (markEntries count (L.pagesBottom + 2 * i) k) hc hi with
    ⟨_, hclear⟩ | ⟨hnot, _⟩
  · rw [hcall, hclear, hmmu, safe2phys_phys2safe hon]
    exact ⟨rfl, grabbed_of_clear hL hi hfree hmin⟩
  · rw [hmmu] at hnot
    exact absurd hshown hnot

/-- **Specification of `alloc_pages`**, where the heap can be reached.  Either there
    is no free run below the last entry, or the first such run is taken. -/
theorem allocPages_spec {L : Layout} (hL : L.WellFormed) {k : Kernel} (hR : L.Reachable k.mmu)
    {count : Nat} (hc : 1 ≤ count) (hcN : 2 * count ≤ L.heapBottom) :
    ((∀ j, j + count < L.entryCount → ¬ RunFree L k count j) ∧ allocPages L count k = (0, k.fail)) ∨
    ∃ i, (allocPages L count k).1 = L.pageAddr i ∧
      Grabbed L i count k (allocPages L count k).2 := by
  rcases allocPages_scan hL k hc hcN with h | ⟨i, hi, hfree, hmin, hcall⟩
  · exact Or.inl h
  · exact Or.inr ⟨i, grabbed_of_shown hL hc hi hfree hmin (hR.shown hi) hcall⟩

/-- **Specification of a call that did not fail.** -/
theorem allocPages_ok {L : Layout} (hL : L.WellFormed) {k : Kernel} {count : Nat}
    (hc : 1 ≤ count) (hcN : 2 * count ≤ L.heapBottom)
    (hok : (allocPages L count k).2.failed = k.failed) :
    ∃ i, (allocPages L count k).1 = L.pageAddr i ∧
      Grabbed L i count k (allocPages L count k).2 ∧ Shown L k.mmu i count := by
  rcases allocPages_scan hL k hc hcN with ⟨_, hfail⟩ | ⟨i, hi, hfree, hmin, hcall⟩
  · rw [hfail] at hok
    exact absurd hok (Nat.succ_ne_self k.failed)
  · have hmmu := markEntries_mmu count (L.pagesBottom + 2 * i) k
    rcases clearPages_spec hL (markEntries count (L.pagesBottom + 2 * i) k) hc hi with
      ⟨hshown, _⟩ | ⟨_, hbad⟩
    · rw [hmmu] at hshown
      obtain ⟨hpage, hg⟩ := grabbed_of_shown hL hc hi hfree hmin hshown hcall
      exact ⟨i, hpage, hg, hshown⟩
    · rw [hcall] at hok
      dsimp only at hok
      rw [hbad, markEntries_failed] at hok
      exact absurd hok (Nat.succ_ne_self k.failed)

theorem clearPages_satp (page count : Nat) (k : Kernel) :
    (clearPages page count k).satp = k.satp := by
  unfold clearPages
  dsimp only
  split
  · split
    · rfl
    · rfl
  · split
    · rfl
    · rfl

theorem clearPages_failed_le (page count : Nat) (k : Kernel) :
    k.failed ≤ (clearPages page count k).failed := by
  unfold clearPages
  dsimp only
  split
  · split
    · exact Nat.le_succ k.failed
    · exact Nat.le_succ k.failed
  · split
    · exact le_refl _
    · exact le_refl _

@[simp] theorem allocPages_satp (L : Layout) (count : Nat) (k : Kernel) :
    (allocPages L count k).2.satp = k.satp := by
  unfold allocPages
  split
  · rfl
  · exact (clearPages_satp _ _ _).trans (markEntries_satp _ _ _)

theorem allocPages_failed_le (L : Layout) (count : Nat) (k : Kernel) :
    k.failed ≤ (allocPages L count k).2.failed := by
  unfold allocPages
  split
  · exact Nat.le_succ k.failed
  · exact (markEntries_failed _ _ k).symm.le.trans (clearPages_failed_le _ _ _)

/-! ## 5. What `dealloc_pages` does -/

/-- `dealloc_pages` decremented the refcounts of `i, …, i + count - 1` and
    touched nothing outside the table.  The page at `heap_bottom` itself is not
    "above `heap_bottom`", so a range that starts there is left as it was. -/
structure Released (L : Layout) (i count : Nat) (k k' : Kernel) : Prop where
  rc_eq : ∀ j, j < L.entryCount →
    rc L k' j = if i ≠ 0 ∧ i ≤ j ∧ j < i + count then rc L k j - 1 else rc L k j
  frame : ∀ x, ¬ InTable L x → k'.mem x = k.mem x
  satp : k'.satp = k.satp
  failed : k'.failed = k.failed

theorem decrEntries_satp (n rc : Nat) (k : Kernel) : (decrEntries n rc k).satp = k.satp := by
  induction n generalizing rc k with
  | zero => rfl
  | succ n ih =>
    rw [decrEntries, ih]
    split
    · rfl
    · rfl

theorem decrEntries_failed (n rc : Nat) (k : Kernel) : (decrEntries n rc k).failed = k.failed := by
  induction n generalizing rc k with
  | zero => rfl
  | succ n ih =>
    rw [decrEntries, ih]
    split
    · rfl
    · rfl

theorem decrEntries_spec {L : Layout} (hL : L.WellFormed) {n i : Nat}
    (hi : i + n ≤ L.entryCount) (k : Kernel) :
    (∀ j, rc L (decrEntries n (L.pagesBottom + 2 * i) k) j =
      if i ≤ j ∧ j < i + n then rc L k j - 1 else rc L k j) ∧
    ∀ x, ¬ InTable L x → (decrEntries n (L.pagesBottom + 2 * i) k).mem x = k.mem x := by
  induction n generalizing i k with
  | zero =>
    refine ⟨fun j => ?_, fun _ _ => rfl⟩
    rw [if_neg (by omega), decrEntries]
  | succ n ih =>
    rw [decrEntries, load_entry hL k (by omega),
      show L.pagesBottom + 2 * i + 2 = L.pagesBottom + 2 * (i + 1) by omega]
    by_cases hz : rc L k i = 0
    · rw [if_neg (by simpa using hz)]
      obtain ⟨ih1, ih2⟩ := ih (i := i + 1) (by omega) k
      refine ⟨fun j => ?_, ih2⟩
      rw [ih1 j]
      by_cases hj : j = i
      · subst hj
        rw [if_neg (by omega), if_pos (by omega), hz]
      · by_cases hin : i + 1 ≤ j ∧ j < i + 1 + n
        · rw [if_pos hin, if_pos (by omega)]
        · rw [if_neg hin, if_neg (by omega)]
    · rw [if_pos (by simpa using hz)]
      obtain ⟨hrc, hmem⟩ := store_entry hL k (i := i) (by omega) (rc L k i - 1)
      obtain ⟨ih1, ih2⟩ := ih (i := i + 1) (by omega)
        (k.store 2 (L.pagesBottom + 2 * i) (rc L k i - 1))
      refine ⟨fun j => ?_, fun x hx => (ih2 x hx).trans (hmem x hx)⟩
      have hlt := rc_lt L k i
      rw [ih1 j, hrc j]
      by_cases hj : j = i
      · subst hj
        rw [if_neg (by omega), if_pos rfl, if_pos (by omega), Nat.mod_eq_of_lt (by omega)]
      · rw [if_neg hj]
        by_cases hin : i + 1 ≤ j ∧ j < i + 1 + n
        · rw [if_pos hin, if_pos (by omega)]
        · rw [if_neg hin, if_neg (by omega)]

@[simp] theorem deallocPages_satp (L : Layout) (page count : Nat) (k : Kernel) :
    (deallocPages L page count k).satp = k.satp := by
  unfold deallocPages
  dsimp only
  split
  · rfl
  · exact decrEntries_satp _ _ _

@[simp] theorem deallocPages_failed (L : Layout) (page count : Nat) (k : Kernel) :
    (deallocPages L page count k).failed = k.failed := by
  unfold deallocPages
  dsimp only
  split
  · rfl
  · exact decrEntries_failed _ _ _

theorem pageRefCount_pageAddr {L : Layout} (hL : L.WellFormed) {i : Nat}
    (hi : i < L.entryCount) :
    pageRefCount L (L.pageAddr i) = if i = 0 then 0 else L.pagesBottom + 2 * i := by
  obtain ⟨hpos, hb, hend, _⟩ := hL.bounds
  by_cases h0 : i = 0
  · subst h0
    rw [if_pos rfl, pageRefCount, if_neg (by rw [pageAddr_eq]; omega)]
  · have hidx : Int.tdiv (((L.pageAddr i : Nat) : Int) - (L.heapBottom : Int)) PAGE_SIZE = i := by
      rw [pageAddr_eq, PAGE_SIZE,
        show (((L.heapBottom + 4096 * i : Nat) : Int) - (L.heapBottom : Int)) = (i : Int) * 4096 by
          omega]
      exact Int.mul_tdiv_cancel _ (by decide)
    rw [if_neg h0, pageRefCount, if_pos (by rw [pageAddr_eq]; omega),
      intptr_of_lt (by rw [pageAddr_eq]; omega), intptr_of_lt (by omega), hidx,
      show (L.pagesBottom : Int) + 2 * (i : Int) = ((L.pagesBottom + 2 * i : Nat) : Int) by omega,
      uintptr_of_nonneg (by omega)]

/-- The two ways a caller may name page `i`: by its physical address, or by the
    address `phys2safe` gives, where the direct map shows the page. -/
def NamesPage (L : Layout) (mmu : Bool) (page i : Nat) : Prop :=
  page = L.pageAddr i ∨
    (page = phys2safe mmu (L.pageAddr i) ∧ (mmu = true → L.pageAddr i < DIRECT_MAP_SIZE))

theorem NamesPage.safe2phys {L : Layout} (hL : L.WellFormed) {mmu : Bool} {page i : Nat}
    (hi : i < L.entryCount) (h : NamesPage L mmu page i) : safe2phys mmu page = L.pageAddr i := by
  obtain ⟨_, hb, hend, _⟩ := hL.bounds
  rcases h with rfl | ⟨rfl, hon⟩
  · exact safe2phys_low mmu (by rw [pageAddr_eq, KERNEL_SPACE_OFFSET]; omega)
  · exact safe2phys_phys2safe hon

/-- **Specification of `dealloc_pages`** on a range inside the heap. -/
theorem deallocPages_spec {L : Layout} (hL : L.WellFormed) {k : Kernel} {page i count : Nat}
    (hi : i < L.entryCount) (hc : i + count ≤ L.entryCount) (hname : NamesPage L k.mmu page i) :
    Released L i count k (deallocPages L page count k) := by
  obtain ⟨hpos, _⟩ := hL.bounds
  rw [deallocPages, hname.safe2phys hL hi, pageRefCount_pageAddr hL hi]
  by_cases h0 : i = 0
  · simp only [if_pos h0, if_true]
    refine ⟨fun j _ => ?_, fun _ _ => rfl, rfl, rfl⟩
    rw [if_neg (fun h => h.1 h0)]
  · simp only [if_neg h0]
    rw [if_neg (by omega)]
    obtain ⟨hrc, hmem⟩ := decrEntries_spec hL hc k
    refine ⟨fun j _ => ?_, hmem, decrEntries_satp _ _ _, decrEntries_failed _ _ _⟩
    rw [hrc j]
    by_cases hin : i ≤ j ∧ j < i + count
    · rw [if_pos hin, if_pos ⟨h0, hin⟩]
    · rw [if_neg hin, if_neg (fun h => hin h.2)]

end IloPali
