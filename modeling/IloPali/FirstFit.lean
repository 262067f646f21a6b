import IloPali.Pages

/-!
# First fit

Which run of pages `alloc_pages` hands out, and what `dealloc_pages` makes of it.

Two comparisons decide this.  The scan stops one entry early, so that no run is found that
ends at the last entry of the table; and `page_ref_count` knows only the pages above
`heap_bottom`, so that the first page of the heap is never given back.
-/

namespace IloPali

open ByteMemory

/-! ## 1. The lowest run -/

/-- A run of `count` zero entries of the table starts at `i`, and none starts below. -/
structure LowestRun (L : Layout) (k : Kernel) (count i : Nat) : Prop where
  bound : i + count ≤ L.entryCount
  free : RunFree L k count i
  first : ∀ j, j < i → ¬ RunFree L k count j

theorem LowestRun.unique {L : Layout} {k : Kernel} {count i j : Nat} (hi : LowestRun L k count i)
    (hj : LowestRun L k count j) : i = j := by
  rcases Nat.lt_trichotomy i j with h | h | h
  · exact absurd hi.free (hj.first i h)
  · exact h
  · exact absurd hj.free (hi.first j h)

theorem exists_lowestRun {L : Layout} {k : Kernel} {count i : Nat} (hi : i + count ≤ L.entryCount)
    (hfree : RunFree L k count i) : ∃ j, j ≤ i ∧ LowestRun L k count j := by
  classical
  have hex : ∃ j, RunFree L k count j := ⟨i, hfree⟩
  have hle : Nat.find hex ≤ i := Nat.find_min' hex hfree
  exact ⟨Nat.find hex, hle, by omega, Nat.find_spec hex, fun j hj => Nat.find_min hex hj⟩

/-- The kernel sees the first page of the run. -/
def InSight (L : Layout) (mmu : Bool) (i : Nat) : Prop := mmu = true → L.pageAddr i < DIRECT_MAP_SIZE

section Calls

variable {L : Layout} (hL : L.WellFormed) {k : Kernel} {count : Nat}
include hL

theorem pageAddr_lt {i : Nat} (hi : i < L.entryCount) : L.pageAddr i < 2 ^ 56 := by
  obtain ⟨_, _, hend, _⟩ := hL.bounds
  rw [pageAddr_eq]
  omega

/-- The page that is returned, for a run the scan finds. -/
theorem returned_page {i : Nat} (hi : i < L.entryCount) (mmu : Bool) [Decidable (InSight L mmu i)] :
    safe2phys mmu (phys2safe mmu (L.pageAddr i)) = if InSight L mmu i then L.pageAddr i else 0 := by
  by_cases hsight : InSight L mmu i
  · rw [if_pos hsight]
    exact safe2phys_phys2safe hsight
  · rw [if_neg hsight]
    simp only [InSight, not_forall, not_lt] at hsight
    obtain ⟨rfl, hfar⟩ := hsight
    rw [phys2safe_past hfar (pageAddr_lt hL hi)]
    exact safe2phys_low true (by decide)

/-- **The result of `alloc_pages`**: the lowest run, if it ends before the last entry and the
    kernel sees it. -/
theorem allocPages_result (hc : 1 ≤ count) (hcN : count ≤ L.entryCount) :
    (∃ i, LowestRun L k count i ∧ i + count < L.entryCount ∧ InSight L k.mmu i ∧
      (allocPages L count k).1 = L.pageAddr i) ∨
    ((∀ i, LowestRun L k count i → ¬ (i + count < L.entryCount ∧ InSight L k.mmu i)) ∧
      (allocPages L count k).1 = 0) := by
  classical
  have hbottom : 2 * count ≤ L.heapBottom := by
    obtain ⟨_, hb, _⟩ := hL.bounds
    omega
  rcases allocPages_scan hL k hc hbottom with ⟨hnone, hcall⟩ | ⟨i, hi, hfree, hmin, hcall⟩
  · right
    rw [hcall]
    exact ⟨fun i hrun hin => hnone i hin.1 hrun.free, rfl⟩
  · have hrun : LowestRun L k count i := ⟨hi.le, hfree, hmin⟩
    dsimp only at hcall
    rw [hcall, markEntries_mmu]
    dsimp only
    rw [returned_page hL (by omega) k.mmu]
    by_cases hsight : InSight L k.mmu i
    · left
      exact ⟨i, hrun, hi, hsight, if_pos hsight⟩
    · right
      refine ⟨fun j hj hin => ?_, if_neg hsight⟩
      rw [hj.unique hrun] at hin
      exact hsight hin.2

end Calls

/-! ## 2. Completeness -/

/-- `alloc_pages` returns `NULL` only if no run of `count` entries is zero, and else the page of
    the lowest such run. -/
def IsFirstFit (L : Layout) (count : Nat) (k : Kernel) : Prop :=
  ((allocPages L count k).1 = 0 → ∀ i, i + count ≤ L.entryCount → ¬ RunFree L k count i) ∧
    ((allocPages L count k).1 ≠ 0 → ∃ i, LowestRun L k count i ∧
      (allocPages L count k).1 = L.pageAddr i)

/-- **When `alloc_pages` is first fit**: if the lowest run does not end at the last entry, and
    the kernel sees its first page. -/
theorem alloc_pages_first_fit_iff (L : Layout) (hL : L.WellFormed) (k : Kernel) (count : Nat)
    (hc : 1 ≤ count) (hcN : count ≤ L.entryCount) :
    IsFirstFit L count k ↔
      ∀ i, LowestRun L k count i → i + count < L.entryCount ∧ InSight L k.mmu i := by
  rcases @allocPages_result L hL k count hc hcN with ⟨i, hrun, hi, hsight, hcall⟩ | ⟨hno, hcall⟩
  · have hne := pageAddr_ne_zero hL i
    constructor
    · intro _ j hj
      rw [hj.unique hrun]
      exact ⟨hi, hsight⟩
    · intro _
      refine ⟨fun h0 => absurd (hcall.symm.trans h0) hne, fun _ => ⟨i, hrun, hcall⟩⟩
  · constructor
    · intro hfit i hrun
      exact absurd hrun.free (hfit.1 hcall i hrun.bound)
    · intro hall
      refine ⟨fun _ i hi hfree => ?_, fun hne => absurd hcall hne⟩
      obtain ⟨j, _, hj⟩ := exists_lowestRun hi hfree
      exact hno j hj (hall j hj)

theorem alloc_pages_first_fit_small : IsFirstFit .small 2047 .blank ↔
    ∀ i, LowestRun .small .blank 2047 i → i + 2047 < Layout.small.entryCount ∧
      InSight .small Kernel.blank.mmu i :=
  alloc_pages_first_fit_iff .small Layout.small_wellFormed .blank 2047 (by decide) (by decide)

/-- On an empty heap of 2048 pages, 2048 pages are not found. -/
theorem alloc_pages_misses_last : 2048 ≤ Layout.small.entryCount ∧
    (allocPages .small 2048 .blank).1 = 0 ∧ RunFree .small .blank 2048 0 ∧
    ¬ IsFirstFit .small 2048 .blank := by
  have hnull : (allocPages .small 2048 .blank).1 = 0 := by decide +kernel
  have hfree : RunFree .small .blank 2048 0 := fun j _ _ => ByteMemory.load_of_zero fun _ _ _ => rfl
  exact ⟨by decide, hnull, hfree, fun hfit => hfit.1 hnull 0 (by decide) hfree⟩

/-! ## 3. Giving pages back -/

/-- The clearing loop does not touch what lies below the pages. -/
theorem clearPages_below (page count : Nat) (k : Kernel) {x : Nat} (hx : x < physOf k.mmu page) :
    (clearPages page count k).mem x = k.mem x := by
  have hclear : ∀ n, (k.clear page n).mem x = k.mem x := fun n =>
    zeroFill_outside k.mem (Or.inl hx)
  unfold clearPages
  dsimp only
  split
  · split
    · exact hclear _
    · rfl
  · split
    · exact hclear _
    · rfl

/-- `dealloc_pages` gives back the pages that `alloc_pages` has handed out: for a run of pages of
    the heap, named by either of its addresses, all refcounts are again what they were. -/
def GivesBack (L : Layout) (count : Nat) (k : Kernel) : Prop :=
  ∀ i, i + count ≤ L.entryCount → (allocPages L count k).1 = L.pageAddr i →
    ∀ page, NamesPage L k.mmu page i → ∀ j, j < L.entryCount →
      rc L (deallocPages L page count (allocPages L count k).2) j = rc L k j

section Back

variable {L : Layout} (hL : L.WellFormed) {k : Kernel} {count i : Nat}
include hL

/-- The refcounts after `alloc_pages`. -/
theorem allocPages_rc (hc : 1 ≤ count) (hcN : count ≤ L.entryCount)
    (hcall : (allocPages L count k).1 = L.pageAddr i) :
    LowestRun L k count i ∧ i + count < L.entryCount ∧ InSight L k.mmu i ∧
      ∀ j, j < L.entryCount → rc L (allocPages L count k).2 j =
        if i ≤ j ∧ j < i + count then 1 else rc L k j := by
  have hbottom : 2 * count ≤ L.heapBottom := by
    obtain ⟨_, hb, _⟩ := hL.bounds
    omega
  rcases allocPages_scan hL k hc hbottom with ⟨_, hnull⟩ | ⟨i', hi, hfree, hmin, hscan⟩
  · rw [hnull] at hcall
    exact absurd hcall.symm (pageAddr_ne_zero hL i)
  · dsimp only at hscan
    rw [hscan, markEntries_mmu] at hcall ⊢
    classical
    rw [returned_page hL (by omega) k.mmu] at hcall
    have hsight : InSight L k.mmu i' := by
      by_contra hno
      rw [if_neg hno] at hcall
      exact pageAddr_ne_zero hL i hcall.symm
    rw [if_pos hsight] at hcall
    obtain rfl := pageAddr_inj.mp hcall
    refine ⟨⟨hi.le, hfree, hmin⟩, hi, hsight, fun j hj => ?_⟩
    rw [← (markEntries_spec hL hi.le k).1 j]
    refine rc_congr hL (fun x hx => clearPages_below _ _ _ ?_) hj
    rw [markEntries_mmu]
    have hphys := physOf_phys2safe_add hsight 0
    rw [Nat.add_zero, Nat.add_zero] at hphys
    rw [hphys, pageAddr_eq]
    exact Nat.lt_of_lt_of_le hx.2 (Nat.le_add_right _ _)

/-- **Giving back works unless it is the first page of the heap that was handed out.** -/
theorem givesBack_iff (hc : 1 ≤ count) :
    GivesBack L count k ↔ ¬ (count < L.entryCount ∧ RunFree L k count 0 ∧ InSight L k.mmu 0) := by
  constructor
  · -- the first page is below what `page_ref_count` knows
    rintro hback ⟨hlt, hfree, hsight⟩
    have hrun : LowestRun L k count 0 := ⟨by omega, hfree, fun j hj => absurd hj (Nat.not_lt_zero j)⟩
    have hcall : (allocPages L count k).1 = L.pageAddr 0 := by
      rcases @allocPages_result L hL k count hc hlt.le with ⟨i, hi, _, _, hcall⟩ | ⟨hno, _⟩
      · rw [hcall, hi.unique hrun]
      · exact absurd ⟨by omega, hsight⟩ (hno 0 hrun)
    obtain ⟨_, _, _, hrc⟩ := allocPages_rc hL hc hlt.le hcall
    have hrel := @deallocPages_spec L hL (allocPages L count k).2 (L.pageAddr 0) 0 count (by omega)
      (by omega) (Or.inl rfl)
    have h0 := hback 0 (by omega) hcall (L.pageAddr 0) (Or.inl rfl) 0 (by omega)
    rw [hrel.rc_eq 0 (by omega), if_neg fun h => h.1 rfl, hrc 0 (by omega), if_pos (by omega),
      hfree 0 (le_refl 0) (by omega)] at h0
    exact absurd h0 (by decide)
  · intro hno i hi hcall page hname j hj
    obtain ⟨hrun, hlt, hsight, hrc⟩ := allocPages_rc hL hc (by omega) hcall
    have hi0 : i ≠ 0 := by
      rintro rfl
      exact hno ⟨by omega, hrun.free, hsight⟩
    have hmmu : (allocPages L count k).2.mmu = k.mmu := by
      rw [Kernel.mmu, allocPages_satp, Kernel.mmu]
    have hrel := @deallocPages_spec L hL (allocPages L count k).2 page i count (by omega) hi
      (by rw [hmmu]; exact hname)
    rw [hrel.rc_eq j hj, hrc j hj]
    by_cases hin : i ≤ j ∧ j < i + count
    · rw [if_pos ⟨hi0, hin⟩, if_pos hin, hrun.free j hin.1 hin.2]
    · rw [if_neg fun h => hin h.2, if_neg hin]

end Back

/-! ## 4. What the scan touches -/

/-- The entries that the inner scan of `alloc_pages` reads. -/
def entriesRead (k : Kernel) : Nat → Nat → List Nat
  | 0, _ => []
  | n + 1, q => q :: if k.load 2 q ≠ 0 then [] else entriesRead k n (q + 2)

/-- The entries that the outer scan reads, `n` steps from entry `p`. -/
def scanRead (k : Kernel) (count : Nat) : Nat → Nat → List Nat
  | 0, _ => []
  | n + 1, p =>
    p :: (if k.load 2 p = 0 then entriesRead k (count - 1) (p + 2) else []) ++
      if k.load 2 p = 0 ∧ entriesFree k (count - 1) (p + 2) = true then []
      else scanRead k count n (p + 2)

/-- `alloc_pages` reads or marks the entry at `q`. -/
def ScanTouches (L : Layout) (count : Nat) (k : Kernel) (q : Nat) : Prop :=
  q ∈ scanRead k count (scanSteps L count) L.pagesBottom ∨
    ∃ p, scanEntries k count (scanSteps L count) L.pagesBottom = some p ∧
      ∃ i, i < count ∧ q = p + 2 * i

/-- `alloc_pages` reads and marks entries of the refcount table only. -/
def ScanInside (L : Layout) (count : Nat) (k : Kernel) : Prop :=
  ∀ q, ScanTouches L count k q → ∃ i, i < L.entryCount ∧ q = L.pagesBottom + 2 * i

theorem entriesRead_bound {k : Kernel} {n q x : Nat} (hx : x ∈ entriesRead k n q) :
    ∃ i, i < n ∧ x = q + 2 * i := by
  induction n generalizing q with
  | zero => exact (nomatch hx)
  | succ n ih =>
    rw [entriesRead] at hx
    rcases List.mem_cons.mp hx with rfl | hx
    · exact ⟨0, Nat.succ_pos n, rfl⟩
    · split at hx
      · exact (nomatch hx)
      · obtain ⟨i, hi, rfl⟩ := ih hx
        exact ⟨i + 1, Nat.succ_lt_succ hi, by omega⟩

/-- A run of zero entries is read to its end. -/
theorem entriesRead_all {k : Kernel} {n q i : Nat} (hfree : entriesFree k n q = true)
    (hi : i < n) : q + 2 * i ∈ entriesRead k n q := by
  induction n generalizing q i with
  | zero => exact absurd hi (Nat.not_lt_zero i)
  | succ n ih =>
    rw [entriesFree] at hfree
    rw [entriesRead]
    by_cases hz : k.load 2 q ≠ 0
    · rw [if_pos hz] at hfree
      exact absurd hfree (by decide)
    · rw [if_neg hz] at hfree ⊢
      cases i with
      | zero => exact List.mem_cons_self
      | succ i =>
        have hmem := ih hfree (Nat.lt_of_succ_lt_succ hi)
        rw [show q + 2 * (i + 1) = q + 2 + 2 * i by omega]
        exact List.mem_cons_of_mem _ hmem

theorem scanRead_bound {k : Kernel} {count n p x : Nat} (hx : x ∈ scanRead k count n p) :
    ∃ i, i < n + (count - 1) ∧ x = p + 2 * i := by
  induction n generalizing p with
  | zero => exact (nomatch hx)
  | succ n ih =>
    rw [scanRead, List.cons_append] at hx
    rcases List.mem_cons.mp hx with rfl | hx
    · exact ⟨0, by omega, rfl⟩
    · rcases List.mem_append.mp hx with hx | hx
      · split at hx
        · obtain ⟨i, hi, rfl⟩ := entriesRead_bound hx
          exact ⟨i + 1, by omega, by omega⟩
        · exact (nomatch hx)
      · split at hx
        · exact (nomatch hx)
        · obtain ⟨i, hi, rfl⟩ := ih hx
          exact ⟨i + 1, by omega, by omega⟩

/-- A scan for more entries than there are leaves the table. -/
theorem scanRead_leaves {k : Kernel} {count m n p : Nat} (hn : m < n) (hc : m < count) :
    p + 2 * m ∈ scanRead k count n p := by
  induction m generalizing n p with
  | zero =>
    obtain ⟨n, rfl⟩ := Nat.exists_eq_succ_of_ne_zero (Nat.ne_of_gt hn)
    rw [scanRead, List.cons_append]
    exact List.mem_cons_self
  | succ m ih =>
    obtain ⟨n, rfl⟩ := Nat.exists_eq_succ_of_ne_zero (Nat.ne_of_gt (Nat.zero_lt_of_lt hn))
    rw [scanRead, List.cons_append]
    apply List.mem_cons_of_mem
    apply List.mem_append.mpr
    rw [show p + 2 * (m + 1) = p + 2 + 2 * m by omega]
    by_cases hfound : k.load 2 p = 0 ∧ entriesFree k (count - 1) (p + 2) = true
    · left
      rw [if_pos hfound.1]
      exact entriesRead_all hfound.2 (by omega)
    · right
      rw [if_neg hfound]
      exact ih (Nat.lt_of_succ_lt_succ hn) (Nat.lt_of_succ_lt hc)

/-- What is found has been read. -/
theorem scanEntries_read {k : Kernel} {count n p q : Nat} (hc : 1 ≤ count)
    (hfound : scanEntries k count n p = some q) {i : Nat} (hi : i < count) :
    q + 2 * i ∈ scanRead k count n p := by
  induction n generalizing p with
  | zero =>
    rw [scanEntries] at hfound
    cases hfound
  | succ n ih =>
    rw [scanEntries] at hfound
    rw [scanRead, List.cons_append]
    split at hfound
    · rename_i htest
      rw [Option.some.injEq] at hfound
      subst hfound
      cases i with
      | zero => exact List.mem_cons_self
      | succ i =>
        apply List.mem_cons_of_mem
        apply List.mem_append_left
        rw [if_pos htest.1, show p + 2 * (i + 1) = p + 2 + 2 * i by omega]
        exact entriesRead_all htest.2 (by omega)
    · rename_i htest
      apply List.mem_cons_of_mem
      apply List.mem_append_right
      rw [if_neg htest]
      exact ih hfound

/-- **The scan stays in the table** if and only if its end is computed without wrapping around. -/
theorem scanInside_iff {L : Layout} (hL : L.WellFormed) {k : Kernel} {count : Nat}
    (hlt : count < 2 ^ 62) : ScanInside L count k ↔ 2 * count ≤ L.heapBottom := by
  obtain ⟨_, hb, hend, _, hle⟩ := hL.bounds
  constructor
  · intro hinside
    by_contra hwrap
    -- the end of the scan is far above the table
    have hsteps : L.entryCount < scanSteps L count := by
      rw [scanSteps, uintptr]
      omega
    have hread := @scanRead_leaves k count L.entryCount (scanSteps L count) L.pagesBottom hsteps
      (by omega)
    obtain ⟨i, hi, heq⟩ := hinside _ (Or.inl hread)
    omega
  · intro hN q htouch
    have hread : ∀ x ∈ scanRead k count (scanSteps L count) L.pagesBottom,
        ∃ i, i < L.entryCount ∧ x = L.pagesBottom + 2 * i := by
      intro x hx
      rw [scanSteps_eq hL hN] at hx
      by_cases hbig : L.entryCount < count
      · rw [Nat.sub_eq_zero_of_le hbig.le] at hx
        cases hx
      · obtain ⟨i, hi, hxi⟩ := scanRead_bound hx
        exact ⟨i, by omega, hxi⟩
    rcases htouch with hq | ⟨p, hfound, i, hi, rfl⟩
    · exact hread q hq
    · exact hread _ (scanEntries_read (Nat.one_le_of_lt hi) hfound hi)

/-- There are pages for a request, as far as the scan can see; for no pages at all, that there
    is a free page. -/
def HasPages (L : Layout) (k : Kernel) (count : Nat) : Prop :=
  ∃ i, i + count < L.entryCount ∧ RunFree L k (max 1 count) i

theorem scanEntries_zero (k : Kernel) (n p : Nat) :
    scanEntries k 0 n p = scanEntries k 1 n p := by
  induction n generalizing p with
  | zero => rfl
  | succ n ih => rw [scanEntries, scanEntries, ih]

/-- A call for no pages at all takes no page, but returns the first free one. -/
theorem allocPages_zero {L : Layout} (hL : L.WellFormed) (k : Kernel) :
    ((∀ i, i < L.entryCount → rc L k i ≠ 0) ∧ allocPages L 0 k = (0, k.fail)) ∨
    ∃ i, i < L.entryCount ∧ rc L k i = 0 ∧
      allocPages L 0 k = (safe2phys k.mmu (phys2safe k.mmu (L.pageAddr i)),
        clearPages (phys2safe k.mmu (L.pageAddr i)) 0 k) := by
  have hfirst := scanEntries_spec hL k (le_refl 1) L.entryCount 0 (by omega)
  rw [Nat.mul_zero, Nat.add_zero] at hfirst
  unfold allocPages
  rw [scanSteps_eq hL (Nat.zero_le _), Nat.sub_zero, scanEntries_zero]
  cases hscan : scanEntries k 1 L.entryCount L.pagesBottom with
  | none =>
    left
    refine ⟨fun i hi hz => hfirst.1 hscan i (Nat.zero_le i) (by omega) fun j h1 h2 => ?_, rfl⟩
    rwa [show j = i by omega]
  | some p =>
    right
    obtain ⟨i, rfl, _, hi, hfree, _⟩ := hfirst.2 p hscan
    have hidx : (L.pagesBottom + 2 * i - L.pagesBottom) / 2 = i := by omega
    refine ⟨i, by omega, hfree i (le_refl i) (by omega), ?_⟩
    dsimp only
    rw [hidx, markEntries]

/-- **What `alloc_pages` returns**, also for no pages at all. -/
theorem allocPages_page {L : Layout} (hL : L.WellFormed) {k : Kernel} (hR : L.Reachable k.mmu)
    {count : Nat} (hcN : 2 * count ≤ L.heapBottom) :
    (HasPages L k count ∧ ∃ i, i < L.entryCount ∧ rc L k i = 0 ∧
      (allocPages L count k).1 = L.pageAddr i) ∨
    (¬ HasPages L k count ∧ (allocPages L count k).1 = 0) := by
  by_cases hc : 1 ≤ count
  · have hmax : max 1 count = count := max_eq_right hc
    rcases allocPages_spec hL hR hc hcN with ⟨hno, hcall⟩ | ⟨i, hpage, hg⟩
    · right
      refine ⟨fun ⟨i, hi, hfree⟩ => hno i hi ?_, by rw [hcall]⟩
      rwa [hmax] at hfree
    · left
      have hbound := hg.bound
      refine ⟨⟨i, hbound, by rw [hmax]; exact hg.free⟩, i, by omega,
        hg.free i (le_refl i) (by omega), hpage⟩
  · obtain rfl : count = 0 := by omega
    rcases allocPages_zero hL k with ⟨hno, hcall⟩ | ⟨i, hi, hz, hcall⟩
    · right
      refine ⟨fun ⟨i, hi, hfree⟩ => hno i hi (hfree i (le_refl i) (by omega)), by rw [hcall]⟩
    · left
      refine ⟨⟨i, hi, fun j h1 h2 => ?_⟩, i, hi, hz, ?_⟩
      · rwa [show j = i by omega]
      · rw [hcall, safe2phys_phys2safe (hR.pageAddr hi)]

/-- The refcounts after `alloc_pages`, also for no pages at all. -/
theorem allocPages_counts {L : Layout} (hL : L.WellFormed) {k : Kernel} (hR : L.Reachable k.mmu)
    {count i : Nat} (hi : i < L.entryCount) (hcN : count ≤ L.entryCount)
    (hcall : (allocPages L count k).1 = L.pageAddr i) :
    rc L k i = 0 ∧ ∀ j, j < L.entryCount → rc L (allocPages L count k).2 j =
      if i ≤ j ∧ j < i + count then 1 else rc L k j := by
  by_cases hc : 1 ≤ count
  · obtain ⟨hrun, _, _, hrc⟩ := allocPages_rc hL hc hcN hcall
    exact ⟨hrun.free i (le_refl i) (by omega), hrc⟩
  · obtain rfl : count = 0 := by omega
    rcases allocPages_zero hL k with ⟨_, hnull⟩ | ⟨i', hi', hz, hscan⟩
    · rw [hnull] at hcall
      exact absurd hcall.symm (pageAddr_ne_zero hL i)
    · rw [hscan, safe2phys_phys2safe (hR.pageAddr hi')] at hcall
      obtain rfl := pageAddr_inj.mp hcall
      refine ⟨hz, fun j hj => ?_⟩
      rw [hscan, if_neg (by omega)]
      refine rc_congr hL (fun x hx => clearPages_below _ _ _ ?_) hj
      have hphys := physOf_phys2safe_add (hR.pageAddr hi') 0
      rw [Nat.add_zero, Nat.add_zero] at hphys
      rw [hphys, pageAddr_eq]
      exact Nat.lt_of_lt_of_le hx.2 (Nat.le_add_right _ _)

end IloPali
