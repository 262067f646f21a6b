import IloPali.HeapRuns

/-!
# How the heap grows

A region is formatted only when a free list is empty, and then every slot of the regions of
that size is a block in use; the pages of a large block are those of a block in use.  So
what the heap takes from `alloc_pages` is bounded by what is in use at one time,
however many calls there are.
-/

namespace IloPali

open LinkedList Transition

/-! ## 1. What is in use -/

/-- The blocks in use whose bucket has the size of a class. -/
def HeapTrace.inUse (s : HeapTrace) (c : SizeClass) : Nat :=
  s.live.countP fun b => s.heap.kernel.size b.bucket = c.size

/-- The regions formatted for a class. -/
def HeapTrace.regionCount (s : HeapTrace) (c : SizeClass) : Nat :=
  s.regions.countP fun r => r.2 = c

theorem SizeClass.size_inj {c c' : SizeClass} (h : c.size = c'.size) : c = c' := by
  apply Option.some.inj
  rw [← sizeClass_size c, ← sizeClass_size c', h]

/-- The slots of the regions of a class, but for those that end after the region. -/
def wholeSlots (L : Layout) (mmu : Bool) (c : SizeClass) (rs : List PageRun) : List Nat :=
  (rs.filter fun r => r.cls = some c).flatMap fun r =>
    (List.range c.slotCount).map (c.slot (r.start L mmu))

section Slots

variable {L : Layout} {mmu : Bool} {c : SizeClass} {rs : List PageRun}

theorem mem_wholeSlots {x : Nat} : x ∈ wholeSlots L mmu c rs ↔
    ∃ r ∈ rs, r.cls = some c ∧ ∃ j, j < c.slotCount ∧ c.slot (r.start L mmu) j = x := by
  simp [wholeSlots, and_assoc]

theorem wholeSlots_cons_of_cls {r : PageRun} (h : r.cls = some c) :
    wholeSlots L mmu c (r :: rs) =
      (List.range c.slotCount).map (c.slot (r.start L mmu)) ++ wholeSlots L mmu c rs := by
  simp [wholeSlots, h]

theorem wholeSlots_cons_of_ne {r : PageRun} (h : r.cls ≠ some c) :
    wholeSlots L mmu c (r :: rs) = wholeSlots L mmu c rs := by
  simp [wholeSlots, h]

theorem length_wholeSlots :
    (wholeSlots L mmu c rs).length = rs.countP (fun r => r.cls = some c) * c.slotCount := by
  induction rs with
  | nil => simp [wholeSlots]
  | cons r rs ih =>
    by_cases h : r.cls = some c
    · rw [wholeSlots_cons_of_cls h, List.length_append, ih, List.countP_cons_of_pos (by simpa using h),
        Nat.succ_mul, Nat.add_comm]
      simp
    · rw [wholeSlots_cons_of_ne h, ih, List.countP_cons_of_neg (by simpa using h)]

theorem wholeSlots_sublist : (wholeSlots L mmu c rs).Sublist (buckets L mmu rs) := by
  induction rs with
  | nil => simp [wholeSlots]
  | cons r rs ih =>
    rw [buckets_cons]
    by_cases h : r.cls = some c
    · rw [wholeSlots_cons_of_cls h]
      refine List.Sublist.append ?_ ih
      rw [PageRun.pieces, h]
      dsimp only
      rw [SizeClass.pieces_fst, SizeClass.slots, List.range_succ, List.map_append]
      exact List.sublist_append_left _ _
    · rw [wholeSlots_cons_of_ne h]
      exact ih.trans (List.sublist_append_right _ _)

end Slots

section Lists

variable {L : Layout} {h : Heap} {rs : List PageRun} {used : List Nat}
  {free : SizeClass → List Nat}

/-- A slot that is whole lies in the used list if the list for its size is empty. -/
theorem HeapInv.used_of_empty (hi : HeapInv L h rs used free []) {c : SizeClass} (hz : h.free c = 0)
    {x : Nat} (hx : x ∈ wholeSlots L h.kernel.mmu c rs) : x ∈ used ∧ h.kernel.size x = c.size := by
  have hempty : free c = [] := by
    have hchain := hi.freeChain c
    rw [hz] at hchain
    exact hchain.unique rfl
  obtain ⟨r, hr, hcls, j, hj, rfl⟩ := mem_wholeSlots.mp hx
  have hsized := hi.pages.sized r hr
  unfold PageRun.Sized at hsized
  rw [hcls] at hsized
  have hsize := hsized.1 j hj
  refine ⟨?_, hsize⟩
  have hmem := hi.all.mem_iff.mpr (HeapPages.slot_mem hr hcls (Nat.le_of_lt hj))
  rcases List.mem_append.mp hmem with hused | hfree
  · simpa using hused
  · obtain ⟨c', hc'⟩ := mem_allFree.mp hfree
    have hpos := c.size_pos
    rcases hi.fits c' _ hc' with hfit | hfit
    · rw [SizeClass.size_inj (hsize.symm.trans hfit)] at hempty
      rw [hempty] at hc'
      cases hc'
    · omega

end Lists

namespace TraceInv

variable {L : Layout} {s : HeapTrace} {rs : List PageRun} {free : SizeClass → List Nat}

/-- **An empty list is a full heap**: every whole slot of its size is in use. -/
theorem full_of_empty (hi : TraceInv L s rs free) {c : SizeClass} (hz : s.heap.free c = 0) :
    rs.countP (fun r => r.cls = some c) * c.slotCount ≤ s.inUse c := by
  have hnodup : (wholeSlots L s.heap.kernel.mmu c rs).Nodup :=
    wholeSlots_sublist.nodup (hi.lists.pages.toRunsPlaced.buckets_nodup)
  have hsub : wholeSlots L s.heap.kernel.mmu c rs ⊆
      (s.live.filter fun b => s.heap.kernel.size b.bucket = c.size).map LiveBlock.bucket := by
    intro x hx
    obtain ⟨hused, hsize⟩ := hi.lists.used_of_empty hz hx
    obtain ⟨b, hb, rfl⟩ := List.mem_map.mp hused
    exact List.mem_map_of_mem (List.mem_filter.mpr ⟨hb, decide_eq_true hsize⟩)
  have hle := (List.subperm_of_subset hnodup hsub).length_le
  rwa [length_wholeSlots, List.length_map, ← List.countP_eq_length_filter] at hle

end TraceInv

/-! ## 2. Calls -/

/-- **The invariant of growth**: the regions are counted by the runs of pages, and the last one of each
    class was needed. -/
structure GrowthInv (L : Layout) (P : SizeClass → Nat) (s : HeapTrace) (rs : List PageRun)
    (free : SizeClass → List Nat) : Prop extends TraceInv L s rs free where
  counted : ∀ c, s.regionCount c = rs.countP fun r => r.cls = some c
  needed : ∀ c, s.regionCount c * c.slotCount ≤ P c + c.slotCount

namespace GrowthInv

variable {L : Layout} {P : SizeClass → Nat} {s : HeapTrace} {rs : List PageRun}
  {free : SizeClass → List Nat}

theorem initial (h : s.Initial) (hR : L.Reachable s.heap.kernel.mmu) :
    GrowthInv L P s [] fun _ => [] :=
  ⟨.initial h hR, fun c => by simp [HeapTrace.regionCount, h.regions],
    fun c => by simp [HeapTrace.regionCount, h.regions]⟩

theorem resized (hi : GrowthInv L P s rs free) (p newSize : Nat) :
    GrowthInv L P (s.resized p newSize) rs free :=
  ⟨hi.toTraceInv.resized p newSize, hi.counted, hi.needed⟩

variable (hL : L.WellFormed)
include hL

theorem freed (hi : GrowthInv L P s rs free) {b : LiveBlock} (hb : b ∈ s.live) :
    ∃ rs' free', GrowthInv L P (s.freed L (b.bucket + HEADER_SIZE)) rs' free' := by
  obtain ⟨rs', free', hinv, _, hrs⟩ := hi.toTraceInv.freed hL hb
  have hsame (c : SizeClass) :
      (s.freed L (b.bucket + HEADER_SIZE)).regionCount c = s.regionCount c := by
    simp only [HeapTrace.regionCount, HeapTrace.freed]
  refine ⟨rs', free', hinv, fun c => ?_, fun c => ?_⟩
  · rw [hsame, hi.counted]
    rcases hrs with rfl | ⟨r, hr, hcls, _, rfl⟩
    · rfl
    · -- the pages that are given back are of no class
      rw [(List.perm_cons_erase hr).countP_eq, List.countP_cons_of_neg (by simp [hcls])]
  · rw [hsame]
    exact hi.needed c

/-- A call takes a region only where all regions of the class are full. -/
theorem allocated (hi : GrowthInv L P s rs free) {size : Nat} (hlt : size < 2 ^ 64) (origin : Nat)
    (hcount : ∀ n, requestedPages s.heap size = some n → 1 ≤ n ∧ 2 * n ≤ L.heapBottom)
    (hok : ∀ n, requestedPages s.heap size = some n → (allocPages L n s.heap.kernel).1 ≠ 0)
    (hP : ∀ c, s.inUse c ≤ P c) :
    ∃ rs' free', GrowthInv L P (s.allocated L size origin) rs' free' := by
  by_cases h0 : size = 0
  · rw [h0, TraceInv.allocated_zero]
    exact ⟨rs, free, hi⟩
  obtain ⟨rs', free', b, hinv, hp, _, _, _, htaken⟩ :=
    hi.toTraceInv.allocated hL h0 hlt origin hcount hok
  have hne : b + HEADER_SIZE ≠ 0 := Nat.ne_of_gt (Nat.add_pos_right b (by decide))
  rcases htaken with ⟨hreq, rfl, _⟩ | ⟨r, hreq, rfl, hcls, _⟩
  · have hsame : (s.allocated L size origin).regions = s.regions := by
      simp only [HeapTrace.allocated, hp, if_neg hne, hreq]
    refine ⟨rs', free', hinv, fun c => ?_, fun c => ?_⟩
    · rw [HeapTrace.regionCount, hsame]
      exact hi.counted c
    · rw [HeapTrace.regionCount, hsame]
      exact hi.needed c
  · cases hc : sizeClass size with
    | none =>
      have hsame : (s.allocated L size origin).regions = s.regions := by
        simp only [HeapTrace.allocated, hp, if_neg hne, hreq, hc]
      rw [hc] at hcls
      refine ⟨r :: rs, free', hinv, fun c => ?_, fun c => ?_⟩
      · rw [HeapTrace.regionCount, hsame, List.countP_cons_of_neg (by simp [hcls])]
        exact hi.counted c
      · rw [HeapTrace.regionCount, hsame]
        exact hi.needed c
    | some c0 =>
      rw [hc] at hcls
      have hz : s.heap.free c0 = 0 := by
        rw [requestedPages, if_neg h0, hc] at hreq
        dsimp only at hreq
        by_contra hz
        rw [if_neg hz] at hreq
        cases hreq
      have hfull := (hi.toTraceInv.full_of_empty hz).trans (hP c0)
      rw [← hi.counted] at hfull
      have hregions : ∃ data, (s.allocated L size origin).regions = (data, c0) :: s.regions := by
        simp only [HeapTrace.allocated, hp, if_neg hne, hreq, hc]
        exact ⟨_, rfl⟩
      obtain ⟨data, hregions⟩ := hregions
      have hadd (c : SizeClass) : (s.allocated L size origin).regionCount c =
          s.regionCount c + if c0 = c then 1 else 0 := by
        rw [HeapTrace.regionCount, hregions, List.countP_cons, HeapTrace.regionCount]
        simp
      refine ⟨r :: rs, free', hinv, fun c => ?_, fun c => ?_⟩
      · rw [hadd, hi.counted, List.countP_cons, hcls]
        simp
      · rw [hadd]
        by_cases h : c0 = c
        · subst h
          rw [if_pos rfl, Nat.succ_mul]
          exact Nat.add_le_add_right hfull _
        · rw [if_neg h]
          exact hi.needed c

/-- **One call.** -/
theorem step {op : HeapOp} (hi : GrowthInv L P s rs free) (hc : s.Countable L op)
    (hP : ∀ c, s.inUse c ≤ P c) (ha : s.Allowed op) (hg : s.Given L op) :
    ∃ rs' free', GrowthInv L P (s.step (fun _ _ _ k => k) L op) rs' free' := by
  cases op with
  | malloc size origin =>
    rw [step_malloc]
    exact hi.allocated hL (ha.size size rfl) origin (hc size rfl) (hg size rfl) hP
  | free p =>
    by_cases hp : p = 0
    · rw [HeapTrace.step, hp, TraceInv.freed_null]
      exact ⟨rs, free, hi⟩
    · obtain ⟨b, hb, rfl⟩ := HeapTrace.MayFree.live ha.pointer hp
      exact hi.freed hL hb
  | realloc p newSize origin =>
    by_cases hp : p = 0
    · subst hp
      rw [step_realloc_null]
      have hasked : s.asked (.realloc 0 newSize origin) = some newSize := by
        rw [HeapTrace.asked, if_pos (Or.inl rfl)]
      exact hi.allocated hL (ha.size _ hasked) origin (hc _ hasked) (hg _ hasked) hP
    · by_cases hkeep : newSize ≤ s.heap.kernel.size (p - HEADER_SIZE)
      · rw [step_realloc_keep hp hkeep]
        exact ⟨rs, free, hi.resized p newSize⟩
      · have hmove := Nat.not_le.mp hkeep
        have hasked : s.asked (.realloc p newSize origin) = some newSize := by
          rw [HeapTrace.asked, if_pos (Or.inr hmove)]
        obtain ⟨_, _, b', _, hnew, hlive, _⟩ := hi.toTraceInv.allocated hL
          (Nat.ne_of_gt (Nat.zero_lt_of_lt hmove)) (ha.size _ hasked) origin (hc _ hasked)
          (hg _ hasked)
        obtain ⟨rs', free', hinv⟩ := hi.allocated hL (ha.size _ hasked) origin (hc _ hasked)
          (hg _ hasked) hP
        rw [step_realloc_move hp hmove (by rw [hnew, HEADER_SIZE]; omega)]
        obtain ⟨b, hb, rfl⟩ := HeapTrace.MayFree.live ha.pointer hp
        have hb' : b ∈ (s.allocated L newSize origin).live := by
          rw [hlive]
          exact List.mem_cons_of_mem _ hb
        exact hinv.freed hL hb'

end GrowthInv

/-! ## 3. Runs -/

end IloPali
