import IloPali.HeapContents

/-!
# What `malloc` asks for

`malloc` asks `alloc_pages` for pages, for a region or for a large block.  This module is
about the borders: there are no pages, the number of pages has wrapped around, or the end of the
scan for them has; and about large blocks, whose pages `free` gives back.
-/

namespace IloPali

open ByteMemory Transition

/-! ## 1. No pages -/

/-- `malloc` returns `NULL` and leaves the lists and the memory as they were, unlocked. -/
structure FailsCleanly (L : Layout) (size origin : Nat) (h : Heap) : Prop where
  null : (malloc L size origin h).1 = 0
  used : (malloc L size origin h).2.used = h.used
  free : (malloc L size origin h).2.free = h.free
  memory : (malloc L size origin h).2.kernel.mem = h.kernel.mem
  unlocked : (malloc L size origin h).2.mutating = false

theorem phys2safe_null : phys2safe true 0 = KERNEL_SPACE_OFFSET := by decide

/-- With the MMU on, `phys2safe` makes the start of the direct map of `NULL`, and that is the
    block that is handed out. -/
theorem freeBucketsAlloc_null_on {L : Layout} {h : Heap} {size n : Nat} (origin : Nat)
    (hreq : requestedPages h size = some n) (hon : h.kernel.mmu = true)
    (hnull : (allocPages L n h.kernel).1 = 0) :
    (freeBucketsAlloc L size origin h).1 = KERNEL_SPACE_OFFSET + HEADER_SIZE := by
  have hmmu : (allocPages L n h.kernel).2.mmu = true := by
    rw [Kernel.mmu, allocPages_satp]
    exact hon
  have hne : KERNEL_SPACE_OFFSET ≠ 0 := by decide
  unfold requestedPages at hreq
  split at hreq
  · cases hreq
  · rename_i h0
    rw [freeBucketsAlloc, if_neg h0]
    cases hc : sizeClass size with
    | none =>
      rw [hc] at hreq
      obtain rfl := Option.some.inj hreq
      simp only [takePages, hmmu, hnull, phys2safe_null, if_neg hne]
    | some c =>
      rw [hc] at hreq
      dsimp only at hreq
      split at hreq
      · rename_i hz
        obtain rfl := Option.some.inj hreq
        simp only [takeBucket, refill, hz, if_true, hmmu, hnull, phys2safe_null, if_neg hne,
          Function.update_self]
      · cases hreq

/-- **When `malloc` fails cleanly**: with the MMU off. -/
theorem malloc_fails_cleanly_iff (L : Layout) (hL : L.WellFormed) (h : Heap) (size origin n : Nat)
    (hreq : requestedPages h size = some n) (hnull : (allocPages L n h.kernel).1 = 0) :
    FailsCleanly L size origin h ↔ h.kernel.mmu = false := by
  constructor
  · intro hclean
    by_contra hon
    rw [Bool.not_eq_false] at hon
    have hp := hclean.null
    rw [malloc, freeBucketsAlloc_null_on origin hreq hon hnull] at hp
    exact absurd hp (by decide)
  · intro hoff
    have hcall := freeBucketsAlloc_null origin hreq hoff (allocPages_null hL hoff hnull)
    constructor
    · rw [malloc, hcall]
    · rw [malloc, hcall]
    · rw [malloc, hcall]
    · rw [malloc, hcall]
      rfl
    · rw [malloc, hcall]

/-- A heap of 2048 pages with nothing in it, on a machine with the given `satp`. -/
def Heap.fresh (satp : Word) : Heap := ⟨⟨fun _ => 0, satp, 0⟩, false, 0, fun _ => 0⟩

theorem malloc_fails_cleanly_off : FailsCleanly .small 0x1000000 0 (.fresh 0#64) ↔
    (Heap.fresh 0#64).kernel.mmu = false :=
  malloc_fails_cleanly_iff .small Layout.small_wellFormed (.fresh 0#64) 0x1000000 0 4097
    (by decide +kernel) (by decide +kernel)

/-- With the MMU on, a block is handed out for which there are no pages: it lies at physical
    address 0. -/
theorem malloc_hands_out_null : (allocPages .small 4097 (Heap.fresh (1#64 <<< 63)).kernel).1 = 0 ∧
    requestedPages (.fresh (1#64 <<< 63)) 0x1000000 = some 4097 ∧
    ¬ FailsCleanly .small 0x1000000 0 (.fresh (1#64 <<< 63)) := by
  refine ⟨by decide +kernel, by decide +kernel, fun hclean => ?_⟩
  exact absurd hclean.null (by decide +kernel)

/-! ## 2. Enough bytes -/

/-- The `n` bytes at `ptr` lie in pages of the heap that are marked as used. -/
def Backed (L : Layout) (k : Kernel) (ptr n : Nat) : Prop :=
  ∀ i, i < n → ∃ j, j < L.entryCount ∧ rc L k j ≠ 0 ∧ InPages L j 1 (physOf k.mmu (ptr + i))

/-- `malloc` returns `NULL`, or a block whose header counts at least what was asked for and that
    lies in used pages together with its header; and the scan for its pages stays in the table. -/
structure AllocatesEnough (L : Layout) (size origin : Nat) (h : Heap) : Prop where
  counted : (malloc L size origin h).1 ≠ 0 →
    size ≤ (malloc L size origin h).2.kernel.size ((malloc L size origin h).1 - HEADER_SIZE)
  backed : (malloc L size origin h).1 ≠ 0 →
    Backed L (malloc L size origin h).2.kernel ((malloc L size origin h).1 - HEADER_SIZE)
      (HEADER_SIZE + size)
  scan : ∀ n, requestedPages h size = some n → ScanInside L n h.kernel

/-- The number of pages does not wrap around. -/
def NoWrap (size : Nat) : Prop := size + HEADER_SIZE + PAGE_SIZE - 1 < 2 ^ 64

/-- A request for which `malloc` allocates enough: if it takes a block from a free list, that
    block has a size in its header; if it needs pages, the scan for them does not wrap around, if
    there are pages then their number has not wrapped around, and if there are none then the MMU
    is off. -/
def EnoughFor (L : Layout) (h : Heap) (size : Nat) : Prop :=
  match requestedPages h size with
  | none => size ≠ 0 → ∀ c, sizeClass size = some c → h.kernel.size (h.free c) ≠ 0
  | some n => 2 * n ≤ L.heapBottom ∧ (HasPages L h.kernel n → NoWrap size) ∧
      (¬ HasPages L h.kernel n → h.kernel.mmu = false)

theorem inPages_iff {L : Layout} {j x : Nat} :
    InPages L j 1 x ↔ L.heapBottom + 4096 * j ≤ x ∧ x < L.heapBottom + 4096 * j + 4096 := by
  simp only [InPages, pageAddr_eq]
  omega

theorem formatLoop_satp (data size bucketSize totalSize fuel i : Nat) (k : Kernel) :
    (formatLoop data size bucketSize totalSize fuel i k).satp = k.satp := by
  induction fuel generalizing i k with
  | zero => rfl
  | succ fuel ih =>
    rw [formatLoop]
    split
    · rw [ih]
      rfl
    · rfl

theorem linkUsed_satp (b origin : Nat) (h : Heap) :
    (linkUsed b origin h).kernel.satp = h.kernel.satp := by
  unfold linkUsed
  dsimp only
  split
  · rfl
  · rfl

theorem refill_satp (L : Layout) (c : SizeClass) (h : Heap) :
    (refill L c h).kernel.satp = h.kernel.satp := by
  unfold refill
  dsimp only
  split
  · exact allocPages_satp L _ _
  · exact (formatLoop_satp _ _ _ _ _ _ _).trans (allocPages_satp L _ _)

theorem takeBucket_satp (L : Layout) (c : SizeClass) (h : Heap) :
    (takeBucket L c h).2.kernel.satp = h.kernel.satp := by
  unfold takeBucket
  by_cases hz : h.free c = 0
  · rw [if_pos hz]
    dsimp only
    split
    · exact refill_satp L c h
    · exact refill_satp L c h
  · rw [if_neg hz]
    dsimp only
    split
    · rfl
    · rfl

theorem takePages_satp (L : Layout) (size : Nat) (h : Heap) :
    (takePages L size h).2.kernel.satp = h.kernel.satp := by
  unfold takePages
  dsimp only
  split
  · exact allocPages_satp L _ _
  · exact allocPages_satp L _ _

/-- The heap does not touch `satp`. -/
theorem freeBucketsAlloc_satp (L : Layout) (size origin : Nat) (h : Heap) :
    (freeBucketsAlloc L size origin h).2.kernel.satp = h.kernel.satp := by
  unfold freeBucketsAlloc
  split
  · rfl
  · cases sizeClass size with
    | none =>
      dsimp only
      split
      · exact takePages_satp L size _
      · exact (linkUsed_satp _ _ _).trans (takePages_satp L size _)
    | some c =>
      dsimp only
      split
      · exact takeBucket_satp L c _
      · exact (linkUsed_satp _ _ _).trans (takeBucket_satp L c _)

section Enough

variable {L : Layout} (hL : L.WellFormed) {s : HeapTrace} {rs : List PageRun}
  {free : SizeClass → List Nat}
include hL

/-- A block of the heap lies in used pages. -/
theorem HeapPages.backed {k : Kernel} (h : HeapPages L k rs) {b len n : Nat}
    (hb : (b, len) ∈ pieces L k.mmu rs) (hn : n ≤ len) : Backed L k b n := by
  intro i hi
  obtain ⟨r, hr, hpr⟩ := List.mem_flatMap.mp hb
  have hbound := (h.placed r hr).bound
  obtain ⟨h1, h2⟩ := h.piece_phys hL hr hpr
  have hdir := ((h.headersApart hL).direct b (List.mem_map_of_mem hb)).physOf_add i
  rw [pageAddr_eq] at h1 h2
  refine ⟨(physOf k.mmu (b + i) - L.heapBottom) / 4096, by omega, h.taken r hr _ (by omega) (by omega),
    inPages_iff.mpr (by omega)⟩

omit hL in
/-- Nothing at physical address 0 belongs to the heap. -/
theorem not_backed_null {k : Kernel} (hpos : 0 < L.heapBottom) (hon : k.mmu = true) {n : Nat}
    (hn : 0 < n) : ¬ Backed L k KERNEL_SPACE_OFFSET n := by
  intro hback
  obtain ⟨j, _, _, hin⟩ := hback 0 hn
  rw [inPages_iff, hon, Nat.add_zero, physOf, safe2phys_on (le_refl _), Nat.sub_self] at hin
  omega

/-- No block of the heap reaches as far as a size for which the number of pages wraps around. -/
theorem not_backed_wrap {k : Kernel} {i size : Nat} (hi : i < L.entryCount)
    (hR : L.Reachable k.mmu) (hwrap : ¬ NoWrap size) :
    ¬ Backed L k (phys2safe k.mmu (L.pageAddr i)) (HEADER_SIZE + size) := by
  intro hback
  obtain ⟨_, hb, hend, _⟩ := hL.bounds
  obtain ⟨j, hj, _, hin⟩ := hback size (by rw [HEADER_SIZE]; omega)
  rw [physOf_phys2safe_add (hR.pageAddr hi), inPages_iff, pageAddr_eq] at hin
  rw [NoWrap, HEADER_SIZE, PAGE_SIZE] at hwrap
  omega

omit hL in
theorem requestedPages_lt {h : Heap} {size n : Nat} (hreq : requestedPages h size = some n) :
    n < 2 ^ 62 := by
  unfold requestedPages at hreq
  split at hreq
  · exact (nomatch hreq)
  · split at hreq
    · split at hreq
      · rw [← Option.some.inj hreq]
        decide
      · exact (nomatch hreq)
    · rw [← Option.some.inj hreq, pageCount, PAGE_SIZE]
      omega

/-- What is known of a block that `free_buckets_alloc` has got. -/
theorem TraceInv.enough (hi : TraceInv L s rs free) {size : Nat} (h0 : size ≠ 0)
    (hlt : size < 2 ^ 64) (origin : Nat) (hsmall : NoWrap size)
    (hcount : ∀ n, requestedPages s.heap size = some n → 1 ≤ n ∧ 2 * n ≤ L.heapBottom)
    (hok : ∀ n, requestedPages s.heap size = some n → (allocPages L n s.heap.kernel).1 ≠ 0)
    (hhead : requestedPages s.heap size = none → ∀ c, sizeClass size = some c →
      s.heap.kernel.size (s.heap.free c) ≠ 0) : AllocatesEnough L size origin s.heap := by
  obtain ⟨rs', free', b, hp, hinv, hkeep, hlarge, hfrom⟩ :=
    hi.lists.alloc hL h0 hlt origin hcount hok
  have hb := hinv.mem_used (b := b) List.mem_cons_self
  obtain ⟨len, hlen, hroom⟩ := hinv.pages.piece_room hb
  -- the header counts at least the size, and no more than the block can have
  have hcounted : size ≤ (freeBucketsAlloc L size origin s.heap).2.kernel.size b ∧
      NoWrap ((freeBucketsAlloc L size origin s.heap).2.kernel.size b) := by
    have hclass : ∀ c, sizeClass size = some c →
        (freeBucketsAlloc L size origin s.heap).2.kernel.size b = c.size →
        size ≤ (freeBucketsAlloc L size origin s.heap).2.kernel.size b ∧
          NoWrap ((freeBucketsAlloc L size origin s.heap).2.kernel.size b) := by
      intro c hc hcs
      have hmax := c.size_le
      rw [hcs, NoWrap, HEADER_SIZE, PAGE_SIZE]
      exact ⟨sizeClass_le hc, by omega⟩
    cases hc : sizeClass size with
    | none =>
      rw [hlarge hc]
      exact ⟨le_refl size, hsmall⟩
    | some c =>
      rcases hfrom with ⟨hnone, rfl, c', hc', rfl⟩ | ⟨r, _, rfl, hcls, _, rfl⟩
      · obtain rfl := Option.some.inj (hc.symm.trans hc')
        have hne : s.heap.free c ≠ 0 := by
          intro hz
          rw [hz] at hb
          exact absurd rfl (hinv.pages.ne_zero hL hb)
        rw [hkeep.mmu] at hb
        refine hclass c hc ((hkeep.size _ hb).trans ?_)
        exact (hi.lists.fits c _ (hi.lists.head_free hne)).resolve_right (hhead hnone c hc)
      · refine hclass c hc ?_
        have hsized := hinv.pages.sized r List.mem_cons_self
        unfold PageRun.Sized at hsized
        rw [hcls, hc, hkeep.mmu] at hsized
        have hfirst := hsized.1 0 c.slotCount_pos
        rwa [SizeClass.slot_zero] at hfirst
  have hfull := hroom hcounted.2
  refine ⟨fun _ => ?_, fun _ => ?_, fun n hn => ?_⟩
  · rw [malloc, hp, Nat.add_sub_cancel]
    exact hcounted.1
  · rw [malloc, hp, Nat.add_sub_cancel]
    exact hinv.pages.backed hL hlen (by omega)
  · have hN := (hcount n hn).2
    refine (scanInside_iff hL ?_).mpr hN
    obtain ⟨_, hb, hend, _⟩ := hL.bounds
    omega

omit hL in
/-- The block for a size that no free list serves. -/
theorem freeBucketsAlloc_large {h : Heap} {size b : Nat} (origin : Nat)
    (hc : sizeClass size = none)
    (hb : phys2safe h.kernel.mmu (allocPages L (pageCount size) h.kernel).1 = b) (hne : b ≠ 0) :
    freeBucketsAlloc L size origin h = (b + HEADER_SIZE, { linkUsed b origin { h with
      kernel := (allocPages L (pageCount size) h.kernel).2.setSize b size
      mutating := true } with mutating := false }) := by
  have hmmu : (allocPages L (pageCount size) h.kernel).2.mmu = h.kernel.mmu := by
    rw [Kernel.mmu, allocPages_satp, Kernel.mmu]
  have h0 : size ≠ 0 := by
    rintro rfl
    cases hc
  rw [freeBucketsAlloc, if_neg h0, hc]
  simp only [takePages, hmmu, hb, if_neg hne]

/-- A request for pages, where the scan for them does not wrap around. -/
theorem TraceInv.enough_iff (hi : TraceInv L s rs free) {size n : Nat} (h0 : size ≠ 0)
    (hlt : size < 2 ^ 64) (origin : Nat) (hreq : requestedPages s.heap size = some n)
    (hN : 2 * n ≤ L.heapBottom) (hscan : ScanInside L n s.heap.kernel) :
    AllocatesEnough L size origin s.heap ↔ (HasPages L s.heap.kernel n → NoWrap size) ∧
      (¬ HasPages L s.heap.kernel n → s.heap.kernel.mmu = false) := by
  have hR := hi.lists.pages.reach
  have hpos : 0 < L.heapBottom := by
    obtain ⟨hpos, hb, _⟩ := hL.bounds
    omega
  have hmmu : (freeBucketsAlloc L size origin s.heap).2.kernel.mmu = s.heap.kernel.mmu := by
    rw [Kernel.mmu, freeBucketsAlloc_satp, Kernel.mmu]
  rcases allocPages_page hL hR hN with ⟨hpages, i, hi', _, hpage⟩ | ⟨hno, hnull⟩
  · have hsafe := phys2safe_pos (Nat.pos_of_ne_zero (pageAddr_ne_zero hL i)) (hR.pageAddr hi')
    constructor
    · intro henough
      refine ⟨fun _ => ?_, fun hcon => absurd hpages hcon⟩
      by_contra hwrap
      -- a block was handed out that cannot be as large as that
      have hc : sizeClass size = none := by
        rw [sizeClass_eq_none]
        rw [NoWrap, HEADER_SIZE, PAGE_SIZE] at hwrap
        omega
      have hn : n = pageCount size := by
        rw [requestedPages, if_neg h0, hc] at hreq
        exact (Option.some.inj hreq).symm
      rw [hn] at hpage
      have hp : (freeBucketsAlloc L size origin s.heap).1 =
          phys2safe s.heap.kernel.mmu (L.pageAddr i) + HEADER_SIZE := by
        rw [freeBucketsAlloc_large origin hc (by rw [hpage]) hsafe.ne']
      have hback := henough.backed (by rw [malloc, hp]; exact Nat.succ_ne_zero _)
      rw [malloc, hp, Nat.add_sub_cancel, ← hmmu] at hback
      exact not_backed_wrap hL hi' (by rw [hmmu]; exact hR) hwrap hback
    · rintro ⟨hsmall, _⟩
      have hsmall := hsmall hpages
      refine hi.enough hL h0 hlt origin hsmall (fun m hm => ?_) (fun m hm => ?_) fun hnone => ?_
      · obtain rfl := Option.some.inj (hreq.symm.trans hm)
        exact ⟨requestedPages_pos hsmall hm, hN⟩
      · obtain rfl := Option.some.inj (hreq.symm.trans hm)
        rw [hpage]
        exact pageAddr_ne_zero hL i
      · rw [hreq] at hnone
        cases hnone
  · cases hon : s.heap.kernel.mmu with
    | false =>
      have hcall := freeBucketsAlloc_null origin hreq hon (allocPages_null hL hon hnull)
      have hp : (malloc L size origin s.heap).1 = 0 := by rw [malloc, hcall]
      refine ⟨fun _ => ⟨fun hcon => absurd hcon hno, fun _ => rfl⟩, fun _ => ?_⟩
      refine ⟨fun hne => absurd hp hne, fun hne => absurd hp hne, fun m hm => ?_⟩
      rwa [← Option.some.inj (hreq.symm.trans hm)]
    | true =>
      have hp := freeBucketsAlloc_null_on origin hreq hon hnull
      constructor
      · intro henough
        have hback := henough.backed (by rw [malloc, hp]; decide)
        rw [malloc, hp, Nat.add_sub_cancel] at hback
        exact absurd hback (not_backed_null hpos (hmmu.trans hon) (Nat.add_pos_left (by decide) _))
      · exact fun h => absurd (h.2 hno) (by decide)

end Enough

/-- **When `malloc` allocates enough.** -/
theorem malloc_enough_iff (L : Layout) (hL : L.WellFormed) (s0 s : HeapTrace)
    (us : List HeapUse) (h0 : s0.Initial) (hR : L.Reachable s0.heap.kernel.mmu)
    (hrun : Run (guarded (HeapTrace.Served L) (HeapUses L)) s0 us s) (size origin : Nat)
    (hlt : size < 2 ^ 64) :
    AllocatesEnough L size origin s.heap ↔ EnoughFor L s.heap size := by
  obtain ⟨rs, free, hi⟩ := useInv_of_run hL h0 hR hrun
  unfold EnoughFor
  by_cases hz : size = 0
  · have hreq : requestedPages s.heap size = none := if_pos hz
    have hp : (malloc L size origin s.heap).1 = 0 := by rw [malloc, freeBucketsAlloc, if_pos hz]
    rw [hreq]
    refine ⟨fun _ hne => absurd hz hne, fun _ => ?_⟩
    refine ⟨fun hne => absurd hp hne, fun hne => absurd hp hne, fun n hn => ?_⟩
    rw [hreq] at hn
    cases hn
  cases hreq : requestedPages s.heap size with
  | none =>
    dsimp only
    -- the block at the head of a free list
    have hnone : ∀ c, sizeClass size = some c → s.heap.free c ≠ 0 := by
      intro c hc hfree
      rw [requestedPages, if_neg hz, hc] at hreq
      dsimp only at hreq
      rw [if_pos hfree] at hreq
      cases hreq
    have hsmall : ∃ c, sizeClass size = some c := by
      cases hc : sizeClass size with
      | some c => exact ⟨c, rfl⟩
      | none =>
        rw [requestedPages, if_neg hz, hc] at hreq
        cases hreq
    obtain ⟨c, hc⟩ := hsmall
    have hle := sizeClass_le hc
    have hmax := c.size_le
    constructor
    · intro henough _ c' hc' hsize
      obtain rfl := Option.some.inj (hc.symm.trans hc')
      obtain ⟨rs', free', b, hp, hinv, hkeep, _, hfrom⟩ := hi.lists.alloc hL hz hlt origin
        (fun n hn => by rw [hreq] at hn; cases hn)
        (fun n hn => by rw [hreq] at hn; cases hn)
      have hcounted := henough.counted (by rw [malloc, hp]; exact Nat.succ_ne_zero _)
      rw [malloc, hp, Nat.add_sub_cancel] at hcounted
      rcases hfrom with ⟨_, _, c', hc'', rfl⟩ | ⟨_, hsome, _⟩
      · obtain rfl := Option.some.inj (hc.symm.trans hc'')
        rw [hkeep.size _ (hi.lists.mem_free (hi.lists.head_free (hnone c hc))), hsize] at hcounted
        exact hz (Nat.le_zero.mp hcounted)
      · rw [hreq] at hsome
        cases hsome
    · intro hhead
      refine hi.toTraceInv.enough hL hz hlt origin ?_ (fun n hn => ?_) (fun n hn => ?_)
        fun _ => hhead hz
      · rw [NoWrap, HEADER_SIZE, PAGE_SIZE]
        omega
      · rw [hreq] at hn
        cases hn
      · rw [hreq] at hn
        cases hn
  | some n =>
    dsimp only
    have hn := requestedPages_lt hreq
    by_cases hN : 2 * n ≤ L.heapBottom
    · rw [hi.toTraceInv.enough_iff hL hz hlt origin hreq hN ((scanInside_iff hL hn).mpr hN)]
      exact ⟨fun h => ⟨hN, h⟩, fun h => h.2⟩
    · constructor
      · intro henough
        exact absurd ((scanInside_iff hL hn).mp (henough.scan n hreq)) hN
      · exact fun h => absurd h.1 hN

theorem malloc_enough_blank : AllocatesEnough .board 65536 0 HeapTrace.blank.heap ↔
    EnoughFor .board HeapTrace.blank.heap 65536 :=
  malloc_enough_iff .board Layout.board_wellFormed .blank .blank [] HeapTrace.blank_initial
    (fun hon => (nomatch hon)) (.nil _) 65536 0 (by decide)

/-- For a size of `2 ^ 64 - 4127` the number of pages is zero, and the block that is handed out
    lies in no page at all. -/
theorem malloc_under_allocates : HeapTrace.blank.Initial ∧
    (malloc .board 0xffffffffffffefe1 0 HeapTrace.blank.heap).1 = 0x80444020 ∧
    ¬ AllocatesEnough .board 0xffffffffffffefe1 0 HeapTrace.blank.heap := by
  have hp : (malloc .board 0xffffffffffffefe1 0 HeapTrace.blank.heap).1 = 0x80444020 := by
    decide +kernel
  have hoff : (malloc .board 0xffffffffffffefe1 0 HeapTrace.blank.heap).2.kernel.mmu = false := by
    decide +kernel
  refine ⟨HeapTrace.blank_initial, hp, fun henough => ?_⟩
  have hback := henough.backed (by rw [hp]; exact Nat.succ_ne_zero _)
  have hstart : phys2safe false (Layout.board.pageAddr 0) = 0x80444020 - HEADER_SIZE := by decide
  rw [hp, ← hstart, ← hoff] at hback
  refine @not_backed_wrap .board Layout.board_wellFormed _ 0 0xffffffffffffefe1 (by decide) ?_
    (by rw [NoWrap]; decide) hback
  rw [hoff]
  exact fun hon => (nomatch hon)

/-! ## 3. Giving the pages of a large block back -/

/-- `free` gives the pages of a large block back: for a block in pages of the heap, all refcounts
    are again what they were before it was allocated. -/
def LargeGivesBack (L : Layout) (size origin : Nat) (h : Heap) : Prop :=
  ∀ i, i < L.entryCount → i + pageCount size ≤ L.entryCount →
    (malloc L size origin h).1 = phys2safe h.kernel.mmu (L.pageAddr i) + HEADER_SIZE →
    ∀ j, j < L.entryCount →
      rc L (free L (malloc L size origin h).1 (malloc L size origin h).2).kernel j =
        rc L h.kernel j

section Large

variable {L : Layout} (hL : L.WellFormed) {h : Heap} {rs : List PageRun} {used : List Nat}
  {free : SizeClass → List Nat}
include hL

/-- The header of a free page is apart from those of the heap. -/
theorem HeapPages.fresh {k : Kernel} (hp : HeapPages L k rs) {i : Nat} (hi : i < L.entryCount)
    (hfree : rc L k i = 0) :
    HeadersApart k.mmu (phys2safe k.mmu (L.pageAddr i) :: buckets L k.mmu rs) := by
  obtain ⟨_, hb, hend, _⟩ := hL.bounds
  have hold := hp.headersApart hL
  have hR := hp.reach
  have hsum := KERNEL_SPACE_OFFSET_add
  have hphys := physOf_phys2safe_add (hR.pageAddr hi) 0
  have hdir : Direct k.mmu (phys2safe k.mmu (L.pageAddr i)) := by
    intro hon
    rw [hon, phys2safe_on (hR.pageAddr hi hon)]
    exact Nat.le_add_right _ _
  have hlt : phys2safe k.mmu (L.pageAddr i) < 2 ^ 64 := by
    rw [phys2safe_eq (hR.pageAddr hi), pageAddr_eq]
    split
    · have hreach := hR.pageAddr hi ‹_›
      rw [pageAddr_eq] at hreach
      omega
    · omega
  have hapart : ∀ x ∈ buckets L k.mmu rs, phys2safe k.mmu (L.pageAddr i) + HEADER_SIZE ≤ x ∨
      x + HEADER_SIZE ≤ phys2safe k.mmu (L.pageAddr i) := by
    intro x hx
    obtain ⟨r, hr, len, hlen⟩ := mem_buckets.mp hx
    obtain ⟨h1, h2⟩ := hp.piece_phys hL hr hlen
    have hpos := hp.piece_pos (List.mem_flatMap.mpr ⟨r, hr, hlen⟩)
    have hout : i < r.page ∨ r.page + r.count ≤ i := by
      by_contra hcon
      exact hp.taken r hr i (by omega) (by omega) hfree
    have hx' := hold.direct x hx
    rw [pageAddr_eq] at h1 h2
    rw [Nat.add_zero, Nat.add_zero, pageAddr_eq] at hphys
    dsimp only [HEADER_SIZE] at hpos ⊢
    rcases Nat.le_total x (phys2safe k.mmu (L.pageAddr i)) with hle | hle
    · have hd := hx'.physOf_of_le hle
      rw [pageAddr_eq] at hd hle
      rw [pageAddr_eq]
      omega
    · have hd := hdir.physOf_of_le hle
      rw [pageAddr_eq] at hd hle
      rw [pageAddr_eq]
      omega
  refine ⟨fun b hb => ?_, fun b hb => ?_, fun b hb b' hb' hne => ?_⟩
  · rcases List.mem_cons.mp hb with rfl | hb
    · exact hdir
    · exact hold.direct b hb
  · rcases List.mem_cons.mp hb with rfl | hb
    · exact hlt
    · exact hold.lt b hb
  · rcases List.mem_cons.mp hb with rfl | hb
    · rcases List.mem_cons.mp hb' with rfl | hb'
      · exact absurd rfl hne
      · exact hapart b' hb'
    · rcases List.mem_cons.mp hb' with rfl | hb'
      · exact (hapart b hb).symm
      · exact hold.apart b hb b' hb' hne

omit hL in
theorem rc_of_rewrites (hL : L.WellFormed) {N : List Nat} {k k' : Kernel} {f : Nat → Header}
    (hN : ∀ b ∈ N, L.heapBottom ≤ physOf k.mmu b) (hw : Rewrites N k k' f) {j : Nat}
    (hj : j < L.entryCount) : rc L k' j = rc L k j :=
  rc_congr hL (fun x hx => hw.frame x fun b hb => Or.inl (Nat.lt_of_lt_of_le hx.2 (hN b hb))) hj

omit hL in
/-- A block that is linked and unlinked again: only headers have been written, but no size. -/
theorem link_unlink (hL : L.WellFormed) {N : List Nat} {b : Nat}
    (hN : HeadersApart h.kernel.mmu N) (hb : b ∈ N) (hb0 : b ≠ 0)
    (hused : h.used ≠ 0 → h.used ∈ N) (hlow : ∀ b ∈ N, L.heapBottom ≤ physOf h.kernel.mmu b)
    (origin : Nat) {h' : Heap} (hh' : h'.kernel = (linkUsed b origin h).kernel) :
    (unlinkUsed b h').kernel.mmu = h.kernel.mmu ∧
      (unlinkUsed b h').kernel.size b = h.kernel.size b ∧
      ∀ j, j < L.entryCount → rc L (unlinkUsed b h').kernel j = rc L h.kernel j := by
  obtain ⟨f1, hw1, hnext1, hprev1, hsize1⟩ := linkUsed_rewrites hN hb hused origin
  rw [← hh'] at hw1
  have hprev : h'.kernel.prev b = 0 := by
    rw [Kernel.prev_of_header (hw1.header b hb), hprev1 b hb0, if_pos rfl]
  have hnext : h'.kernel.next b = h.used := by
    rw [Kernel.next_of_header (hw1.header b hb), hnext1, if_pos rfl]
  obtain ⟨f2, hw2, _, _, hsize2, _⟩ := @unlinkUsed_rewrites h' b N (by rw [hw1.mmu]; exact hN) hb hb0
    (fun hne => absurd hprev hne) (by rw [hprev]; exact hb0.symm)
    (fun hne => by rw [hnext] at hne ⊢; exact hused hne)
  refine ⟨hw2.mmu.trans hw1.mmu, ?_, fun j hj => ?_⟩
  · rw [Kernel.size_of_header (hw2.header b hb), hsize2, Kernel.size_of_header (hw1.header b hb),
      hsize1]
  · rw [rc_of_rewrites hL (by rw [hw1.mmu]; exact hlow) hw2 hj, rc_of_rewrites hL hlow hw1 hj]

/-- **A large block, allocated and freed**: but for the pages that were handed out and given
    back, only headers in the heap have been written. -/
theorem HeapInv.large_rc (hi : HeapInv L h rs used free []) {size origin i : Nat}
    (hc : sizeClass size = none) (hlt : size < 2 ^ 64) (hin : i < L.entryCount)
    (hcN : i + pageCount size ≤ L.entryCount)
    (hpage : (allocPages L (pageCount size) h.kernel).1 = L.pageAddr i) {j : Nat}
    (hj : j < L.entryCount) :
    rc L (IloPali.free L (malloc L size origin h).1 (malloc L size origin h).2).kernel j =
      if i ≠ 0 ∧ i ≤ j ∧ j < i + pageCount size then
        rc L (allocPages L (pageCount size) h.kernel).2 j - 1
      else rc L (allocPages L (pageCount size) h.kernel).2 j := by
  have hR := hi.pages.reach
  have hfree := (allocPages_counts hL hR hin (by omega) hpage).1
  have hsafe := phys2safe_pos (Nat.pos_of_ne_zero (pageAddr_ne_zero hL i)) (hR.pageAddr hin)
  have h0 : size ≠ 0 := by
    rintro rfl
    exact (nomatch hc)
  have hmmu : (allocPages L (pageCount size) h.kernel).2.mmu = h.kernel.mmu := by
    rw [Kernel.mmu, allocPages_satp, Kernel.mmu]
  have hapart := hi.pages.fresh hL hin hfree
  have hlow : ∀ b ∈ phys2safe h.kernel.mmu (L.pageAddr i) :: buckets L h.kernel.mmu rs,
      L.heapBottom ≤ physOf h.kernel.mmu b := by
    intro b hb
    rcases List.mem_cons.mp hb with rfl | hb
    · have hphys := physOf_phys2safe_add (hR.pageAddr hin) 0
      rw [Nat.add_zero, Nat.add_zero] at hphys
      rw [hphys]
      exact Nat.le_add_right _ _
    · obtain ⟨r, hr, len, hlen⟩ := mem_buckets.mp hb
      exact Nat.le_trans (Nat.le_add_right _ _) (hi.pages.piece_phys hL hr hlen).1
  have hused : h.used ≠ 0 →
      h.used ∈ phys2safe h.kernel.mmu (L.pageAddr i) :: buckets L h.kernel.mmu rs :=
    fun hz => List.mem_cons_of_mem _ (hi.mem_used (hi.head_used hz))
  obtain ⟨b, hb⟩ : ∃ b, b = phys2safe h.kernel.mmu (L.pageAddr i) := ⟨_, rfl⟩
  obtain ⟨k1, hk1⟩ : ∃ k1, k1 = (allocPages L (pageCount size) h.kernel).2 := ⟨_, rfl⟩
  rw [← hb] at hapart hlow hused hsafe
  rw [← hk1] at hmmu ⊢
  -- the state in which the block is linked
  obtain ⟨h2, hh2⟩ : ∃ h2 : Heap, h2 = { h with kernel := k1.setSize b size, mutating := true } :=
    ⟨_, rfl⟩
  have hcall : malloc L size origin h =
      (b + HEADER_SIZE, { IloPali.linkUsed b origin h2 with mutating := false }) := by
    rw [malloc, freeBucketsAlloc_large origin hc (by rw [hpage, hb]) hsafe.ne', hh2, hk1]
  rw [← hmmu] at hapart hlow hused
  have hw1 := (Rewrites.refl _ k1).setSize hapart List.mem_cons_self hlt
  have hmmu2 : h2.kernel.mmu = k1.mmu := by rw [hh2, hw1.mmu]
  have hsize2 : h2.kernel.size b = size := by
    rw [hh2, Kernel.size_of_header (hw1.header b List.mem_cons_self), withSize_size, if_pos rfl]
  have hrc2 : rc L h2.kernel j = rc L k1 j := by
    rw [hh2]
    exact rc_of_rewrites hL hlow hw1 hj
  obtain ⟨hmmu4, hsize4, hrc4⟩ := @link_unlink L h2 hL _ b (by rw [hmmu2]; exact hapart)
    List.mem_cons_self hsafe.ne' (by rw [hh2]; dsimp only; exact hused) (by rw [hmmu2]; exact hlow) origin
    { IloPali.linkUsed b origin h2 with mutating := true } rfl
  -- the block is unlinked, and its pages are given back
  rw [hcall, IloPali.free, if_neg (by rw [HEADER_SIZE]; omega), Nat.add_sub_cancel]
  dsimp only
  rw [hsize4, hsize2, hc]
  dsimp only
  have hrel := @deallocPages_spec L hL
    (IloPali.unlinkUsed b { IloPali.linkUsed b origin h2 with mutating := true }).kernel b i
    (pageCount size) hin hcN (Or.inr ⟨by rw [hmmu4, hmmu2, hmmu, hb], by
      rw [hmmu4, hmmu2, hmmu]; exact hR.pageAddr hin⟩)
  rw [hrel.rc_eq j hj, hrc4 j hj, hrc2]

/-- A large block whose pages begin with page `i` has got page `i` from `alloc_pages`. -/
theorem HeapInv.large_page (hi : HeapInv L h rs used free []) {size origin i : Nat}
    (hc : sizeClass size = none) (hin : i < L.entryCount) (hcN : pageCount size ≤ L.entryCount)
    (hp : (malloc L size origin h).1 = phys2safe h.kernel.mmu (L.pageAddr i) + HEADER_SIZE) :
    (allocPages L (pageCount size) h.kernel).1 = L.pageAddr i := by
  have hR := hi.pages.reach
  have h0 : size ≠ 0 := by
    rintro rfl
    exact (nomatch hc)
  have hbottom : 2 * pageCount size ≤ L.heapBottom := by
    obtain ⟨_, hb, _⟩ := hL.bounds
    omega
  have hphys := physOf_phys2safe_add (hR.pageAddr hin) 0
  rw [malloc] at hp
  rcases allocPages_page hL hR hbottom with ⟨_, i', hi', _, hpage⟩ | ⟨_, hnull⟩
  · have hsafe := phys2safe_pos (Nat.pos_of_ne_zero (pageAddr_ne_zero hL i')) (hR.pageAddr hi')
    rw [freeBucketsAlloc_large origin hc (by rw [hpage]) hsafe.ne'] at hp
    have hphys' := physOf_phys2safe_add (hR.pageAddr hi') 0
    rw [Nat.add_right_cancel hp, hphys] at hphys'
    rw [hpage]
    exact (Nat.add_right_cancel hphys').symm
  · have hreq : requestedPages h size = some (pageCount size) := by
      rw [requestedPages, if_neg h0, hc]
    cases hon : h.kernel.mmu with
    | false =>
      rw [freeBucketsAlloc_null origin hreq hon (allocPages_null hL hon hnull)] at hp
      exact absurd hp (Nat.succ_ne_zero _).symm
    | true =>
      -- the start of the direct map is no page of the heap
      rw [freeBucketsAlloc_null_on origin hreq hon hnull] at hp
      rw [← Nat.add_right_cancel hp, hon, Nat.add_zero, Nat.add_zero, physOf,
        safe2phys_on (le_refl _), Nat.sub_self] at hphys
      exact absurd hphys.symm (pageAddr_ne_zero hL i)

/-- **The pages of a large block are given back** unless they begin with the first page of the
    heap. -/
theorem HeapInv.largeGivesBack_iff (hi : HeapInv L h rs used free []) {size : Nat}
    (hc : sizeClass size = none) (hlt : size < 2 ^ 64) (origin : Nat) :
    LargeGivesBack L size origin h ↔
      ¬ (1 ≤ pageCount size ∧ pageCount size < L.entryCount ∧
        RunFree L h.kernel (pageCount size) 0) := by
  have hR := hi.pages.reach
  constructor
  · rintro hback ⟨hpos, hN, hfree⟩
    have hrun : LowestRun L h.kernel (pageCount size) 0 :=
      ⟨by omega, hfree, fun j hj => absurd hj (Nat.not_lt_zero j)⟩
    have hpage : (allocPages L (pageCount size) h.kernel).1 = L.pageAddr 0 := by
      rcases @allocPages_result L hL h.kernel _ hpos hN.le with ⟨i, hi', _, _, hcall⟩ | ⟨hno, _⟩
      · rw [hcall, hi'.unique hrun]
      · exact absurd ⟨by omega, hR.pageAddr (by omega)⟩ (hno 0 hrun)
    have hsafe := phys2safe_pos (Nat.pos_of_ne_zero (pageAddr_ne_zero hL 0))
      (hR.pageAddr (i := 0) (by omega))
    have hp : (malloc L size origin h).1 =
        phys2safe h.kernel.mmu (L.pageAddr 0) + HEADER_SIZE := by
      rw [malloc, freeBucketsAlloc_large origin hc (by rw [hpage]) hsafe.ne']
    have h0 := hback 0 (by omega) (by omega) hp 0 (by omega)
    rw [hi.large_rc hL hc hlt (by omega) (by omega) hpage (by omega), if_neg fun h => h.1 rfl,
      (allocPages_counts hL hR (by omega) hN.le hpage).2 0 (by omega), if_pos (by omega),
      hfree 0 (le_refl 0) (by omega)] at h0
    exact absurd h0 (by decide)
  · intro hno i hin hcN hp j hj
    have hpage := hi.large_page hL hc hin (by omega) hp
    have hrc := (allocPages_counts hL hR hin (by omega) hpage).2
    rw [hi.large_rc hL hc hlt hin hcN hpage hj, hrc j hj]
    by_cases hrun : i ≤ j ∧ j < i + pageCount size
    · obtain ⟨hlow, hlt', _⟩ := allocPages_rc hL (by omega) (by omega) hpage
      have hi0 : i ≠ 0 := by
        rintro rfl
        exact hno ⟨by omega, by omega, hlow.free⟩
      rw [if_pos ⟨hi0, hrun⟩, if_pos hrun, hlow.free j hrun.1 hrun.2]
    · rw [if_neg fun h => hrun h.2, if_neg hrun]

end Large

/-- **Deallocation undoes allocation** unless the first page of the heap was handed out: for
    `alloc_pages` and `dealloc_pages`, and for `malloc` of a large block and `free`. -/
theorem deallocation_undoes_iff (L : Layout) (hL : L.WellFormed) (s0 s : HeapTrace)
    (us : List HeapUse) (h0 : s0.Initial) (hR : L.Reachable s0.heap.kernel.mmu)
    (hrun : Run (guarded (HeapTrace.Served L) (HeapUses L)) s0 us s) :
    (∀ (k : Kernel) (count : Nat), 1 ≤ count → (GivesBack L count k ↔
      ¬ (count < L.entryCount ∧ RunFree L k count 0 ∧ InSight L k.mmu 0))) ∧
    ∀ size origin, 65536 < size → size < 2 ^ 64 → (LargeGivesBack L size origin s.heap ↔
      ¬ (1 ≤ pageCount size ∧ pageCount size < L.entryCount ∧
        RunFree L s.heap.kernel (pageCount size) 0)) := by
  obtain ⟨rs, free, hi⟩ := useInv_of_run hL h0 hR hrun
  constructor
  · intro k count hc
    exact givesBack_iff hL hc
  · intro size origin hsize hlt
    exact hi.lists.largeGivesBack_iff hL (sizeClass_eq_none.mpr hsize) hlt origin

theorem deallocation_undoes_blank :
    (GivesBack .board 1 .blank ↔ ¬ (1 < Layout.board.entryCount ∧ RunFree .board .blank 1 0 ∧
      InSight .board Kernel.blank.mmu 0)) ∧
    (LargeGivesBack .board 70000 0 HeapTrace.blank.heap ↔
      ¬ (1 ≤ pageCount 70000 ∧ pageCount 70000 < Layout.board.entryCount ∧
        RunFree .board HeapTrace.blank.heap.kernel (pageCount 70000) 0)) := by
  obtain ⟨hpages, hlarge⟩ := deallocation_undoes_iff .board Layout.board_wellFormed .blank .blank []
    HeapTrace.blank_initial (fun hon => (nomatch hon)) (.nil _)
  exact ⟨hpages .blank 1 (le_refl 1), hlarge 70000 0 (by decide) (by decide)⟩

/-- The first page of the heap stays taken when it is deallocated. -/
theorem first_page_lost : (allocPages .board 1 .blank).1 = Layout.board.pageAddr 0 ∧
    rc .board .blank 0 = 0 ∧
    rc .board (deallocPages .board (Layout.board.pageAddr 0) 1 (allocPages .board 1 .blank).2) 0 = 1 ∧
    ¬ GivesBack .board 1 .blank := by
  have hpage : (allocPages .board 1 .blank).1 = Layout.board.pageAddr 0 := by decide +kernel
  have hbefore : rc .board .blank 0 = 0 := by decide +kernel
  have hafter : rc .board
      (deallocPages .board (Layout.board.pageAddr 0) 1 (allocPages .board 1 .blank).2) 0 = 1 := by
    decide +kernel
  refine ⟨hpage, hbefore, hafter, fun hback => ?_⟩
  have h0 := hback 0 (by decide) hpage _ (Or.inl rfl) 0 (by decide)
  rw [hafter, hbefore] at h0
  exact absurd h0 (by decide)

end IloPali
