import IloPali.HeapRequests
import IloPali.PageTable

/-!
# The heap beside the page tables

A call of `malloc` writes headers in the pages of the heap, and takes pages that were free.  In
the words of `Frame`: from before a call to after it, only the heap's own pages have changed.
And as long as somebody else writes only to pages that are not the heap's, the heap stays what
it was.
-/

namespace IloPali

open ByteMemory LinkedList

/-! ## 1. Pages of the heap -/

/-- Page `n` is one of the heap's. -/
def HeapPage (L : Layout) (rs : List PageRun) (n : Nat) : Prop :=
  ∃ r ∈ rs, ∃ i, r.page ≤ i ∧ i < r.page + r.count ∧ 4096 * n = L.pageAddr i

theorem HeapPage.mono {L : Layout} {rs rs' : List PageRun} {n : Nat} (h : HeapPage L rs n)
    (hsub : ∀ r ∈ rs, r ∈ rs') : HeapPage L rs' n := by
  obtain ⟨r, hr, i, hi⟩ := h
  exact ⟨r, hsub r hr, i, hi⟩

section Pages

variable {L : Layout} (hL : L.WellFormed) {k k' : Kernel} {rs : List PageRun}
include hL

/-- The page of a byte in a run of pages. -/
theorem heapPage_of_inPages {r : PageRun} (hr : r ∈ rs) {x : Nat} (h1 : L.pageAddr r.page ≤ x)
    (h2 : x < L.pageAddr (r.page + r.count)) : HeapPage L rs (x / 4096) := by
  obtain ⟨_, _, _, haligned, _⟩ := hL.bounds
  rw [pageAddr_eq] at h1 h2
  refine ⟨r, hr, x / 4096 - L.heapBottom / 4096, ?_, ?_, ?_⟩
  · omega
  · omega
  · rw [pageAddr_eq]
    omega

theorem heapPage_of_piece (h : RunsPlaced L k.mmu rs) {p : Nat × Nat}
    (hp : p ∈ pieces L k.mmu rs) {x : Nat} (h1 : physOf k.mmu p.1 ≤ x)
    (h2 : x < physOf k.mmu p.1 + p.2) : HeapPage L rs (x / 4096) := by
  obtain ⟨r, hr, hpr⟩ := List.mem_flatMap.mp hp
  obtain ⟨h3, h4⟩ := h.piece_phys hL hr hpr
  apply heapPage_of_inPages hL hr
  · exact Nat.le_trans h3 h1
  · exact Nat.lt_of_lt_of_le h2 h4

omit hL in
theorem HeapPages.owned (h : HeapPages L k rs) {n : Nat} (hn : HeapPage L rs n) :
    OwnedPage L k n := by
  obtain ⟨r, hr, i, h1, h2, hi⟩ := hn
  have hbound := (h.placed r hr).bound
  refine ⟨⟨i, by omega, hi, h.taken r hr i h1 h2⟩, fun hon => ?_⟩
  rw [hi]
  exact h.reach.pageAddr (by omega) hon

/-- Writing headers. -/
theorem Rewrites.heapFrame (h : RunsPlaced L k.mmu rs) {f : Nat → Header}
    (hw : Rewrites (buckets L k.mmu rs) k k' f) : Frame L (HeapPage L rs) k k' := by
  refine ⟨fun i hi hpos => ?_, fun x _ _ hx => hw.frame x fun b hb => ?_, hw.satp⟩
  · rwa [HeapPages.rc_rewrites hL h hw hi]
  · obtain ⟨p, hp, rfl⟩ := List.mem_map.mp hb
    by_contra hin
    have hpos := h.piece_pos hp
    exact hx (heapPage_of_piece hL h hp (by omega) (by omega))

/-- Taking pages. -/
theorem Grabbed.pages {i count : Nat} (hg : Grabbed L i count k k') :
    Frame L (fun _ => False) k k' := by
  obtain ⟨_, _, _, haligned, _⟩ := hL.bounds
  refine ⟨fun j hj hpos => ?_, fun x ht hf _ => hg.frame x ht fun hx => ?_, hg.satp⟩
  · rw [hg.rc_eq j hj]
    split
    · decide
    · exact hpos
  · have hbound := hg.bound
    simp only [InPages, pageAddr_eq] at hx
    apply hf
    refine ⟨x / 4096 - L.heapBottom / 4096, by omega, ?_, hg.free _ (by omega) (by omega)⟩
    rw [pageAddr_eq]
    omega

omit hL in
/-- The pages that were taken were free. -/
theorem Grabbed.freePage {r : PageRun} (hg : Grabbed L r.page r.count k k') {n : Nat}
    (hn : HeapPage L (r :: rs) n) : HeapPage L rs n ∨ FreePage L k n := by
  have hbound := hg.bound
  obtain ⟨r', hr', i, h1, h2, hi⟩ := hn
  rcases List.mem_cons.mp hr' with rfl | hr'
  · exact Or.inr ⟨i, by omega, hi, hg.free i h1 h2⟩
  · exact Or.inl ⟨r', hr', i, h1, h2, hi⟩

/-- Taking pages for the heap and writing the headers in them. -/
theorem Grabbed.heapFrame {k1 : Kernel} {r : PageRun} (hg : Grabbed L r.page r.count k k1)
    (h : RunsPlaced L k1.mmu (r :: rs)) {f : Nat → Header}
    (hw : Rewrites (buckets L k1.mmu (r :: rs)) k1 k' f) : Frame L (HeapPage L rs) k k' :=
  ((hg.pages hL).mono fun _ h => h.elim).trans (hw.heapFrame hL h) fun _ hn => hg.freePage hn

end Pages

/-! ## 2. What `malloc` writes -/

section Malloc

variable {L : Layout} (hL : L.WellFormed) {h : Heap} {rs : List PageRun} {used : List Nat}
  {free : SizeClass → List Nat} {loose : List Nat}
include hL

theorem linkUsed_frame {b : Nat} (hi : HeapInv L h rs used free (b :: loose))
    (origin : Nat) : Frame L (HeapPage L rs) h.kernel (linkUsed b origin h).kernel := by
  obtain ⟨f, hw, _⟩ := @linkUsed_rewrites h b _ (hi.pages.headersApart hL)
    (hi.mem_loose List.mem_cons_self) (fun hz => hi.mem_used (hi.head_used hz)) origin
  exact hw.heapFrame hL hi.pages.toRunsPlaced

/-- A run of pages that was just handed out, with the heap's. -/
theorem HeapInv.grabbed {k1 : Kernel} {i count : Nat}
    (hi : HeapInv L h rs used free loose) (cls : Option SizeClass) (hc : 1 ≤ count)
    (hcls : ∀ c, cls = some c → count = FALLBACK_PAGE_COUNT)
    (hg : Grabbed L i count h.kernel k1) : RunsPlaced L k1.mmu (⟨i, count, cls⟩ :: rs) := by
  obtain ⟨hpages, _, _, hapart⟩ := hi.pages.grab hL hc hg
  exact hpages.toRunsPlaced.cons ⟨hg.bound, hc, hcls⟩ hapart

theorem refill_frame (hi : HeapInv L h rs used free loose) (c : SizeClass)
    (hN : 2 * FALLBACK_PAGE_COUNT ≤ L.heapBottom)
    (hok : (allocPages L FALLBACK_PAGE_COUNT h.kernel).1 ≠ 0) :
    Frame L (HeapPage L rs) h.kernel (refill L c h).kernel := by
  obtain ⟨i, hpage, hg⟩ := hi.pages.alloc hL (by decide) hN hok
  have hplaced := hi.grabbed hL (some c) (by decide) (fun _ _ => rfl) hg
  unfold refill
  generalize hcall : allocPages L FALLBACK_PAGE_COUNT h.kernel = call at hok hpage hg hplaced ⊢
  obtain ⟨page, k1⟩ := call
  dsimp only at hok hpage hg hplaced ⊢
  have hstart : phys2safe k1.mmu page = PageRun.start L k1.mmu ⟨i, FALLBACK_PAGE_COUNT, some c⟩ := by
    rw [hpage, PageRun.start]
  have hpos := (PageRun.start_spec hplaced.reach hL (hplaced.placed _ List.mem_cons_self)).2.1
  obtain ⟨f, hw, _⟩ := hplaced.format hL rfl hg
  rw [hstart, if_neg (Nat.ne_of_gt hpos)]
  exact Grabbed.heapFrame (r := ⟨i, FALLBACK_PAGE_COUNT, some c⟩) hL hg hplaced hw

theorem takeBucket_frame (hi : HeapInv L h rs used free loose) (c : SizeClass)
    (hN : 2 * FALLBACK_PAGE_COUNT ≤ L.heapBottom)
    (hok : h.free c = 0 → (allocPages L FALLBACK_PAGE_COUNT h.kernel).1 ≠ 0) :
    Frame L (HeapPage L rs) h.kernel (takeBucket L c h).2.kernel := by
  unfold takeBucket
  by_cases hz : h.free c = 0
  · have hF := refill_frame hL hi c hN (hok hz)
    rw [if_pos hz]
    dsimp only
    split
    · exact hF
    · exact hF
  · rw [if_neg hz]
    dsimp only
    rw [if_neg hz]
    exact .refl L _ _

theorem takePages_frame (hi : HeapInv L h rs used free loose) {size : Nat}
    (hlt : size < 2 ^ 64) (hc : 1 ≤ pageCount size) (hN : 2 * pageCount size ≤ L.heapBottom)
    (hok : (allocPages L (pageCount size) h.kernel).1 ≠ 0) :
    Frame L (HeapPage L rs) h.kernel (takePages L size h).2.kernel := by
  obtain ⟨i, hpage, hg⟩ := hi.pages.alloc hL hc hN hok
  have hplaced := hi.grabbed hL none hc (fun _ h => (nomatch h)) hg
  unfold takePages
  generalize hcall : allocPages L (pageCount size) h.kernel = call at hok hpage hg hplaced ⊢
  obtain ⟨page, k1⟩ := call
  dsimp only at hok hpage hg hplaced ⊢
  have hstart : phys2safe k1.mmu page = PageRun.start L k1.mmu ⟨i, pageCount size, none⟩ := by
    rw [hpage, PageRun.start]
  have hpos := (PageRun.start_spec hplaced.reach hL (hplaced.placed _ List.mem_cons_self)).2.1
  rw [hstart, if_neg (Nat.ne_of_gt hpos)]
  apply Grabbed.heapFrame (r := ⟨i, pageCount size, none⟩) hL hg hplaced
  exact (Rewrites.refl _ k1).setSize (hplaced.headersApart hL)
    (HeapPages.large_mem List.mem_cons_self rfl) hlt

/-- **What `free_buckets_alloc` writes.** -/
theorem freeBucketsAlloc_frame (hi : HeapInv L h rs used free []) {size : Nat} (hlt : size < 2 ^ 64)
    (origin : Nat) (hcount : ∀ n, requestedPages h size = some n → 1 ≤ n ∧ 2 * n ≤ L.heapBottom)
    (hok : ∀ n, requestedPages h size = some n → (allocPages L n h.kernel).1 ≠ 0) :
    Frame L (HeapPage L rs) h.kernel (freeBucketsAlloc L size origin h).2.kernel := by
  unfold freeBucketsAlloc
  by_cases h0 : size = 0
  · rw [if_pos h0]
    exact .refl L _ _
  rw [if_neg h0]
  cases hc : sizeClass size with
  | some c =>
    have hreq : requestedPages h size = if h.free c = 0 then some FALLBACK_PAGE_COUNT else none := by
      rw [requestedPages, if_neg h0, hc]
    have hN : 2 * FALLBACK_PAGE_COUNT ≤ L.heapBottom := by
      obtain ⟨_, hb, _, _, hle⟩ := hL.bounds
      rw [FALLBACK_PAGE_COUNT]
      omega
    have hgiven : h.free c = 0 → (allocPages L FALLBACK_PAGE_COUNT h.kernel).1 ≠ 0 :=
      fun hz => hok _ (by rw [hreq]; exact if_pos hz)
    have htake := takeBucket_frame hL (hi.lock true) c hN hgiven
    obtain ⟨rs', free', hinv, hne, _, hfrom⟩ := (hi.lock true).takeBucket hL c hN hgiven
    dsimp only at htake hinv hne hfrom ⊢
    rw [if_neg hne]
    refine htake.trans (linkUsed_frame hL hinv origin) fun n hn => ?_
    rcases hfrom with ⟨_, rfl, _⟩ | ⟨hz, r, rfl, hcls, hcnt, hpage, _⟩
    · exact Or.inl hn
    · obtain ⟨i, hpage', hg⟩ := hi.pages.alloc hL (by decide) hN (hgiven hz)
      rw [hpage, pageAddr_inj] at hpage'
      rw [← hpage', ← hcnt] at hg
      exact hg.freePage hn
  | none =>
    have hreq : requestedPages h size = some (pageCount size) := by
      rw [requestedPages, if_neg h0, hc]
    obtain ⟨hpos, hN⟩ := hcount _ hreq
    have htake := takePages_frame hL (hi.lock true) hlt hpos hN (hok _ hreq)
    obtain ⟨r, _, hcnt, hpage, _, hne, _, _, hinv⟩ :=
      (hi.lock true).takePages hL (sizeClass_eq_none.mp hc) hlt hpos hN (hok _ hreq)
    dsimp only at htake hpage hinv hne ⊢
    rw [if_neg hne]
    refine htake.trans (linkUsed_frame hL hinv origin) fun n hn => ?_
    obtain ⟨i, hpage', hg⟩ := hi.pages.alloc hL hpos hN (hok _ hreq)
    rw [hpage, pageAddr_inj] at hpage'
    rw [← hpage', ← hcnt] at hg
    exact hg.freePage hn

end Malloc

/-! ## 3. Calls that do not fail -/

theorem formatLoop_failed (data size bucketSize totalSize fuel i : Nat) (k : Kernel) :
    (formatLoop data size bucketSize totalSize fuel i k).failed = k.failed := by
  induction fuel generalizing i k with
  | zero => rfl
  | succ fuel ih =>
    rw [formatLoop]
    split
    · rw [ih]
      rfl
    · rfl

theorem linkUsed_failed (b origin : Nat) (h : Heap) :
    (linkUsed b origin h).kernel.failed = h.kernel.failed := by
  unfold linkUsed
  dsimp only
  split
  · rfl
  · rfl

theorem refill_failed (L : Layout) (c : SizeClass) (h : Heap) :
    (refill L c h).kernel.failed = (allocPages L FALLBACK_PAGE_COUNT h.kernel).2.failed := by
  unfold refill
  dsimp only
  split
  · rfl
  · exact formatLoop_failed _ _ _ _ _ _ _

theorem takeBucket_failed (L : Layout) (c : SizeClass) (h : Heap) :
    (takeBucket L c h).2.kernel.failed =
      if h.free c = 0 then (allocPages L FALLBACK_PAGE_COUNT h.kernel).2.failed
      else h.kernel.failed := by
  unfold takeBucket
  by_cases hz : h.free c = 0
  · rw [if_pos hz, if_pos hz]
    dsimp only
    split
    · exact refill_failed L c h
    · exact refill_failed L c h
  · simp [hz]

theorem takePages_failed (L : Layout) (size : Nat) (h : Heap) :
    (takePages L size h).2.kernel.failed = (allocPages L (pageCount size) h.kernel).2.failed := by
  unfold takePages
  dsimp only
  split
  · rfl
  · rfl

/-- `free_buckets_alloc` fails as often as the call of `alloc_pages` in it. -/
theorem freeBucketsAlloc_failed (L : Layout) (size origin : Nat) (h : Heap) :
    (freeBucketsAlloc L size origin h).2.kernel.failed =
      match requestedPages h size with
      | some n => (allocPages L n h.kernel).2.failed
      | none => h.kernel.failed := by
  unfold freeBucketsAlloc requestedPages
  by_cases h0 : size = 0
  · rw [if_pos h0, if_pos h0]
  rw [if_neg h0, if_neg h0]
  cases sizeClass size with
  | none =>
    dsimp only
    split
    · exact takePages_failed L size _
    · exact (linkUsed_failed _ _ _).trans (takePages_failed L size _)
  | some c =>
    have htake := takeBucket_failed L c { h with mutating := true }
    dsimp only at htake ⊢
    split
    · rw [htake]
      split
      · rfl
      · rfl
    · rw [linkUsed_failed, htake]
      split
      · rfl
      · rfl

/-- `malloc` has a block of that size: the scan for its pages does not wrap around, and the block
    at the head of the free list does not end before. -/
structure HeapTrace.Holds (L : Layout) (s : HeapTrace) (size : Nat) : Prop where
  small : size + HEADER_SIZE + PAGE_SIZE - 1 < 2 ^ 64
  pages : ∀ n, requestedPages s.heap size = some n → 2 * n ≤ L.heapBottom
  tail : s.TailFits size

section Uses

variable {L : Layout} (hL : L.WellFormed) {s : HeapTrace} {rs : List PageRun}
  {free : SizeClass → List Nat} {k' : Kernel}
include hL

/-- Writing into a block. -/
theorem WritesBlock.heapFrame {k : Kernel} (h : HeapPages L k rs) {p : Nat × Nat}
    (hp : p ∈ pieces L k.mmu rs) (hw : WritesBlock p k k') : Frame L (HeapPage L rs) k k' := by
  have hmem : ∀ x, ¬ HeapPage L rs (x / 4096) → k'.mem x = k.mem x := by
    intro x hx
    apply hw.frame
    by_contra hin
    exact hx (heapPage_of_piece hL h.toRunsPlaced hp (by omega) (by omega))
  refine ⟨fun i hi hpos => ?_, fun x _ _ hx => hmem x hx, hw.satp⟩
  rw [rc_congr hL (fun x hx => hmem x fun hpage => ?_) hi]
  · exact hpos
  · exact (h.owned hpage).not_inTable hx

/-- The pages and the headers of the heap, where other pages are written. -/
theorem HeapPages.others {k : Kernel} (h : HeapPages L k rs) {W : Nat → Prop}
    (hF : Frame L W k k') (hW : ∀ n, W n → ¬ HeapPage L rs n) :
    HeapPages L k' rs ∧ Keeps L rs k k' ∧
      ∀ b ∈ buckets L k.mmu rs, k'.header b = k.header b := by
  apply h.frame hL hF.satp
  · intro r hr x hx
    have hpage := heapPage_of_inPages hL hr hx.1 hx.2
    exact hF.page (h.owned hpage) (fun hw => hW _ hw hpage) rfl
  · intro r hr i _ h2 hpos
    have hbound := (h.placed r hr).bound
    exact hF.counts i (by omega) hpos

/-- **The heap stays what it was** where other pages are written. -/
theorem UseInv.others (hi : UseInv L s rs free) {W : Nat → Prop} (hF : Frame L W s.heap.kernel k')
    (hW : ∀ n, W n → ¬ HeapPage L rs n) :
    UseInv L { s with heap := { s.heap with kernel := k' } } rs free := by
  obtain ⟨hpages, hkeep, hheader⟩ := hi.lists.pages.others hL hF hW
  have hmmu := hkeep.mmu
  refine ⟨⟨?_, ?_, ?_⟩, fun b hb => ?_⟩
  · refine @HeapInv.of_headers L s.heap rs _ free [] { s.heap with kernel := k' } rs []
      hi.lists hpages rfl rfl (fun b hb => hheader b ?_) ?_
    · rcases hb with hb | ⟨c, hb⟩
      · exact hi.lists.mem_used hb
      · exact hi.lists.mem_free hb
    · dsimp only
      rw [hmmu]
      exact hi.lists.all
  · dsimp only
    rw [hmmu]
    exact hi.regions
  · dsimp only
    rw [hmmu]
    exact hi.large
  · dsimp only at hb ⊢
    rw [hmmu, Kernel.size_congr (hheader _ (hi.lists.mem_used (List.mem_map_of_mem hb)))]
    exact hi.room b hb

/-- So does what it has. -/
theorem HeapTrace.Holds.others (hi : UseInv L s rs free) {size : Nat} (h : s.Holds L size)
    {W : Nat → Prop} (hF : Frame L W s.heap.kernel k') (hW : ∀ n, W n → ¬ HeapPage L rs n) :
    HeapTrace.Holds L { s with heap := { s.heap with kernel := k' } } size := by
  obtain ⟨_, hkeep, _⟩ := hi.lists.pages.others hL hF hW
  refine ⟨h.small, h.pages, fun c hc hne hsize => h.tail c hc hne ?_⟩
  rw [← hsize]
  exact (hkeep.size _ (hi.lists.mem_free (hi.lists.head_free hne))).symm

/-- The pages that a call of `malloc` adds to the heap were free. -/
theorem Taken.heapPage (hi : UseInv L s rs free) {size b : Nat} {rs' : List PageRun}
    (ht : Taken L s.heap size rs rs' b)
    (hcount : ∀ n, requestedPages s.heap size = some n → 1 ≤ n ∧ 2 * n ≤ L.heapBottom)
    (hok : ∀ n, requestedPages s.heap size = some n → (allocPages L n s.heap.kernel).1 ≠ 0)
    {n : Nat} (hn : HeapPage L rs' n) : HeapPage L rs n ∨ FreePage L s.heap.kernel n := by
  rcases ht with ⟨_, rfl, _⟩ | ⟨r, hreq, rfl, _, hpage, _⟩
  · exact Or.inl hn
  · obtain ⟨hpos, hN⟩ := hcount _ hreq
    obtain ⟨i, hpage', hg⟩ := hi.lists.pages.alloc hL hpos hN (hok _ hreq)
    rw [hpage, pageAddr_inj] at hpage'
    rw [← hpage'] at hg
    exact hg.freePage hn

/-- What a call of `malloc` that does not fail does to the heap and to the pages. -/
structure Mallocs (L : Layout) (s : HeapTrace) (size origin : Nat) (rs rs' : List PageRun)
    (free' : SizeClass → List Nat) : Prop where
  heap : UseInv L (s.allocated L size origin) rs' free'
  frame : Frame L (HeapPage L rs) s.heap.kernel (malloc L size origin s.heap).2.kernel
  more : ∀ n, HeapPage L rs n → HeapPage L rs' n
  new : ∀ n, HeapPage L rs' n → HeapPage L rs n ∨ FreePage L s.heap.kernel n
  block : size ≠ 0 → ∃ b len, (malloc L size origin s.heap).1 = b + HEADER_SIZE ∧
    (b, len) ∈ pieces L (malloc L size origin s.heap).2.kernel.mmu rs' ∧ HEADER_SIZE + size ≤ len

theorem UseInv.malloc (hi : UseInv L s rs free) {size : Nat} (hs : s.Holds L size) (origin : Nat)
    (hok : (malloc L size origin s.heap).2.kernel.failed = s.heap.kernel.failed) :
    ∃ rs' free', Mallocs L s size origin rs rs' free' := by
  have hlt : size < 2 ^ 64 := by
    have hsmall := hs.small
    rw [HEADER_SIZE, PAGE_SIZE] at hsmall
    omega
  by_cases h0 : size = 0
  · subst h0
    refine ⟨rs, free, ?_, .refl L _ _, fun _ h => h, fun _ h => Or.inl h, fun h => absurd rfl h⟩
    rw [TraceInv.allocated_zero]
    exact hi
  have hcount : ∀ n, requestedPages s.heap size = some n → 1 ≤ n ∧ 2 * n ≤ L.heapBottom :=
    fun n hn => ⟨requestedPages_pos hs.small hn, hs.pages n hn⟩
  have hgiven : ∀ n, requestedPages s.heap size = some n →
      (allocPages L n s.heap.kernel).1 ≠ 0 := by
    intro n hn hnull
    have hfailed := freeBucketsAlloc_failed L size origin s.heap
    rw [hn] at hfailed
    obtain ⟨i, hpage, _⟩ := allocPages_ok hL (hcount n hn).1 (hcount n hn).2
      (hfailed.symm.trans hok)
    rw [hpage] at hnull
    exact pageAddr_ne_zero hL i hnull
  obtain ⟨rs', free', b, hp, hinv, hlive, _, hfrom⟩ :=
    hi.taken hL h0 hs.small hs.tail origin hcount hgiven
  refine ⟨rs', free', hinv, ?_, fun n hn => hn.mono hfrom.mono, fun n hn => ?_, fun _ => ?_⟩
  · exact freeBucketsAlloc_frame hL hi.lists hlt origin hcount hgiven
  · exact hfrom.heapPage hL hi hcount hgiven hn
  · obtain ⟨len, hlen, hroom, _⟩ := hinv.room ⟨b, size⟩ (by rw [hlive]; exact List.mem_cons_self)
    rw [TraceInv.allocated_heap] at hlen
    exact ⟨b, len, hp, hlen, hroom⟩

end Uses

end IloPali
