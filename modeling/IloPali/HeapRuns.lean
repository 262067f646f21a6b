import IloPali.HeapLists
import IloPali.Lib.Transition

/-!
# Runs of the heap

`malloc`, `realloc` and `free` in any order, beside a record of what their callers know: the
blocks in use with the sizes asked for, the regions that were formatted, and the pages of
large blocks.

In every such run the lists stay well formed, as long as the number of pages of a large
block, which is computed modulo `2 ^ 64`, is positive and within reach of the scan of
`alloc_pages`.  The bytes that `realloc` copies are left out here; the next module is
about them.
-/

namespace IloPali

open ByteMemory LinkedList Transition

/-! ## 1. Calls -/

/-- A block in use: its bucket, and the size that was asked for. -/
structure LiveBlock where
  bucket : Nat
  size : Nat

/-- The heap, the blocks in use, the formatted regions, and the pages of large blocks, each run
    of pages with the address at which the kernel sees it. -/
structure HeapTrace where
  heap : Heap
  live : List LiveBlock
  regions : List (Nat × SizeClass)
  large : List (Nat × Nat)

inductive HeapOp
  | malloc (size origin : Nat)
  | realloc (p newSize origin : Nat)
  | free (p : Nat)

/-- The pages that `free_buckets_alloc` asks `alloc_pages` for. -/
def requestedPages (h : Heap) (size : Nat) : Option Nat :=
  if size = 0 then none
  else match sizeClass size with
    | some c => if h.free c = 0 then some FALLBACK_PAGE_COUNT else none
    | none => some (pageCount size)

namespace HeapTrace

/-- What is known after a call of `free_buckets_alloc`. -/
def allocated (L : Layout) (size origin : Nat) (s : HeapTrace) : HeapTrace :=
  let call := freeBucketsAlloc L size origin s.heap
  let page n := phys2safe s.heap.kernel.mmu (allocPages L n s.heap.kernel).1
  if call.1 = 0 then { s with heap := call.2 } else
  { heap := call.2
    live := ⟨call.1 - HEADER_SIZE, size⟩ :: s.live
    regions := match requestedPages s.heap size, sizeClass size with
      | some n, some c => (page n, c) :: s.regions
      | _, _ => s.regions
    large := match requestedPages s.heap size, sizeClass size with
      | some n, none => (page n, n) :: s.large
      | _, _ => s.large }

/-- What is known after a call of `free`. -/
def freed (L : Layout) (p : Nat) (s : HeapTrace) : HeapTrace :=
  { heap := IloPali.free L p s.heap
    live := s.live.filter fun b => b.bucket + HEADER_SIZE ≠ p
    regions := s.regions
    large := s.large.filter fun r => r.1 + HEADER_SIZE ≠ p }

/-- What is known after a block has been resized in place. -/
def resized (p newSize : Nat) (s : HeapTrace) : HeapTrace :=
  { s with live := s.live.map fun b =>
      if b.bucket + HEADER_SIZE = p then { b with size := newSize } else b }

/-- One call, with a given way to copy. -/
def step (copy : Nat → Nat → Nat → Kernel → Kernel) (L : Layout) (s : HeapTrace) :
    HeapOp → HeapTrace
  | .malloc size origin => { s.allocated L size origin with heap := (malloc L size origin s.heap).2 }
  | .free p => s.freed L p
  | .realloc p newSize origin =>
    let t :=
      if p = 0 then s.allocated L newSize origin
      else if s.heap.kernel.size (p - HEADER_SIZE) ≥ newSize then s.resized p newSize
      else if (freeBucketsAlloc L newSize origin s.heap).1 = 0 then s
      else (s.allocated L newSize origin).freed L p
    { t with heap := (reallocWith copy L p newSize origin s.heap).2 }

/-- The size that a call asks `free_buckets_alloc` for. -/
def asked (s : HeapTrace) : HeapOp → Option Nat
  | .malloc size _ => some size
  | .free _ => none
  | .realloc p newSize _ =>
    if p = 0 ∨ s.heap.kernel.size (p - HEADER_SIZE) < newSize then some newSize else none

/-- A pointer that may be freed: `NULL`, or one to a block in use. -/
def MayFree (s : HeapTrace) (p : Nat) : Prop :=
  p = 0 ∨ ∃ b ∈ s.live, p = b.bucket + HEADER_SIZE

/-- The calls of a correct program. -/
structure Allowed (s : HeapTrace) (op : HeapOp) : Prop where
  pointer : match op with
    | .malloc _ _ => True
    | .free p => s.MayFree p
    | .realloc p _ _ => s.MayFree p
  size : ∀ size, s.asked op = some size → size < 2 ^ 64

/-- `alloc_pages` succeeds if it is called. -/
def Given (L : Layout) (s : HeapTrace) (op : HeapOp) : Prop :=
  ∀ size, s.asked op = some size → ∀ n, requestedPages s.heap size = some n →
    (allocPages L n s.heap.kernel).1 ≠ 0

/-- Nothing has been allocated yet. -/
structure Initial (s : HeapTrace) : Prop where
  used : s.heap.used = 0
  free : ∀ c, s.heap.free c = 0
  live : s.live = []
  regions : s.regions = []
  large : s.large = []

end HeapTrace

/-- One allowed call in which `alloc_pages` does not fail. -/
def HeapStep (copy : Nat → Nat → Nat → Kernel → Kernel) (L : Layout) (s : HeapTrace) (op : HeapOp)
    (t : HeapTrace) : Prop :=
  s.Allowed op ∧ s.Given L op ∧ t = s.step copy L op

/-- A number of pages that is asked for is positive, and not so large that the end of the scan
    of `alloc_pages` wraps around. -/
def HeapTrace.Countable (L : Layout) (s : HeapTrace) (op : HeapOp) : Prop :=
  ∀ size, s.asked op = some size → ∀ n, requestedPages s.heap size = some n →
    1 ≤ n ∧ 2 * n ≤ L.heapBottom

/-- The used list consists of the blocks in use, linked both ways; the free lists end, they
    have no block in common with each other and with the used list, and every slot of a
    formatted region is in one of the lists. -/
def HeapTrace.ListsWellFormed (s : HeapTrace) : Prop :=
  let used := s.live.map LiveBlock.bucket
  Chain 0 s.heap.kernel.next s.heap.used used ∧ Back s.heap.kernel.prev 0 used ∧
    ∃ free : SizeClass → List Nat, (∀ c, Chain 0 s.heap.kernel.next (s.heap.free c) (free c)) ∧
      (used ++ allFree free).Nodup ∧
      ∀ r ∈ s.regions, ∀ j, j ≤ r.2.slotCount → r.2.slot r.1 j ∈ used ++ allFree free

/-! ## 2. What the calls do -/

theorem sizeClass_size (c : SizeClass) : sizeClass c.size = some c := by
  cases c <;> decide

theorem sizeClass_eq_none {size : Nat} : sizeClass size = none ↔ 65536 < size := by
  unfold sizeClass
  repeat' split
  all_goals
    simp only [reduceCtorEq, false_iff, true_iff]
    omega

section Calls

variable {L : Layout} (hL : L.WellFormed) {h : Heap} {rs : List PageRun} {used : List Nat}
  {free : SizeClass → List Nat} {loose : List Nat} {b : Nat}
include hL

/-- Where a call of `free_buckets_alloc` takes its bucket from: the head of a free list, or
    pages that were just handed out. -/
def Taken (L : Layout) (h : Heap) (size : Nat) (rs rs' : List PageRun) (b : Nat) : Prop :=
  (requestedPages h size = none ∧ rs' = rs ∧ ∃ c, sizeClass size = some c ∧ b = h.free c) ∨
    ∃ r : PageRun, requestedPages h size = some r.count ∧ rs' = r :: rs ∧ r.cls = sizeClass size ∧
      (allocPages L r.count h.kernel).1 = L.pageAddr r.page ∧ b = r.start L h.kernel.mmu

/-- **What `free_buckets_alloc` does.** -/
theorem HeapInv.alloc (hi : HeapInv L h rs used free []) {size : Nat} (h0 : size ≠ 0)
    (hlt : size < 2 ^ 64) (origin : Nat)
    (hcount : ∀ n, requestedPages h size = some n → 1 ≤ n ∧ 2 * n ≤ L.heapBottom)
    (hok : ∀ n, requestedPages h size = some n → (allocPages L n h.kernel).1 ≠ 0) :
    ∃ rs' free' b, (freeBucketsAlloc L size origin h).1 = b + HEADER_SIZE ∧
      HeapInv L (freeBucketsAlloc L size origin h).2 rs' (b :: used) free' [] ∧
      Keeps L rs h.kernel (freeBucketsAlloc L size origin h).2.kernel ∧
      (sizeClass size = none → (freeBucketsAlloc L size origin h).2.kernel.size b = size) ∧
      Taken L h size rs rs' b := by
  unfold freeBucketsAlloc
  rw [if_neg h0]
  cases hc : sizeClass size with
  | some c =>
    have hreq : requestedPages h size = if h.free c = 0 then some FALLBACK_PAGE_COUNT else none := by
      rw [requestedPages, if_neg h0, hc]
    have hN : 2 * FALLBACK_PAGE_COUNT ≤ L.heapBottom := by
      obtain ⟨_, hb, _, _, hle⟩ := hL.bounds
      rw [FALLBACK_PAGE_COUNT]
      omega
    obtain ⟨rs', free', hinv, hne, hkeep, hfrom⟩ := (hi.lock true).takeBucket hL c hN
      fun hz => hok _ (by rw [hreq]; exact if_pos hz)
    dsimp only at hkeep hfrom ⊢
    rw [if_neg hne]
    obtain ⟨hlink, hkeep'⟩ := hinv.linkUsed hL origin
    have hsub : ∀ r ∈ rs, r ∈ rs' := by
      intro r hr
      rcases hfrom with ⟨_, rfl, _⟩ | ⟨_, r', rfl, _⟩
      · exact hr
      · exact List.mem_cons_of_mem r' hr
    refine ⟨rs', free', _, rfl, hlink.lock false, hkeep.trans (hkeep'.mono hsub),
      fun hcon => (nomatch hcon), ?_⟩
    · rcases hfrom with ⟨hz, hrs, hb⟩ | ⟨hz, r, hrs, hcls, hcnt, hpage, hb⟩
      · exact Or.inl ⟨by rw [hreq, if_neg hz], hrs, c, hc, hb⟩
      · rw [← hcnt] at hpage hreq
        exact Or.inr ⟨r, by rw [hreq, if_pos hz], hrs, by rw [hcls, hc], hpage, hb⟩
  | none =>
    have hreq : requestedPages h size = some (pageCount size) := by
      rw [requestedPages, if_neg h0, hc]
    obtain ⟨hpos, hN⟩ := hcount _ hreq
    obtain ⟨r, hcls, hcnt, hpage, hstart, hne, hkeep, hsize, hinv⟩ :=
      (hi.lock true).takePages hL (sizeClass_eq_none.mp hc) hlt hpos hN (hok _ hreq)
    dsimp only at hpage hstart hkeep hsize ⊢
    rw [if_neg hne]
    obtain ⟨hlink, hkeep'⟩ := hinv.linkUsed hL origin
    refine ⟨r :: rs, free, _, rfl, hlink.lock false,
      hkeep.trans (hkeep'.mono fun _ hr => List.mem_cons_of_mem r hr), fun _ => ?_, ?_⟩
    · rw [hkeep'.size _ (hinv.mem_loose List.mem_cons_self), hstart]
      exact hsize
    · rw [← hcnt] at hreq hpage
      exact Or.inr ⟨r, hreq, rfl, by rw [hcls, hc], hpage, hstart⟩

/-- **What `free` does.** -/
theorem HeapInv.dealloc {xs ys : List Nat} (hi : HeapInv L h rs (xs ++ b :: ys) free []) :
    ∃ rs' free', HeapInv L (IloPali.free L (b + HEADER_SIZE) h) rs' (xs ++ ys) free' [] ∧
      Keeps L rs' h.kernel (IloPali.free L (b + HEADER_SIZE) h).kernel ∧
      ((rs' = rs ∧ ∀ r ∈ rs, r.cls = none → r.start L h.kernel.mmu ≠ b) ∨
        ∃ r ∈ rs, r.cls = none ∧ b = r.start L h.kernel.mmu ∧ rs' = rs.erase r ∧
          b ∉ buckets L h.kernel.mmu rs') := by
  have hb := hi.mem_used (List.mem_append_right xs List.mem_cons_self)
  obtain ⟨hinv, hkeep⟩ := (hi.lock true).unlinkUsed hL
  dsimp only at hkeep
  have hsize := hkeep.size b hb
  unfold IloPali.free
  rw [if_neg (by rw [HEADER_SIZE]; omega), Nat.add_sub_cancel]
  dsimp only
  rw [hsize]
  cases hc : sizeClass (h.kernel.size b) with
  | some c =>
    dsimp only
    have hfits : (IloPali.unlinkUsed b { h with mutating := true }).kernel.size b = c.size ∨
        (IloPali.unlinkUsed b { h with mutating := true }).kernel.size b = 0 := by
      rw [hsize]
      obtain ⟨r, _, ⟨c', _, _, _, _, hcs⟩ | ⟨_, _, _, hcs⟩ | ⟨_, _, hlarge, _⟩⟩ :=
        hi.pages.classify hb
      · rw [hcs, sizeClass_size, Option.some.injEq] at hc
        subst hc
        exact Or.inl hcs
      · exact Or.inr hcs
      · rw [sizeClass_eq_none.mpr hlarge] at hc
        cases hc
    obtain ⟨hpush, hkeep'⟩ := hinv.pushFree hL hfits
    refine ⟨rs, _, hpush.lock false, hkeep.trans hkeep', Or.inl ⟨rfl, ?_⟩⟩
    -- a large block is too large for every free list
    rintro r hr hcls rfl
    have hsized := hi.pages.sized r hr
    unfold PageRun.Sized at hsized
    rw [hcls] at hsized
    rw [sizeClass_eq_none.mpr hsized.1] at hc
    cases hc
  | none =>
    dsimp only
    have hlarge := sizeClass_eq_none.mp hc
    rw [← hsize] at hlarge ⊢
    obtain ⟨r, hr, hcls, hstart, hgone, hfreed, hkeep'⟩ := hinv.freePages hL hlarge
    rw [hkeep.mmu] at hstart hgone
    exact ⟨rs.erase r, free, hfreed.lock false,
      (hkeep.mono fun _ hr' => List.mem_of_mem_erase hr').trans hkeep',
      Or.inr ⟨r, hr, hcls, hstart, rfl, hgone⟩⟩

end Calls

/-! ## 3. Runs -/

/-- **The invariant of runs**: the used list is the list of blocks in use, and what is known
    about the pages of the heap is right. -/
structure TraceInv (L : Layout) (s : HeapTrace) (rs : List PageRun)
    (free : SizeClass → List Nat) : Prop where
  lists : HeapInv L s.heap rs (s.live.map LiveBlock.bucket) free []
  regions : ∀ p, p ∈ s.regions ↔
    ∃ r ∈ rs, r.cls = some p.2 ∧ r.start L s.heap.kernel.mmu = p.1
  large : ∀ p, p ∈ s.large ↔
    ∃ r ∈ rs, r.cls = none ∧ r.start L s.heap.kernel.mmu = p.1 ∧ r.count = p.2

namespace TraceInv

variable {L : Layout} {s : HeapTrace} {rs : List PageRun} {free : SizeClass → List Nat}

theorem initial (h : s.Initial) (hR : L.Reachable s.heap.kernel.mmu) :
    TraceInv L s [] fun _ => [] := by
  refine ⟨⟨⟨⟨hR, fun _ hr => (nomatch hr), List.Pairwise.nil⟩, fun _ hr => (nomatch hr),
    fun _ hr => (nomatch hr)⟩, ?_, ?_, h.free, ?_, fun _ _ hb => (nomatch hb)⟩, ?_, ?_⟩
  · rw [h.live]
    exact h.used
  · rw [h.live]
    trivial
  · rw [h.live]
    exact List.Perm.refl _
  · rw [h.regions]
    exact fun p => ⟨fun hp => (nomatch hp), fun ⟨_, hr, _⟩ => (nomatch hr)⟩
  · rw [h.large]
    exact fun p => ⟨fun hp => (nomatch hp), fun ⟨_, hr, _⟩ => (nomatch hr)⟩

theorem listsWellFormed (hi : TraceInv L s rs free) : s.ListsWellFormed := by
  refine ⟨hi.lists.usedChain, hi.lists.usedBack, free, hi.lists.freeChain, hi.lists.nodup, ?_⟩
  rintro ⟨data, c⟩ hp j hj
  obtain ⟨r, hr, hcls, hstart⟩ := (hi.regions _).mp hp
  dsimp only at hcls hstart hj ⊢
  rw [← hstart]
  exact hi.lists.all.mem_iff.mpr (HeapPages.slot_mem hr hcls hj)

theorem allocated_heap (L : Layout) (size origin : Nat) (s : HeapTrace) :
    (s.allocated L size origin).heap = (freeBucketsAlloc L size origin s.heap).2 := by
  unfold HeapTrace.allocated
  dsimp only
  split
  · rfl
  · rfl

/-- Asking for nothing changes nothing. -/
theorem allocated_zero (L : Layout) (origin : Nat) (s : HeapTrace) :
    s.allocated L 0 origin = s := by
  rw [HeapTrace.allocated]
  exact if_pos rfl

theorem freed_null (L : Layout) (s : HeapTrace) : s.freed L 0 = s := by
  have hfilter : ∀ (α : Type) (f : α → Nat) (l : List α),
      l.filter (fun a => decide (f a + HEADER_SIZE ≠ 0)) = l := by
    intro α f l
    apply List.filter_eq_self.mpr
    intro a _
    exact decide_eq_true (Nat.ne_of_gt (Nat.add_pos_right _ (by decide)))
  simp only [HeapTrace.freed, hfilter]
  rfl

theorem resized (hi : TraceInv L s rs free) (p newSize : Nat) :
    TraceInv L (s.resized p newSize) rs free := by
  refine ⟨?_, hi.regions, hi.large⟩
  have hsame : (s.resized p newSize).live.map LiveBlock.bucket = s.live.map LiveBlock.bucket := by
    rw [HeapTrace.resized, List.map_map]
    apply List.map_congr_left
    intro b _
    simp only [Function.comp_apply]
    split
    · rfl
    · rfl
  rw [hsame]
  exact hi.lists

variable (hL : L.WellFormed)
include hL

theorem allocated (hi : TraceInv L s rs free) {size : Nat} (h0 : size ≠ 0) (hlt : size < 2 ^ 64)
    (origin : Nat)
    (hcount : ∀ n, requestedPages s.heap size = some n → 1 ≤ n ∧ 2 * n ≤ L.heapBottom)
    (hok : ∀ n, requestedPages s.heap size = some n → (allocPages L n s.heap.kernel).1 ≠ 0) :
    ∃ rs' free' b, TraceInv L (s.allocated L size origin) rs' free' ∧
      (freeBucketsAlloc L size origin s.heap).1 = b + HEADER_SIZE ∧
      (s.allocated L size origin).live = ⟨b, size⟩ :: s.live ∧
      Keeps L rs s.heap.kernel (s.allocated L size origin).heap.kernel ∧
      (sizeClass size = none → (s.allocated L size origin).heap.kernel.size b = size) ∧
      Taken L s.heap size rs rs' b := by
  obtain ⟨rs', free', b, hp, hinv, hkeep, hsize, hfrom⟩ :=
    hi.lists.alloc hL h0 hlt origin hcount hok
  have hne : b + HEADER_SIZE ≠ 0 := Nat.ne_of_gt (Nat.add_pos_right b (by decide))
  have hlive : (s.allocated L size origin).live = ⟨b, size⟩ :: s.live := by
    simp only [HeapTrace.allocated, hp]
    rw [if_neg hne, Nat.add_sub_cancel]
  rw [← allocated_heap] at hinv hkeep hsize
  have hmmu := hkeep.mmu
  refine ⟨rs', free', b, ⟨?_, ?_, ?_⟩, hp, hlive, hkeep, hsize, hfrom⟩
  · rw [hlive]
    exact hinv
  · intro p
    rw [hmmu]
    rcases hfrom with ⟨hreq, rfl, _⟩ | ⟨r, hreq, rfl, hcls, hpage, _⟩
    · simp only [HeapTrace.allocated, hp, if_neg hne, hreq]
      exact hi.regions p
    · simp only [HeapTrace.allocated, hp, if_neg hne, hreq, List.mem_cons, exists_eq_or_imp, hcls]
      cases hc : sizeClass size with
      | none => simpa using hi.regions p
      | some c =>
        rw [List.mem_cons, hi.regions p]
        apply or_congr_left
        rw [Prod.ext_iff, and_comm, eq_comm, @eq_comm _ p.1, Option.some.injEq, PageRun.start,
          ← hpage]
  · intro p
    rw [hmmu]
    rcases hfrom with ⟨hreq, rfl, _⟩ | ⟨r, hreq, rfl, hcls, hpage, _⟩
    · simp only [HeapTrace.allocated, hp, if_neg hne, hreq]
      exact hi.large p
    · simp only [HeapTrace.allocated, hp, if_neg hne, hreq, List.mem_cons, exists_eq_or_imp, hcls]
      cases hc : sizeClass size with
      | some c => simpa using hi.large p
      | none =>
        rw [List.mem_cons, hi.large p]
        apply or_congr_left
        rw [Prod.ext_iff, PageRun.start, ← hpage, eq_comm, @eq_comm _ p.2]
        exact ⟨fun h => ⟨rfl, h⟩, fun h => h.2⟩

/-- One of the blocks in use is freed. -/
theorem freed (hi : TraceInv L s rs free) {b : LiveBlock} (hb : b ∈ s.live) :
    ∃ rs' free', TraceInv L (s.freed L (b.bucket + HEADER_SIZE)) rs' free' ∧
      Keeps L rs' s.heap.kernel (s.freed L (b.bucket + HEADER_SIZE)).heap.kernel ∧
      (rs' = rs ∨ ∃ r ∈ rs, r.cls = none ∧ b.bucket = r.start L s.heap.kernel.mmu ∧
        rs' = rs.erase r) := by
  obtain ⟨xs, ys, hsplit⟩ := List.append_of_mem hb
  have hinv := hi.lists
  rw [hsplit, List.map_append, List.map_cons] at hinv
  have hnodup := hinv.usedChain.nodup
  rw [List.nodup_middle, List.nodup_cons, ← List.map_append] at hnodup
  have hlive : (s.freed L (b.bucket + HEADER_SIZE)).live = xs ++ ys := by
    have hkeep : ∀ l : List LiveBlock, (∀ x ∈ l, x.bucket ≠ b.bucket) →
        l.filter (fun x => decide (x.bucket + HEADER_SIZE ≠ b.bucket + HEADER_SIZE)) = l := by
      intro l hl
      apply List.filter_eq_self.mpr
      intro x hx
      exact decide_eq_true fun hcon => hl x hx (Nat.add_right_cancel hcon)
    have hne : ∀ x ∈ xs ++ ys, x.bucket ≠ b.bucket := fun x hx heq =>
      hnodup.1 (heq ▸ List.mem_map_of_mem hx)
    rw [HeapTrace.freed, hsplit, List.filter_append, List.filter_cons_of_neg (by simp),
      hkeep xs fun x hx => hne x (List.mem_append_left _ hx),
      hkeep ys fun x hx => hne x (List.mem_append_right _ hx)]
  obtain ⟨rs', free', hfree, hkeep, hgone⟩ := hinv.dealloc hL
  have hheap : (s.freed L (b.bucket + HEADER_SIZE)).heap =
      IloPali.free L (b.bucket + HEADER_SIZE) s.heap := by rw [HeapTrace.freed]
  rw [← hheap, ← List.map_append, ← hlive] at hfree
  rw [← hheap] at hkeep
  have hmmu := hkeep.mmu
  refine ⟨rs', free', ⟨?_, fun p => ?_, fun p => ?_⟩, hkeep,
    hgone.imp And.left fun ⟨r, hr, hcls, hstart, hrs, _⟩ => ⟨r, hr, hcls, hstart, hrs⟩⟩
  · exact hfree
  · rw [hmmu]
    have hregions : p ∈ (s.freed L (b.bucket + HEADER_SIZE)).regions ↔ p ∈ s.regions := by
      rw [HeapTrace.freed]
    rw [hregions, hi.regions p]
    rcases hgone with ⟨rfl, _⟩ | ⟨r, hr, hcls, _, rfl, _⟩
    · exact Iff.rfl
    · refine exists_congr fun r' => and_congr_left fun h => ?_
      have hne : r' ≠ r := by
        rintro rfl
        rw [hcls] at h
        exact (nomatch h.1)
      exact (List.mem_erase_of_ne hne).symm
  · rw [hmmu]
    have hfilter : p ∈ (s.freed L (b.bucket + HEADER_SIZE)).large ↔
        p ∈ s.large ∧ p.1 ≠ b.bucket := by
      rw [HeapTrace.freed, List.mem_filter]
      simp
    rw [hfilter, hi.large p]
    rcases hgone with ⟨rfl, hnone⟩ | ⟨r, hr, hcls, hstart, rfl, hgone⟩
    · constructor
      · exact fun h => h.1
      · rintro ⟨r', hr', hcls', hstart', hcnt⟩
        exact ⟨⟨r', hr', hcls', hstart', hcnt⟩, hstart' ▸ hnone r' hr' hcls'⟩
    · constructor
      · rintro ⟨⟨r', hr', hcls', hstart', hcnt⟩, hne⟩
        refine ⟨r', (List.mem_erase_of_ne ?_).mpr hr', hcls', hstart', hcnt⟩
        rintro rfl
        exact hne (hstart'.symm.trans hstart.symm)
      · rintro ⟨r', hr', hcls', hstart', hcnt⟩
        refine ⟨⟨r', List.mem_of_mem_erase hr', hcls', hstart', hcnt⟩, ?_⟩
        rw [← hstart']
        intro heq
        apply hgone
        rw [← heq]
        exact HeapPages.large_mem hr' hcls'

end TraceInv

/-! ## 4. The lists stay well formed -/

section Steps

variable {copy : Nat → Nat → Nat → Kernel → Kernel} {L : Layout} {s : HeapTrace}

theorem step_malloc (size origin : Nat) :
    s.step copy L (.malloc size origin) = s.allocated L size origin := by
  rw [HeapTrace.step, malloc, ← TraceInv.allocated_heap]

theorem step_realloc_null (newSize origin : Nat) :
    s.step copy L (.realloc 0 newSize origin) = s.allocated L newSize origin := by
  rw [HeapTrace.step, if_pos rfl, reallocWith, if_pos rfl, malloc, ← TraceInv.allocated_heap]

theorem step_realloc_keep {p newSize : Nat} (hp : p ≠ 0)
    (h : newSize ≤ s.heap.kernel.size (p - HEADER_SIZE)) (origin : Nat) :
    s.step copy L (.realloc p newSize origin) = s.resized p newSize := by
  rw [HeapTrace.step, if_neg hp, if_pos h, reallocWith, if_neg hp]
  dsimp only
  rw [if_pos h]
  rfl

/-- The state in which `realloc` frees the old block. -/
def HeapTrace.moved (copy : Nat → Nat → Nat → Kernel → Kernel) (L : Layout)
    (p newSize origin : Nat) (s : HeapTrace) : HeapTrace :=
  let t := s.allocated L newSize origin
  { t with heap := { t.heap with
    kernel := copy (freeBucketsAlloc L newSize origin s.heap).1 p
      (t.heap.kernel.size (p - HEADER_SIZE)) t.heap.kernel } }

theorem step_realloc_move {p newSize : Nat} (hp : p ≠ 0)
    (h : s.heap.kernel.size (p - HEADER_SIZE) < newSize) {origin : Nat}
    (hnew : (freeBucketsAlloc L newSize origin s.heap).1 ≠ 0) :
    s.step copy L (.realloc p newSize origin) =
      (s.moved copy L p newSize origin).freed L p := by
  rw [HeapTrace.step, if_neg hp, if_neg (Nat.not_le.mpr h), reallocWith, if_neg hp]
  dsimp only
  rw [if_neg (Nat.not_le.mpr h), if_neg hnew, if_neg hnew, HeapTrace.moved, HeapTrace.freed,
    HeapTrace.freed, ← TraceInv.allocated_heap]

/-- A pointer that may be freed, but for `NULL`. -/
theorem HeapTrace.MayFree.live {p : Nat} (h : s.MayFree p) (hp : p ≠ 0) :
    ∃ b ∈ s.live, p = b.bucket + HEADER_SIZE :=
  h.resolve_left hp

variable {rs : List PageRun} {free : SizeClass → List Nat} (hL : L.WellFormed)
include hL

/-- Any call of `free_buckets_alloc`, also for nothing. -/
theorem TraceInv.allocated_any (hi : TraceInv L s rs free) {size : Nat} (hlt : size < 2 ^ 64)
    (origin : Nat)
    (hcount : ∀ n, requestedPages s.heap size = some n → 1 ≤ n ∧ 2 * n ≤ L.heapBottom)
    (hok : ∀ n, requestedPages s.heap size = some n → (allocPages L n s.heap.kernel).1 ≠ 0) :
    ∃ rs' free', TraceInv L (s.allocated L size origin) rs' free' := by
  by_cases h0 : size = 0
  · rw [h0, TraceInv.allocated_zero]
    exact ⟨rs, free, hi⟩
  · obtain ⟨rs', free', _, hinv, _⟩ := hi.allocated hL h0 hlt origin hcount hok
    exact ⟨rs', free', hinv⟩

/-- **One call.** -/
theorem TraceInv.step {op : HeapOp} (hi : TraceInv L s rs free) (hc : s.Countable L op)
    (ha : s.Allowed op) (hg : s.Given L op) :
    ∃ rs' free', TraceInv L (s.step (fun _ _ _ k => k) L op) rs' free' := by
  cases op with
  | malloc size origin =>
    rw [step_malloc]
    exact hi.allocated_any hL (ha.size size rfl) origin (hc size rfl) (hg size rfl)
  | free p =>
    by_cases hp : p = 0
    · rw [HeapTrace.step, hp, TraceInv.freed_null]
      exact ⟨rs, free, hi⟩
    · obtain ⟨b, hb, rfl⟩ := HeapTrace.MayFree.live ha.pointer hp
      obtain ⟨rs', free', hinv, _⟩ := hi.freed hL hb
      exact ⟨rs', free', hinv⟩
  | realloc p newSize origin =>
    by_cases hp : p = 0
    · subst hp
      rw [step_realloc_null]
      have hasked : s.asked (.realloc 0 newSize origin) = some newSize := by
        rw [HeapTrace.asked, if_pos (Or.inl rfl)]
      exact hi.allocated_any hL (ha.size _ hasked) origin (hc _ hasked) (hg _ hasked)
    · by_cases hkeep : newSize ≤ s.heap.kernel.size (p - HEADER_SIZE)
      · rw [step_realloc_keep hp hkeep]
        exact ⟨rs, free, hi.resized p newSize⟩
      · have hmove := Nat.not_le.mp hkeep
        have hasked : s.asked (.realloc p newSize origin) = some newSize := by
          rw [HeapTrace.asked, if_pos (Or.inr hmove)]
        obtain ⟨rs', free', b', hinv, hnew, hlive, _⟩ := hi.allocated hL
          (Nat.ne_of_gt (Nat.zero_lt_of_lt hmove)) (ha.size _ hasked) origin (hc _ hasked)
          (hg _ hasked)
        rw [step_realloc_move hp hmove (by rw [hnew, HEADER_SIZE]; omega)]
        obtain ⟨b, hb, rfl⟩ := HeapTrace.MayFree.live ha.pointer hp
        have hb' : b ∈ (s.allocated L newSize origin).live := by
          rw [hlive]
          exact List.mem_cons_of_mem _ hb
        obtain ⟨rs'', free'', hfreed, _⟩ := hinv.freed hL hb'
        exact ⟨rs'', free'', hfreed⟩

end Steps

/-- **The lists of the heap.**  From the first call on, in every run of calls whose numbers of
    pages can be counted, the lists are well formed. -/
theorem bucket_lists_well_formed (L : Layout) (hL : L.WellFormed) (s0 s : HeapTrace)
    (ops : List HeapOp) (h0 : s0.Initial) (hR : L.Reachable s0.heap.kernel.mmu)
    (hrun : Run (guarded (HeapTrace.Countable L) (HeapStep (fun _ _ _ k => k) L)) s0 ops s) :
    s.ListsWellFormed := by
  have hinv : ∃ rs free, TraceInv L s rs free := by
    refine @Run.invariant _ _ _ (fun s => ∃ rs free, TraceInv L s rs free) ?_ _ _ _ hrun
      ⟨[], _, .initial h0 hR⟩
    rintro s op t ⟨rs, free, hi⟩ ⟨hc, ha, hg, rfl⟩
    exact hi.step hL hc ha hg
  obtain ⟨rs, free, hi⟩ := hinv
  exact hi.listsWellFormed

/-- A heap in which nothing has been allocated, on a blank machine. -/
def HeapTrace.blank : HeapTrace := ⟨⟨.blank, false, 0, fun _ => 0⟩, [], [], []⟩

theorem HeapTrace.blank_initial : HeapTrace.blank.Initial :=
  ⟨rfl, fun _ => rfl, rfl, rfl, rfl⟩

/-- `malloc` of a size asks for pages, or for none. -/
theorem heapStep_malloc {copy : Nat → Nat → Nat → Kernel → Kernel} {L : Layout} {s : HeapTrace}
    {size : Nat} (hlt : size < 2 ^ 64) (origin : Nat)
    (hok : ∀ n ∈ requestedPages s.heap size, (allocPages L n s.heap.kernel).1 ≠ 0) :
    HeapStep copy L s (.malloc size origin) (s.allocated L size origin) :=
  ⟨⟨trivial, fun _ h => Option.some.inj h ▸ hlt⟩, fun _ h => Option.some.inj h ▸ hok,
    (step_malloc size origin).symm⟩

theorem bucket_lists_malloc :
    (HeapTrace.blank.allocated .board 65536 0).ListsWellFormed := by
  have hok : ∀ n ∈ requestedPages HeapTrace.blank.heap 65536,
      (allocPages .board n HeapTrace.blank.heap.kernel).1 ≠ 0 := by decide +kernel
  have hcount : HeapTrace.blank.Countable .board (.malloc 65536 0) := by
    intro size hsize n hn
    obtain rfl := Option.some.inj hsize
    obtain rfl := Option.some.inj hn
    decide
  exact bucket_lists_well_formed .board Layout.board_wellFormed .blank _ [.malloc 65536 0]
    HeapTrace.blank_initial (fun hon => (nomatch hon))
    (.cons ⟨hcount, heapStep_malloc (by decide) 0 hok⟩ (.nil _))

/-- **A list that does not end.**  For a size of `2 ^ 64 - 4127` the number of pages is zero, so
    `alloc_pages` takes no page, and the same page is handed out twice. -/
theorem bucket_list_cycle : HeapTrace.blank.Initial ∧ ∃ s,
    Run (HeapStep (fun _ _ _ k => k) .board) .blank
      [.malloc 0xffffffffffffefe1 0, .malloc 0xffffffffffffefe1 0] s ∧
    s.heap.kernel.next s.heap.used = s.heap.used ∧ s.heap.used ≠ 0 ∧ ¬ s.ListsWellFormed := by
  have h1 : ∀ n ∈ requestedPages HeapTrace.blank.heap 0xffffffffffffefe1,
      (allocPages .board n HeapTrace.blank.heap.kernel).1 ≠ 0 := by decide +kernel
  have h2 : ∀ n ∈ requestedPages
        (HeapTrace.blank.allocated .board 0xffffffffffffefe1 0).heap 0xffffffffffffefe1,
      (allocPages .board n
        (HeapTrace.blank.allocated .board 0xffffffffffffefe1 0).heap.kernel).1 ≠ 0 := by
    decide +kernel
  refine ⟨HeapTrace.blank_initial, _, .cons (heapStep_malloc (by decide) 0 h1)
    (.cons (heapStep_malloc (by decide) 0 h2) (.nil _)), by decide +kernel, by decide +kernel,
    fun hcon => ?_⟩
  obtain ⟨_, _, free, _, hnodup, _⟩ := hcon
  exact absurd hnodup.of_append_left (by decide +kernel)

end IloPali
