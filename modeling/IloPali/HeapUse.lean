import IloPali.HeapRuns
import IloPali.FirstFit

/-!
# The bytes of the heap

The runs of this module are those of a kernel that uses its heap: it calls `malloc`,
`realloc` and `free`, and it writes into the blocks it holds.  `realloc` copies.

The slot behind the formatted slots of a region is handed out like the others, but the region
ends before it does.  As long as no such slot is handed out for more than it holds, every block
has room for what was asked for, and no block overlaps another one or a header.
-/

namespace IloPali

open ByteMemory LinkedList Transition

/-! ## 1. Copying -/

theorem store_byte (m m' : Mem) (a b x : Nat) :
    ByteMemory.store m 1 a (ByteMemory.load m' 1 b) x = if x = a then m' b else m x := by
  by_cases h : x = a
  · subst h
    rw [ByteMemory.store, patch_inside m _ (le_refl x) (Nat.lt_succ_self x), if_pos rfl]
    simp [ByteMemory.load]
  · rw [ByteMemory.store, patch_outside m _ (by omega), if_neg h]

@[simp] theorem copyLoop_satp (n d s : Nat) (k : Kernel) : (copyLoop n d s k).satp = k.satp := by
  induction n generalizing d s k with
  | zero => rfl
  | succ n ih => exact ih _ _ _

@[simp] theorem copyLoop_mmu (n d s : Nat) (k : Kernel) : (copyLoop n d s k).mmu = k.mmu := by
  rw [Kernel.mmu, copyLoop_satp, Kernel.mmu]

/-- Copying writes the destination only, whatever the source is. -/
theorem copyLoop_frame {n d s x : Nat} {k : Kernel} (hd : Direct k.mmu d)
    (hx : x < physOf k.mmu d ∨ physOf k.mmu d + n ≤ x) : (copyLoop n d s k).mem x = k.mem x := by
  induction n generalizing d s k with
  | zero => rfl
  | succ n ih =>
    have hd1 := hd.physOf_add 1
    have hbyte : (k.store 1 d (k.load 1 s)).mem x = k.mem x :=
      (store_byte _ _ _ _ _).trans (if_neg (by omega))
    rw [copyLoop, ← hbyte]
    apply ih
    · exact hd.add 1
    · rw [Kernel.store_mmu, hd1]
      omega

/-- **The loop of `memcpy`**, from bytes that are not in the destination. -/
theorem copyLoop_bytes {n d s : Nat} {k : Kernel} (hd : Direct k.mmu d)
    (h : ∀ i, i < n → physOf k.mmu (s + i) < physOf k.mmu d ∨
      physOf k.mmu d + n ≤ physOf k.mmu (s + i)) {i : Nat} (hi : i < n) :
    (copyLoop n d s k).mem (physOf k.mmu d + i) = k.mem (physOf k.mmu (s + i)) := by
  induction n generalizing d s k i with
  | zero => exact absurd hi (Nat.not_lt_zero i)
  | succ n ih =>
    have hd1 := hd.physOf_add 1
    have hbyte : ∀ x, (k.store 1 d (k.load 1 s)).mem x =
        if x = physOf k.mmu d then k.mem (physOf k.mmu s) else k.mem x := store_byte _ _ _ _
    rw [copyLoop]
    cases i with
    | zero =>
      have hframe := @copyLoop_frame n (d + 1) (s + 1) (physOf k.mmu d)
        (k.store 1 d (k.load 1 s)) (hd.add 1) (by rw [Kernel.store_mmu, hd1]; omega)
      exact hframe.trans ((hbyte _).trans (if_pos rfl))
    | succ i =>
      have hstep := @ih (d + 1) (s + 1) (k.store 1 d (k.load 1 s)) (hd.add 1)
        (by
          intro j hj
          have hj' := h (j + 1) (by omega)
          rw [Kernel.store_mmu, hd1, Nat.add_assoc, Nat.add_comm 1 j]
          omega)
        i (by omega)
      have hsrc := h (i + 1) hi
      rw [Kernel.store_mmu, hd1, hbyte, Nat.add_assoc, Nat.add_assoc, Nat.add_comm 1 i,
        if_neg (by omega)] at hstep
      exact hstep

/-- The same, where source and destination are in the direct map. -/
theorem copyLoop_spec {n d s : Nat} {k : Kernel} (hd : Direct k.mmu d) (hs : Direct k.mmu s)
    (h : physOf k.mmu d + n ≤ physOf k.mmu s ∨ physOf k.mmu s + n ≤ physOf k.mmu d) :
    (copyLoop n d s k).satp = k.satp ∧
    (∀ i, i < n → (copyLoop n d s k).mem (physOf k.mmu d + i) = k.mem (physOf k.mmu s + i)) ∧
    ∀ x, (x < physOf k.mmu d ∨ physOf k.mmu d + n ≤ x) → (copyLoop n d s k).mem x = k.mem x := by
  refine ⟨copyLoop_satp n d s k, fun i hi => ?_, fun x hx => copyLoop_frame hd hx⟩
  rw [← hs.physOf_add]
  apply copyLoop_bytes hd _ hi
  intro j hj
  rw [hs.physOf_add]
  omega

/-- **What `memcpy` does**, where the end of the destination can be computed. -/
theorem memcpy_spec {n d s : Nat} {k : Kernel} (hd : Direct k.mmu d) (hs : Direct k.mmu s)
    (hend : d + n < 2 ^ 64)
    (h : physOf k.mmu d + n ≤ physOf k.mmu s ∨ physOf k.mmu s + n ≤ physOf k.mmu d) :
    (memcpy d s n k).satp = k.satp ∧
    (∀ i, i < n → (memcpy d s n k).mem (physOf k.mmu d + i) = k.mem (physOf k.mmu s + i)) ∧
    ∀ x, (x < physOf k.mmu d ∨ physOf k.mmu d + n ≤ x) → (memcpy d s n k).mem x = k.mem x := by
  rw [memcpy, Nat.mod_eq_of_lt hend, Nat.add_sub_cancel_left]
  exact copyLoop_spec hd hs h

/-! ## 2. Writing into a block -/

section Payload

variable {L : Layout} (hL : L.WellFormed) {k k' : Kernel} {rs : List PageRun}

/-- From `k` to `k'` only bytes behind the header of one block were written. -/
structure WritesBlock (p : Nat × Nat) (k k' : Kernel) : Prop where
  satp : k'.satp = k.satp
  frame : ∀ x, (x < physOf k.mmu p.1 + HEADER_SIZE ∨ physOf k.mmu p.1 + p.2 ≤ x) →
    k'.mem x = k.mem x

theorem WritesBlock.mmu {p : Nat × Nat} (h : WritesBlock p k k') : k'.mmu = k.mmu := by
  rw [Kernel.mmu, h.satp, Kernel.mmu]

include hL

/-- The bytes of another block, its header included, stay. -/
theorem WritesBlock.other (h : RunsPlaced L k.mmu rs) {p q : Nat × Nat}
    (hw : WritesBlock p k k') (hp : p ∈ pieces L k.mmu rs) (hq : q ∈ pieces L k.mmu rs)
    (hne : q ≠ p) {x : Nat} (h1 : physOf k.mmu q.1 ≤ x) (h2 : x < physOf k.mmu q.1 + q.2) :
    k'.mem x = k.mem x := by
  have hdir := (h.headersApart hL).direct
  have hapart := (hdir q.1 (List.mem_map_of_mem hq)).apart (hdir p.1 (List.mem_map_of_mem hp))
    (h.pieces_forall hq hp hne)
  exact hw.frame x (by omega)

/-- Writing into a block changes no header. -/
theorem WritesBlock.header (h : RunsPlaced L k.mmu rs) {p : Nat × Nat}
    (hw : WritesBlock p k k') (hp : p ∈ pieces L k.mmu rs) {b : Nat}
    (hb : b ∈ buckets L k.mmu rs) : k'.header b = k.header b := by
  obtain ⟨q, hq, rfl⟩ := List.mem_map.mp hb
  have hdir := (h.headersApart hL).direct q.1 hb
  have hpos := h.piece_pos hq
  have hfield : ∀ j, j + 8 ≤ HEADER_SIZE → k'.load 8 (q.1 + j) = k.load 8 (q.1 + j) := by
    intro j hj
    rw [Kernel.load, Kernel.load, hw.mmu, hdir.physOf_add]
    refine load_congr fun x h1 h2 => ?_
    by_cases hne : q = p
    · exact hw.frame x (Or.inl (by rw [← hne]; omega))
    · exact hw.other hL h hp hq hne (by omega) (by omega)
  exact Header.ext (hfield 0 (by decide)) (hfield 8 (by decide)) (hfield 16 (by decide))

/-- Writing into a block leaves the pages and their headers as they are. -/
theorem HeapPages.write (h : HeapPages L k rs) {p : Nat × Nat} (hw : WritesBlock p k k')
    (hp : p ∈ pieces L k.mmu rs) : HeapPages L k' rs := by
  refine ⟨by rw [hw.mmu]; exact h.toRunsPlaced, fun r hr i h1 h2 => ?_, fun r hr => ?_⟩
  · obtain ⟨r', hr', hpr⟩ := List.mem_flatMap.mp hp
    have hlow := (h.piece_phys hL hr' hpr).1
    have hbound := (h.placed r hr).bound
    rw [rc_congr hL (fun x hx => hw.frame x (Or.inl ?_)) (by omega)]
    · exact h.taken r hr i h1 h2
    · rw [pageAddr_eq] at hlow
      exact Nat.lt_of_lt_of_le hx.2 (by omega)
  · exact HeapPages.sized_congr hr hw.mmu
      (fun b hb => Kernel.size_congr (hw.header hL h.toRunsPlaced hp hb)) (h.sized r hr)

end Payload

/-- The byte that a pointer points to. -/
def Kernel.byte (k : Kernel) (ptr : Nat) : UInt8 := k.mem (physOf k.mmu ptr)

/-- The `n` bytes at `q` are afterwards what those at `p` were before. -/
def SameBytes (k k' : Kernel) (p q n : Nat) : Prop := ∀ i, i < n → k'.byte (q + i) = k.byte (p + i)

theorem SameBytes.trans {k k1 k2 : Kernel} {p q r n : Nat} (h1 : SameBytes k k1 p q n)
    (h2 : SameBytes k1 k2 q r n) : SameBytes k k2 p r n :=
  fun i hi => (h2 i hi).trans (h1 i hi)

section Bytes

variable {L : Layout} (hL : L.WellFormed) {k k' : Kernel} {rs : List PageRun} {b len n : Nat}
include hL

theorem Keeps.sameBytes (h : RunsPlaced L k.mmu rs) (hkeep : Keeps L rs k k')
    (hb : (b, len) ∈ pieces L k.mmu rs) (hn : HEADER_SIZE + n ≤ len) :
    SameBytes k k' (b + HEADER_SIZE) (b + HEADER_SIZE) n := by
  intro i hi
  have hphys := ((h.headersApart hL).direct b (List.mem_map_of_mem hb)).physOf_add (HEADER_SIZE + i)
  rw [Kernel.byte, Kernel.byte, hkeep.mmu, Nat.add_assoc, hphys]
  exact hkeep.payload _ hb _ (by dsimp only; omega) (by dsimp only; omega)

theorem WritesBlock.sameBytes (h : RunsPlaced L k.mmu rs) {p : Nat × Nat}
    (hw : WritesBlock p k k') (hp : p ∈ pieces L k.mmu rs) (hb : (b, len) ∈ pieces L k.mmu rs)
    (hne : b ≠ p.1) (hn : HEADER_SIZE + n ≤ len) :
    SameBytes k k' (b + HEADER_SIZE) (b + HEADER_SIZE) n := by
  intro i hi
  have hphys := ((h.headersApart hL).direct b (List.mem_map_of_mem hb)).physOf_add (HEADER_SIZE + i)
  rw [Kernel.byte, Kernel.byte, hw.mmu, Nat.add_assoc, hphys]
  exact hw.other hL h hp hb (fun heq => hne (by rw [← heq])) (by dsimp only; omega)
    (by dsimp only; omega)

end Bytes

/-! ## 3. Using the heap -/

/-- The bytes of a block that its holder may use. -/
def LiveBlock.range (b : LiveBlock) : Nat × Nat := (b.bucket + HEADER_SIZE, b.size)

/-- A call, or a byte that is written through a pointer. -/
inductive HeapUse
  | call (op : HeapOp)
  | write (p v : Nat)

namespace HeapTrace

def use (L : Layout) (s : HeapTrace) : HeapUse → HeapTrace
  | .call op => s.step memcpy L op
  | .write p v => { s with heap := { s.heap with kernel := s.heap.kernel.store 1 p v } }

/-- The uses of a correct program: its calls are allowed, and it writes only into the bytes it
    has asked for. -/
def MayUse (s : HeapTrace) : HeapUse → Prop
  | .call op => s.Allowed op
  | .write p _ => ∃ b ∈ s.live, b.range.1 ≤ p ∧ p < b.range.1 + b.range.2

/-- The block at the head of the free list that serves the size holds that many bytes: where
    its header has no size, its region does not end before. -/
def TailFits (s : HeapTrace) (size : Nat) : Prop :=
  ∀ c, sizeClass size = some c → s.heap.free c ≠ 0 → s.heap.kernel.size (s.heap.free c) = 0 →
    ∀ r ∈ s.regions, r.1 ≤ s.heap.free c → s.heap.free c < r.1 + REGION_SIZE →
      s.heap.free c + HEADER_SIZE + size ≤ r.1 + REGION_SIZE

/-- A request that is served as it should be: its number of pages does not wrap around, nor does
    the scan for them, and with the MMU on there are such pages; and it fits in the block. -/
structure Serves (L : Layout) (s : HeapTrace) (size : Nat) : Prop where
  small : size + HEADER_SIZE + PAGE_SIZE - 1 < 2 ^ 64
  pages : ∀ n, requestedPages s.heap size = some n → 2 * n ≤ L.heapBottom ∧
    (s.heap.kernel.mmu = true → ∃ i, i + n < L.entryCount ∧ RunFree L s.heap.kernel n i)
  tail : s.TailFits size

theorem Serves.lt {L : Layout} {s : HeapTrace} {size : Nat} (h : s.Serves L size) :
    size < 2 ^ 64 := by
  have hsmall := h.small
  rw [HEADER_SIZE, PAGE_SIZE] at hsmall
  omega

/-- Every request of a use is served as it should be. -/
def Served (L : Layout) (s : HeapTrace) : HeapUse → Prop
  | .call op => ∀ size, s.asked op = some size → s.Serves L size
  | .write _ _ => True

end HeapTrace

def HeapUses (L : Layout) (s : HeapTrace) (u : HeapUse) (t : HeapTrace) : Prop :=
  s.MayUse u ∧ t = s.use L u

/-- **The invariant of uses**: beside that of the lists, every block in use has room for what was
    asked for, and for what its header says. -/
structure UseInv (L : Layout) (s : HeapTrace) (rs : List PageRun)
    (free : SizeClass → List Nat) : Prop extends TraceInv L s rs free where
  room : ∀ b ∈ s.live, ∃ len, (b.bucket, len) ∈ pieces L s.heap.kernel.mmu rs ∧
    HEADER_SIZE + b.size ≤ len ∧ HEADER_SIZE + s.heap.kernel.size b.bucket ≤ len

theorem UseInv.initial {L : Layout} {s : HeapTrace} (h : s.Initial)
    (hR : L.Reachable s.heap.kernel.mmu) : UseInv L s [] fun _ => [] := by
  refine ⟨TraceInv.initial h hR, fun b hb => ?_⟩
  rw [h.live] at hb
  exact (nomatch hb)

/-- The length of a block, as its header tells it. -/
theorem HeapPages.piece_room {L : Layout} {k : Kernel} {rs : List PageRun} (h : HeapPages L k rs)
    {b : Nat} (hb : b ∈ buckets L k.mmu rs) :
    ∃ len, (b, len) ∈ pieces L k.mmu rs ∧
      (k.size b + HEADER_SIZE + PAGE_SIZE - 1 < 2 ^ 64 → HEADER_SIZE + k.size b ≤ len) := by
  obtain ⟨r, hr, len, hlen⟩ := mem_buckets.mp hb
  refine ⟨len, List.mem_flatMap.mpr ⟨r, hr, hlen⟩, fun hsmall => ?_⟩
  have hsized := h.sized r hr
  unfold PageRun.Sized at hsized
  unfold PageRun.pieces at hlen
  cases hc : r.cls with
  | none =>
    rw [hc] at hsized hlen
    obtain ⟨rfl, rfl⟩ := Prod.mk.inj (List.mem_singleton.mp hlen)
    rw [← hsized.2, pageCount, Nat.mod_eq_of_lt hsmall]
    have hdiv := Nat.lt_div_mul_add (a := k.size (r.start L k.mmu) + HEADER_SIZE + PAGE_SIZE - 1)
      (b := PAGE_SIZE) (by decide)
    rw [Nat.mul_comm]
    dsimp only [PAGE_SIZE, HEADER_SIZE] at hdiv ⊢
    omega
  | some c =>
    rw [hc] at hsized hlen
    obtain ⟨j, hj, heq⟩ := List.mem_map.mp hlen
    obtain ⟨rfl, rfl⟩ := Prod.mk.inj heq
    rcases Nat.eq_or_lt_of_le (Nat.le_of_lt_succ (List.mem_range.mp hj)) with rfl | hlt
    · rw [hsized.2, Nat.add_zero]
      have hheader := c.slot_header (le_refl _)
      have hle : HEADER_SIZE ≤ c.slotSize := Nat.le_add_right _ _
      omega
    · rw [hsized.1 j hlt]
      have hin := (c.formats_iff j).mpr hlt
      exact le_min (le_refl _) (by rw [← SizeClass.slotSize]; omega)

section Uses

variable {L : Layout} (hL : L.WellFormed) {s : HeapTrace} {rs : List PageRun}
  {free : SizeClass → List Nat}
include hL

/-- Writing into a block keeps the invariant. -/
theorem UseInv.write (hi : UseInv L s rs free) {p : Nat × Nat} {k' : Kernel}
    (hp : p ∈ pieces L s.heap.kernel.mmu rs) (hw : WritesBlock p s.heap.kernel k') :
    UseInv L { s with heap := { s.heap with kernel := k' } } rs free := by
  have hpages := hi.lists.pages
  have hheader : ∀ b ∈ buckets L s.heap.kernel.mmu rs, k'.header b = s.heap.kernel.header b :=
    fun b hb => hw.header hL hpages.toRunsPlaced hp hb
  have hmmu := hw.mmu
  refine ⟨⟨?_, ?_, ?_⟩, fun b hb => ?_⟩
  · refine @HeapInv.of_headers L s.heap rs _ free [] { s.heap with kernel := k' } rs []
      hi.lists (hpages.write hL hw hp) rfl rfl (fun b hb => hheader b ?_) ?_
    · rcases hb with hb | ⟨c, hb⟩
      · exact hi.lists.mem_used hb
      · exact hi.lists.mem_free hb
    · dsimp only
      rw [hmmu]
      exact hi.lists.all
  · dsimp only
    rw [hmmu]
    exact hi.regions
  · dsimp only
    rw [hmmu]
    exact hi.large
  · dsimp only at hb ⊢
    rw [hmmu, Kernel.size_congr (hheader _ (hi.lists.mem_used (List.mem_map_of_mem hb)))]
    exact hi.room b hb

omit hL in
/-- A request whose number of pages does not wrap around asks for a page at least. -/
theorem requestedPages_pos {h : Heap} {size n : Nat}
    (hsmall : size + HEADER_SIZE + PAGE_SIZE - 1 < 2 ^ 64) (hn : requestedPages h size = some n) :
    1 ≤ n := by
  unfold requestedPages at hn
  split at hn
  · exact (nomatch hn)
  · split at hn
    · split at hn
      · rw [← Option.some.inj hn]
        decide
      · exact (nomatch hn)
    · rw [← Option.some.inj hn, pageCount, Nat.mod_eq_of_lt hsmall]
      apply Nat.div_pos
      · dsimp only [HEADER_SIZE, PAGE_SIZE]
        omega
      · decide

/-- With the MMU off, `alloc_pages` returns `NULL` only where it has done nothing else. -/
theorem allocPages_null {k : Kernel} {count : Nat} (hoff : k.mmu = false)
    (hnull : (allocPages L count k).1 = 0) : allocPages L count k = (0, k.fail) := by
  unfold allocPages at hnull ⊢
  cases hscan : scanEntries k count (scanSteps L count) L.pagesBottom with
  | none => rfl
  | some p =>
    rw [hscan] at hnull
    dsimp only at hnull
    rw [markEntries_mmu, hoff, phys2safe_off, safe2phys_off] at hnull
    exact absurd hnull (pageAddr_ne_zero hL _)

omit hL in
/-- A call of `free_buckets_alloc` for which there are no pages, with the MMU off. -/
theorem freeBucketsAlloc_null {h : Heap} {size n : Nat} (origin : Nat)
    (hreq : requestedPages h size = some n) (hoff : h.kernel.mmu = false)
    (hcall : allocPages L n h.kernel = (0, h.kernel.fail)) :
    freeBucketsAlloc L size origin h =
      (0, { h with kernel := h.kernel.fail, mutating := false }) := by
  have hsafe : phys2safe h.kernel.fail.mmu 0 = 0 := by
    rw [show h.kernel.fail.mmu = false from hoff, phys2safe_off]
  unfold requestedPages at hreq
  split at hreq
  · exact (nomatch hreq)
  · rename_i h0
    rw [freeBucketsAlloc, if_neg h0]
    cases hc : sizeClass size with
    | none =>
      rw [hc] at hreq
      obtain rfl := Option.some.inj hreq
      simp only [takePages, hcall, hsafe, if_true]
    | some c =>
      rw [hc] at hreq
      dsimp only at hreq
      split at hreq
      · rename_i hz
        obtain rfl := Option.some.inj hreq
        simp only [takeBucket, refill, hz, if_true, hcall, hsafe]
      · exact (nomatch hreq)

omit hL in
/-- The allocator lock and the count of failures are no part of the invariant. -/
theorem UseInv.failed (hi : UseInv L s rs free) :
    UseInv L { s with heap := { s.heap with kernel := s.heap.kernel.fail, mutating := false } }
      rs free := by
  obtain ⟨⟨hlists, hregions, hlarge⟩, hroom⟩ := hi
  obtain ⟨⟨hplaced, htaken, hsized⟩, h1, h2, h3, h4, h5⟩ := hlists
  exact ⟨⟨⟨⟨hplaced, htaken, hsized⟩, h1, h2, h3, h4, h5⟩, hregions, hlarge⟩, hroom⟩

omit hL in
theorem sizeClass_le {size : Nat} {c : SizeClass} (hc : sizeClass size = some c) :
    size ≤ c.size := by
  unfold sizeClass at hc
  repeat' split at hc
  all_goals
    cases hc
    try assumption

omit hL in
/-- The slot behind the formatted ones reaches to the end of its region. -/
theorem tail_piece {mmu : Bool} {r : PageRun} (hr : r ∈ rs) {c : SizeClass} (hc : r.cls = some c) :
    (c.slot (r.start L mmu) c.slotCount, REGION_SIZE - c.slotCount * c.slotSize) ∈
      pieces L mmu rs := by
  refine List.mem_flatMap.mpr ⟨r, hr, ?_⟩
  have hlast : ¬ c.slotCount * c.slotSize + c.slotSize < REGION_SIZE :=
    fun h => absurd ((c.formats_iff _).mp h) (lt_irrefl _)
  rw [PageRun.pieces, hc]
  refine List.mem_map.mpr ⟨c.slotCount, List.mem_range.mpr (Nat.lt_succ_self _), ?_⟩
  rw [min_eq_right (by omega)]

/-- The block that serves a request has room for it. -/
theorem Taken.room {t : Kernel} {size b : Nat} {rs' : List PageRun} (hi : TraceInv L s rs free)
    (htail : s.TailFits size) (hsmall : size + HEADER_SIZE + PAGE_SIZE - 1 < 2 ^ 64)
    (ht : HeapPages L t rs') (hb : b ∈ buckets L t.mmu rs') (hkeep : Keeps L rs s.heap.kernel t)
    (hsize : sizeClass size = none → t.size b = size) (hfrom : Taken L s.heap size rs rs' b) :
    ∃ len, (b, len) ∈ pieces L t.mmu rs' ∧ HEADER_SIZE + size ≤ len ∧
      HEADER_SIZE + t.size b ≤ len := by
  obtain ⟨len, hlen, hroom⟩ := ht.piece_room hb
  have hclass : ∀ c, sizeClass size = some c → t.size b = c.size →
      ∃ len, (b, len) ∈ pieces L t.mmu rs' ∧ HEADER_SIZE + size ≤ len ∧
        HEADER_SIZE + t.size b ≤ len := by
    intro c hc hcs
    have hle := sizeClass_le hc
    have hmax := c.size_le
    have hfull := hroom (by rw [hcs, HEADER_SIZE, PAGE_SIZE]; omega)
    exact ⟨len, hlen, by omega, hfull⟩
  rcases hfrom with ⟨_, rfl, c, hc, rfl⟩ | ⟨r, _, rfl, hcls, _, rfl⟩
  · -- the head of a free list
    have hmmu := hkeep.mmu
    rw [hmmu] at hb
    have hne : s.heap.free c ≠ 0 := by
      intro hz
      rw [hz] at hb
      exact absurd rfl (hi.lists.pages.ne_zero hL hb)
    have hsame := hkeep.size _ hb
    rcases hi.lists.fits c _ (hi.lists.head_free hne) with hcs | hcs
    · exact hclass c hc (hsame.trans hcs)
    · obtain ⟨r, hr, ⟨c', _, _, _, _, hcs'⟩ | ⟨c', hcls, hslot, _⟩ | ⟨_, _, hlarge, _⟩⟩ :=
        hi.lists.pages.classify hb
      · rw [hcs] at hcs'
        exact absurd hcs'.symm (Nat.ne_of_gt c'.size_pos)
      · have hregion : (r.start L s.heap.kernel.mmu, c') ∈ s.regions :=
          (hi.regions _).mpr ⟨r, hr, hcls, rfl⟩
        have hheader := c'.slot_header (le_refl _)
        have hpos : 0 < HEADER_SIZE := by decide
        have hend := htail c hc hne hcs _ hregion (by rw [hslot, SizeClass.slot]; omega)
          (by rw [hslot, SizeClass.slot]; omega)
        have htp := @tail_piece L rs' s.heap.kernel.mmu r hr c' hcls
        rw [← hslot] at htp
        rw [hslot, SizeClass.slot] at hend
        refine ⟨_, by rw [hmmu]; exact htp, by omega, ?_⟩
        rw [hsame, hcs, Nat.add_zero]
        omega
      · omega
  · -- pages that were just handed out
    cases hc : sizeClass size with
    | none =>
      have hown := hsize hc
      rw [hown] at hroom
      exact ⟨len, hlen, hroom hsmall, by rw [hown]; exact hroom hsmall⟩
    | some c =>
      refine hclass c hc ?_
      have hsized := ht.sized r List.mem_cons_self
      unfold PageRun.Sized at hsized
      rw [hcls, hc, hkeep.mmu] at hsized
      have hfirst := hsized.1 0 c.slotCount_pos
      rwa [SizeClass.slot_zero] at hfirst

omit hL in
theorem Taken.mono {h : Heap} {size b : Nat} {rs' : List PageRun} (ht : Taken L h size rs rs' b) :
    ∀ r ∈ rs, r ∈ rs' := by
  intro r hr
  rcases ht with ⟨_, rfl, _⟩ | ⟨r', _, rfl, _⟩
  · exact hr
  · exact List.mem_cons_of_mem r' hr

/-- A request for which there are pages gets a block with room for it. -/
theorem UseInv.taken (hi : UseInv L s rs free) {size : Nat} (h0 : size ≠ 0)
    (hsmall : size + HEADER_SIZE + PAGE_SIZE - 1 < 2 ^ 64) (htail : s.TailFits size) (origin : Nat)
    (hcount : ∀ n, requestedPages s.heap size = some n → 1 ≤ n ∧ 2 * n ≤ L.heapBottom)
    (hok : ∀ n, requestedPages s.heap size = some n → (allocPages L n s.heap.kernel).1 ≠ 0) :
    ∃ rs' free' b, (freeBucketsAlloc L size origin s.heap).1 = b + HEADER_SIZE ∧
      UseInv L (s.allocated L size origin) rs' free' ∧
      (s.allocated L size origin).live = ⟨b, size⟩ :: s.live ∧
      Keeps L rs s.heap.kernel (s.allocated L size origin).heap.kernel ∧
      Taken L s.heap size rs rs' b := by
  have hlt : size < 2 ^ 64 := by
    rw [HEADER_SIZE, PAGE_SIZE] at hsmall
    omega
  obtain ⟨rs', free', b, hinv, hp, hlive, hkeep, hsize, hfrom⟩ :=
    hi.toTraceInv.allocated hL h0 hlt origin hcount hok
  have hused : b ∈ (s.allocated L size origin).live.map LiveBlock.bucket := by
    rw [hlive]
    exact List.mem_cons_self
  refine ⟨rs', free', b, hp, ⟨hinv, ?_⟩, hlive, hkeep, hfrom⟩
  rw [hlive]
  intro x hx
  rcases List.mem_cons.mp hx with rfl | hx
  · exact Taken.room hL hi.toTraceInv htail hsmall hinv.lists.pages (hinv.lists.mem_used hused)
      hkeep hsize hfrom
  · obtain ⟨len, hlen, hroom, hroom'⟩ := hi.room x hx
    obtain ⟨r, hr, hpr⟩ := List.mem_flatMap.mp hlen
    refine ⟨len, ?_, hroom, ?_⟩
    · rw [hkeep.mmu]
      exact List.mem_flatMap.mpr ⟨r, hfrom.mono r hr, hpr⟩
    · rw [hkeep.size _ (List.mem_map_of_mem hlen)]
      exact hroom'

/-- **A request that is served as it should be**: either there are no pages for it and nothing
    has changed, or it has got a block with room for it. -/
theorem UseInv.allocated (hi : UseInv L s rs free) {size : Nat} (hs : s.Serves L size)
    (origin : Nat) :
    ((freeBucketsAlloc L size origin s.heap).1 = 0 ∧ UseInv L (s.allocated L size origin) rs free ∧
      (s.allocated L size origin).live = s.live ∧
      Keeps L rs s.heap.kernel (s.allocated L size origin).heap.kernel) ∨
    ∃ rs' free' b, (freeBucketsAlloc L size origin s.heap).1 = b + HEADER_SIZE ∧
      UseInv L (s.allocated L size origin) rs' free' ∧
      (s.allocated L size origin).live = ⟨b, size⟩ :: s.live ∧
      Keeps L rs s.heap.kernel (s.allocated L size origin).heap.kernel ∧ ∀ r ∈ rs, r ∈ rs' := by
  have hsmall := hs.small
  by_cases h0 : size = 0
  · left
    rw [h0, TraceInv.allocated_zero]
    exact ⟨by rw [freeBucketsAlloc, if_pos rfl], hi, rfl, Keeps.refl L rs _⟩
  have hcount : ∀ n, requestedPages s.heap size = some n → 1 ≤ n ∧ 2 * n ≤ L.heapBottom :=
    fun n hn => ⟨requestedPages_pos hsmall hn, (hs.pages n hn).1⟩
  by_cases hnull : ∃ n, requestedPages s.heap size = some n ∧ (allocPages L n s.heap.kernel).1 = 0
  · left
    obtain ⟨n, hn, hnull⟩ := hnull
    obtain ⟨hpos, hN⟩ := hcount n hn
    have hoff : s.heap.kernel.mmu = false := by
      -- with the MMU on there are pages
      by_contra hon
      rw [Bool.not_eq_false] at hon
      obtain ⟨i, hi', hfree⟩ := (hs.pages n hn).2 hon
      rcases allocPages_spec hL hi.lists.pages.reach hpos hN with ⟨hno, _⟩ | ⟨j, hpage, _⟩
      · exact hno i hi' hfree
      · rw [hpage] at hnull
        exact pageAddr_ne_zero hL j hnull
    have hcall := freeBucketsAlloc_null origin hn hoff (allocPages_null hL hoff hnull)
    have hsame : s.allocated L size origin =
        { s with heap := { s.heap with kernel := s.heap.kernel.fail, mutating := false } } := by
      rw [HeapTrace.allocated, hcall]
      exact if_pos rfl
    rw [hcall, hsame]
    exact ⟨rfl, hi.failed, rfl, ⟨rfl, fun _ _ => rfl, fun _ _ _ _ _ => rfl⟩⟩
  · right
    obtain ⟨rs', free', b, hp, hinv, hlive, hkeep, hfrom⟩ := hi.taken hL h0 hsmall hs.tail origin
      hcount fun n hn hz => hnull ⟨n, hn, hz⟩
    exact ⟨rs', free', b, hp, hinv, hlive, hkeep, hfrom.mono⟩

/-- Freeing a block in use. -/
theorem UseInv.freed (hi : UseInv L s rs free) {b : LiveBlock} (hb : b ∈ s.live) :
    ∃ rs' free', UseInv L (s.freed L (b.bucket + HEADER_SIZE)) rs' free' ∧
      ∀ x ∈ s.live, x.bucket ≠ b.bucket → SameBytes s.heap.kernel
        (s.freed L (b.bucket + HEADER_SIZE)).heap.kernel x.range.1 x.range.1 x.size := by
  obtain ⟨rs', free', hinv, hkeep, hgone⟩ := hi.toTraceInv.freed hL hb
  have hother : ∀ x ∈ s.live, x.bucket ≠ b.bucket → ∀ len,
      (x.bucket, len) ∈ pieces L s.heap.kernel.mmu rs →
      (x.bucket, len) ∈ pieces L s.heap.kernel.mmu rs' := by
    intro x _ hne len hlen
    rcases hgone with rfl | ⟨r, hr, hcls, hstart, rfl⟩
    · exact hlen
    · obtain ⟨r', hr', hpr⟩ := List.mem_flatMap.mp hlen
      refine List.mem_flatMap.mpr ⟨r', (List.mem_erase_of_ne ?_).mpr hr', hpr⟩
      rintro rfl
      -- the pages of a large block hold no other block
      unfold PageRun.pieces at hpr
      rw [hcls] at hpr
      exact hne ((Prod.mk.inj (List.mem_singleton.mp hpr)).1.trans hstart.symm)
  refine ⟨rs', free', ⟨hinv, fun x hx => ?_⟩, fun x hx hne => ?_⟩
  · rw [HeapTrace.freed] at hx
    obtain ⟨hx, hne⟩ := List.mem_filter.mp hx
    obtain ⟨len, hlen, hroom, hroom'⟩ := hi.room x hx
    have hlen' := hother x hx (fun heq => of_decide_eq_true hne (by rw [heq])) len hlen
    refine ⟨len, ?_, hroom, ?_⟩
    · rw [hkeep.mmu]
      exact hlen'
    · rw [hkeep.size _ (List.mem_map_of_mem hlen')]
      exact hroom'
  · obtain ⟨len, hlen, hroom, _⟩ := hi.room x hx
    have hplaced := hinv.lists.pages.toRunsPlaced
    rw [hkeep.mmu] at hplaced
    exact hkeep.sameBytes hL hplaced (hother x hx hne len hlen) hroom

/-- A block ends below the end of the address space. -/
theorem RunsPlaced.piece_end {mmu : Bool} (h : RunsPlaced L mmu rs) {p : Nat × Nat}
    (hp : p ∈ pieces L mmu rs) : p.1 + p.2 < 2 ^ 64 := by
  obtain ⟨_, hb, hend, _⟩ := hL.bounds
  obtain ⟨r, hr, hpr⟩ := List.mem_flatMap.mp hp
  have hplaced := h.placed r hr
  have hbound := hplaced.bound
  have hin := (PageRun.pieces_inside hplaced p hpr).2.1
  have hsum := KERNEL_SPACE_OFFSET_add
  rw [PageRun.start_eq h.reach hplaced, pageAddr_eq, PAGE_SIZE] at hin
  split at hin
  · have hreach := h.reach ‹_›
    rw [Layout.heapEnd, pageAddr_eq] at hreach
    omega
  · omega

/-- Copying what the header of one block says into another one that has room for it. -/
theorem UseInv.copied (hi : UseInv L s rs free) {b b' : LiveBlock} (hb : b ∈ s.live)
    (hb' : b' ∈ s.live) (hne : b.bucket ≠ b'.bucket)
    (hfit : s.heap.kernel.size b.bucket ≤ b'.size) {k' : Kernel}
    (hk' : k' = memcpy b'.range.1 b.range.1 (s.heap.kernel.size b.bucket) s.heap.kernel) :
    (∃ len, (b'.bucket, len) ∈ pieces L s.heap.kernel.mmu rs ∧
      WritesBlock (b'.bucket, len) s.heap.kernel k') ∧
    SameBytes s.heap.kernel k' b.range.1 b'.range.1 (s.heap.kernel.size b.bucket) := by
  obtain ⟨len, hlen, _, hroom⟩ := hi.room b hb
  obtain ⟨len', hlen', hroom', _⟩ := hi.room b' hb'
  have hplaced := hi.lists.pages.toRunsPlaced
  have hdir := (hplaced.headersApart hL).direct
  have hd := hdir _ (List.mem_map_of_mem hlen')
  have hs := hdir _ (List.mem_map_of_mem hlen)
  have hphys := hd.physOf_add HEADER_SIZE
  have hphys' := hs.physOf_add HEADER_SIZE
  have hapart := hd.apart hs (hplaced.pieces_forall hlen' hlen fun hcon =>
    hne (Prod.mk.inj hcon).1.symm)
  have hend := hplaced.piece_end hL hlen'
  dsimp only at hd hs hphys hphys' hapart hend
  have hdest : Direct s.heap.kernel.mmu b'.range.1 := hd.add HEADER_SIZE
  have hsrc : Direct s.heap.kernel.mmu b.range.1 := hs.add HEADER_SIZE
  obtain ⟨hsatp, hcopy, hframe⟩ := memcpy_spec (n := s.heap.kernel.size b.bucket) hdest hsrc
    (by dsimp only [LiveBlock.range]; omega) (by dsimp only [LiveBlock.range]; omega)
  rw [← hk'] at hsatp hcopy hframe
  have hw : WritesBlock (b'.bucket, len') s.heap.kernel k' := by
    refine ⟨hsatp, fun x hx => hframe x ?_⟩
    dsimp only [LiveBlock.range] at hx ⊢
    omega
  refine ⟨⟨len', hlen', hw⟩, fun i hi => ?_⟩
  rw [Kernel.byte, Kernel.byte, hw.mmu, hdest.physOf_add, hsrc.physOf_add]
  exact hcopy i hi

omit hL in
theorem step_realloc_null_result {p newSize : Nat} (hp : p ≠ 0)
    (h : s.heap.kernel.size (p - HEADER_SIZE) < newSize) {origin : Nat}
    (hnull : (freeBucketsAlloc L newSize origin s.heap).1 = 0) :
    s.step memcpy L (.realloc p newSize origin) = s.allocated L newSize origin ∧
      (realloc L p newSize origin s.heap).1 = 0 := by
  rw [HeapTrace.step, if_neg hp, if_neg (Nat.not_le.mpr h), if_pos hnull, HeapTrace.allocated,
    realloc, reallocWith, if_neg hp]
  dsimp only
  rw [if_neg (Nat.not_le.mpr h), if_pos hnull, if_pos hnull]
  exact ⟨rfl, rfl⟩

omit hL in
theorem realloc_moved {p newSize : Nat} (hp : p ≠ 0)
    (h : s.heap.kernel.size (p - HEADER_SIZE) < newSize) {origin : Nat}
    (hnew : (freeBucketsAlloc L newSize origin s.heap).1 ≠ 0) :
    (realloc L p newSize origin s.heap).1 = (freeBucketsAlloc L newSize origin s.heap).1 := by
  rw [realloc, reallocWith, if_neg hp]
  dsimp only
  rw [if_neg (Nat.not_le.mpr h), if_neg hnew]

omit hL in
theorem UseInv.resized (hi : UseInv L s rs free) {p newSize : Nat}
    (h : newSize ≤ s.heap.kernel.size (p - HEADER_SIZE)) :
    UseInv L (s.resized p newSize) rs free := by
  refine ⟨hi.toTraceInv.resized p newSize, fun x hx => ?_⟩
  obtain ⟨b, hb, rfl⟩ := List.mem_map.mp hx
  obtain ⟨len, hlen, hroom, hroom'⟩ := hi.room b hb
  by_cases hp : b.bucket + HEADER_SIZE = p
  · simp only [if_pos hp]
    rw [← hp, Nat.add_sub_cancel] at h
    exact ⟨len, hlen, by omega, hroom'⟩
  · simp only [if_neg hp]
    exact ⟨len, hlen, hroom, hroom'⟩

omit hL in
theorem UseInv.bucket_inj (hi : UseInv L s rs free) {b b' : LiveBlock} (hb : b ∈ s.live)
    (hb' : b' ∈ s.live) (heq : b.bucket = b'.bucket) : b = b' :=
  List.inj_on_of_nodup_map hi.lists.usedChain.nodup hb hb' heq

/-- The state in which `realloc` frees the old block: the bytes that its header counts are
    copied. -/
theorem UseInv.moved (hi : UseInv L s rs free) {b : LiveBlock} (hb : b ∈ s.live)
    {newSize origin : Nat} (hs : s.Serves L newSize)
    (hmove : s.heap.kernel.size b.bucket < newSize)
    (hnew : (freeBucketsAlloc L newSize origin s.heap).1 ≠ 0) :
    ∃ rs' free' b', (freeBucketsAlloc L newSize origin s.heap).1 = b' + HEADER_SIZE ∧
      UseInv L (s.moved memcpy L b.range.1 newSize origin) rs' free' ∧
      (s.moved memcpy L b.range.1 newSize origin).live = ⟨b', newSize⟩ :: s.live ∧
      SameBytes s.heap.kernel (s.moved memcpy L b.range.1 newSize origin).heap.kernel
        b.range.1 (b' + HEADER_SIZE) (s.heap.kernel.size b.bucket) ∧
      ∀ x ∈ s.live, SameBytes s.heap.kernel
        (s.moved memcpy L b.range.1 newSize origin).heap.kernel x.range.1 x.range.1 x.size := by
  rcases hi.allocated hL hs origin with ⟨hnull, _⟩ | ⟨rs1, free1, b', hnew', hinv, hlive, hkeep, hsub⟩
  · exact absurd hnull hnew
  obtain ⟨t, ht⟩ : ∃ t, t = s.allocated L newSize origin := ⟨_, rfl⟩
  have hmoved : s.moved memcpy L b.range.1 newSize origin = { t with heap := { t.heap with
      kernel := memcpy (b' + HEADER_SIZE) b.range.1 (t.heap.kernel.size b.bucket) t.heap.kernel } } := by
    rw [HeapTrace.moved, hnew', LiveBlock.range, Nat.add_sub_cancel, ← ht]
  rw [hmoved]
  rw [← ht] at hinv hlive hkeep
  have hplaced := hi.lists.pages.toRunsPlaced
  have hsize : t.heap.kernel.size b.bucket = s.heap.kernel.size b.bucket :=
    hkeep.size _ (hi.lists.mem_used (List.mem_map_of_mem hb))
  have hold : ∀ x ∈ s.live, x ∈ t.live := by
    intro x hx
    rw [hlive]
    exact List.mem_cons_of_mem _ hx
  have hnodup := hinv.lists.usedChain.nodup
  rw [hlive, List.map_cons, List.nodup_cons] at hnodup
  have hne : ∀ x ∈ s.live, x.bucket ≠ b' := fun x hx heq =>
    hnodup.1 (List.mem_map.mpr ⟨x, hx, heq⟩)
  generalize hk : memcpy (b' + HEADER_SIZE) b.range.1 (t.heap.kernel.size b.bucket) t.heap.kernel = k'
  obtain ⟨⟨len', hlen', hw⟩, hcopy⟩ := hinv.copied hL (hold b hb)
    (show (⟨b', newSize⟩ : LiveBlock) ∈ t.live by rw [hlive]; exact List.mem_cons_self)
    (hne b hb) (by rw [hsize]; exact hmove.le) hk.symm
  rw [hsize] at hcopy
  refine ⟨rs1, free1, b', hnew', hinv.write hL hlen' hw, hlive, ?_, fun x hx => ?_⟩
  · obtain ⟨len, hlen, _, hroom⟩ := hi.room b hb
    exact (hkeep.sameBytes hL hplaced hlen hroom).trans hcopy
  · obtain ⟨len, hlen, hroom, _⟩ := hi.room x hx
    obtain ⟨len1, hlen1, hroom1, _⟩ := hinv.room x (hold x hx)
    exact (hkeep.sameBytes hL hplaced hlen hroom).trans
      (hw.sameBytes hL hinv.lists.pages.toRunsPlaced hlen' hlen1 (hne x hx) hroom1)

/-- **A block that `realloc` moves**, all in all. -/
theorem UseInv.reallocated (hi : UseInv L s rs free) {b : LiveBlock} (hb : b ∈ s.live)
    {newSize origin : Nat} (hs : s.Serves L newSize)
    (hmove : s.heap.kernel.size b.bucket < newSize)
    (hnew : (freeBucketsAlloc L newSize origin s.heap).1 ≠ 0) :
    let t := s.step memcpy L (.realloc b.range.1 newSize origin)
    ∃ rs' free', UseInv L t rs' free' ∧
      SameBytes s.heap.kernel t.heap.kernel b.range.1 (freeBucketsAlloc L newSize origin s.heap).1
        (s.heap.kernel.size b.bucket) ∧
      ∀ x ∈ s.live, x.bucket ≠ b.bucket →
        SameBytes s.heap.kernel t.heap.kernel x.range.1 x.range.1 x.size := by
  have hp : b.range.1 ≠ 0 := Nat.ne_of_gt (Nat.add_pos_right _ (by decide))
  have hstep := @step_realloc_move memcpy L s b.range.1 newSize hp
    (by rw [LiveBlock.range, Nat.add_sub_cancel]; exact hmove) origin hnew
  dsimp only
  rw [hstep]
  obtain ⟨rs1, free1, b', hnew', hinv, hlive, hcopy, hsame⟩ := hi.moved hL hb hs hmove hnew
  have hb' : (⟨b', newSize⟩ : LiveBlock) ∈ (s.moved memcpy L b.range.1 newSize origin).live := by
    rw [hlive]
    exact List.mem_cons_self
  have hold : ∀ x ∈ s.live, x ∈ (s.moved memcpy L b.range.1 newSize origin).live := by
    intro x hx
    rw [hlive]
    exact List.mem_cons_of_mem _ hx
  obtain ⟨rs2, free2, hinv2, hsame2⟩ := hinv.freed hL (hold b hb)
  have hne : b' ≠ b.bucket := by
    have hnodup := hinv.lists.usedChain.nodup
    rw [hlive, List.map_cons, List.nodup_cons] at hnodup
    exact fun heq => hnodup.1 (List.mem_map.mpr ⟨b, hb, heq.symm⟩)
  refine ⟨rs2, free2, hinv2, ?_, fun x hx hxb => (hsame x hx).trans (hsame2 x (hold x hx) hxb)⟩
  rw [hnew']
  refine hcopy.trans fun i hi => hsame2 _ hb' hne i ?_
  exact hi.trans hmove

/-- **One call** keeps the invariant. -/
theorem UseInv.step (hi : UseInv L s rs free) {op : HeapOp} (ha : s.Allowed op)
    (hs : ∀ size, s.asked op = some size → s.Serves L size) :
    ∃ rs' free', UseInv L (s.step memcpy L op) rs' free' := by
  have halloc : ∀ {size}, s.Serves L size → ∀ origin,
      ∃ rs' free', UseInv L (s.allocated L size origin) rs' free' := by
    intro size hs origin
    rcases hi.allocated hL hs origin with ⟨_, hinv, _⟩ | ⟨rs', free', _, _, hinv, _⟩
    · exact ⟨rs, free, hinv⟩
    · exact ⟨rs', free', hinv⟩
  cases op with
  | malloc size origin =>
    rw [step_malloc]
    exact halloc (hs size rfl) origin
  | free p =>
    by_cases hp : p = 0
    · rw [HeapTrace.step, hp, TraceInv.freed_null]
      exact ⟨rs, free, hi⟩
    · obtain ⟨b, hb, rfl⟩ := HeapTrace.MayFree.live ha.pointer hp
      obtain ⟨rs', free', hinv, _⟩ := hi.freed hL hb
      exact ⟨rs', free', hinv⟩
  | realloc p newSize origin =>
    by_cases hp : p = 0
    · subst hp
      rw [step_realloc_null]
      exact halloc (hs newSize (by rw [HeapTrace.asked, if_pos (Or.inl rfl)])) origin
    · by_cases hkeep : newSize ≤ s.heap.kernel.size (p - HEADER_SIZE)
      · rw [step_realloc_keep hp hkeep]
        exact ⟨rs, free, hi.resized hkeep⟩
      · have hmove := Nat.not_le.mp hkeep
        have hserves := hs newSize (by rw [HeapTrace.asked, if_pos (Or.inr hmove)])
        by_cases hnew : (freeBucketsAlloc L newSize origin s.heap).1 = 0
        · rw [(step_realloc_null_result hp hmove hnew).1]
          exact halloc hserves origin
        · obtain ⟨b, hb, rfl⟩ := HeapTrace.MayFree.live ha.pointer hp
          rw [Nat.add_sub_cancel] at hmove
          obtain ⟨rs', free', hinv, _⟩ := hi.reallocated hL hb hserves hmove hnew
          exact ⟨rs', free', hinv⟩

/-- **One use** keeps the invariant. -/
theorem UseInv.use (hi : UseInv L s rs free) {u : HeapUse} (hu : s.MayUse u) (hs : s.Served L u) :
    ∃ rs' free', UseInv L (s.use L u) rs' free' := by
  cases u with
  | call op => exact hi.step hL hu hs
  | write p v =>
    obtain ⟨b, hb, h1, h2⟩ := hu
    obtain ⟨len, hlen, hroom, _⟩ := hi.room b hb
    have hdir := (hi.lists.pages.headersApart hL).direct _ (List.mem_map_of_mem hlen)
    dsimp only [LiveBlock.range] at h1 h2 hdir
    have hphys := hdir.physOf_of_le (Nat.le_of_add_right_le h1)
    refine ⟨rs, free, hi.write hL hlen ⟨rfl, fun x hx => ?_⟩⟩
    dsimp only at hx
    have hout : x < physOf s.heap.kernel.mmu p ∨ physOf s.heap.kernel.mmu p + 1 ≤ x := by omega
    rw [Kernel.store]
    dsimp only [ByteMemory.store]
    exact patch_outside _ _ hout

end Uses

/-- **Every run of uses** whose requests are served as they should be keeps the invariant. -/
theorem useInv_of_run {L : Layout} (hL : L.WellFormed) {s0 s : HeapTrace} {us : List HeapUse}
    (h0 : s0.Initial) (hR : L.Reachable s0.heap.kernel.mmu)
    (hrun : Run (guarded (HeapTrace.Served L) (HeapUses L)) s0 us s) :
    ∃ rs free, UseInv L s rs free := by
  refine @Run.invariant _ _ _ (fun s => ∃ rs free, UseInv L s rs free) ?_ _ _ _ hrun
    ⟨[], _, .initial h0 hR⟩
  rintro s u t ⟨rs, free, hi⟩ ⟨hs, hu, rfl⟩
  exact hi.use hL hu hs

/-! ## 4. Blocks are separate -/

/-- A heap from which 65536 bytes have been taken `n` times. -/
def HeapTrace.taken (n : Nat) : HeapTrace := (HeapTrace.allocated .board 65536 0)^[n] .blank

end IloPali
