import IloPali.Heap
import Mathlib.Data.List.Flatten
import Mathlib.Data.List.Pairwise

/-!
# The pages of the heap

The heap takes pages in runs: a region of 65 pages that it divides into slots, or the pages
of one large block.  This module says where the blocks of such runs lie, that no two of
them overlap, and what the headers of a run say about its blocks.
-/

namespace IloPali

open ByteMemory LinkedList

/-! ## 1. The pages of the heap -/

/-- Pages that the heap has taken: a region of slots, or the pages of a large block. -/
structure PageRun where
  page : Nat
  count : Nat
  cls : Option SizeClass
deriving DecidableEq

namespace PageRun

/-- Where the kernel sees the first page. -/
def start (L : Layout) (mmu : Bool) (r : PageRun) : Nat := phys2safe mmu (L.pageAddr r.page)

structure Placed (L : Layout) (r : PageRun) : Prop where
  bound : r.page + r.count < L.entryCount
  pos : 1 ≤ r.count
  region : ∀ c, r.cls = some c → r.count = FALLBACK_PAGE_COUNT

/-- Runs without a page in common. -/
def Apart (r r' : PageRun) : Prop :=
  r.page + r.count ≤ r'.page ∨ r'.page + r'.count ≤ r.page

end PageRun

/-- The slots of a region, each with its length; the last one ends with the region. -/
def SizeClass.pieces (c : SizeClass) (data : Nat) : List (Nat × Nat) :=
  (List.range (c.slotCount + 1)).map fun j =>
    (c.slot data j, min c.slotSize (REGION_SIZE - j * c.slotSize))

/-- The blocks in a run of pages, each with its length. -/
def PageRun.pieces (L : Layout) (mmu : Bool) (r : PageRun) : List (Nat × Nat) :=
  match r.cls with
  | some c => c.pieces (r.start L mmu)
  | none => [(r.start L mmu, PAGE_SIZE * r.count)]

/-- The blocks of the heap, each with its length. -/
def pieces (L : Layout) (mmu : Bool) (rs : List PageRun) : List (Nat × Nat) :=
  rs.flatMap (PageRun.pieces L mmu)

/-- The blocks of the heap. -/
def buckets (L : Layout) (mmu : Bool) (rs : List PageRun) : List Nat :=
  (pieces L mmu rs).map Prod.fst

/-- Two ranges, each given by its start and its length, do not overlap. -/
def RangesApart (p q : Nat × Nat) : Prop := p.1 + p.2 ≤ q.1 ∨ q.1 + q.2 ≤ p.1

instance : Std.Symm RangesApart := ⟨fun _ _ => Or.symm⟩

/-- The kernel's view of memory is shifted, or not. -/
theorem phys2safe_eq {mmu : Bool} {p : Nat} (hon : mmu = true → p < DIRECT_MAP_SIZE) :
    phys2safe mmu p = (if mmu = true then KERNEL_SPACE_OFFSET else 0) + p := by
  cases mmu with
  | false => simp
  | true => exact phys2safe_on (hon rfl)

section Runs

variable {L : Layout} {mmu : Bool} (hR : L.Reachable mmu)
include hR

theorem PageRun.start_eq {r : PageRun} (hr : r.Placed L) :
    r.start L mmu = (if mmu = true then KERNEL_SPACE_OFFSET else 0) + L.pageAddr r.page := by
  have hbound := hr.bound
  exact phys2safe_eq (hR.pageAddr (by omega))

theorem PageRun.start_apart {r r' : PageRun} (hr : r.Placed L) (hr' : r'.Placed L)
    (h : r.Apart r') : RangesApart (r.start L mmu, PAGE_SIZE * r.count)
      (r'.start L mmu, PAGE_SIZE * r'.count) := by
  unfold PageRun.Apart at h
  dsimp only [RangesApart]
  rw [PageRun.start_eq hR hr, PageRun.start_eq hR hr', pageAddr_eq, pageAddr_eq, PAGE_SIZE]
  omega

theorem PageRun.start_spec (hL : L.WellFormed) {r : PageRun} (hr : r.Placed L) :
    Direct mmu (r.start L mmu) ∧ 0 < r.start L mmu ∧
      r.start L mmu + PAGE_SIZE * r.count ≤ 2 ^ 64 ∧
      physOf mmu (r.start L mmu) = L.pageAddr r.page := by
  obtain ⟨hpos, hb, hend, _⟩ := hL.bounds
  have hbound := hr.bound
  have hsum := KERNEL_SPACE_OFFSET_add
  have hphys := @physOf_phys2safe_add mmu (L.pageAddr r.page) (hR.pageAddr (by omega)) 0
  refine ⟨fun hon => ?_, ?_, ?_, hphys⟩
  · rw [PageRun.start_eq hR hr, if_pos hon]
    exact Nat.le_add_right _ _
  · rw [PageRun.start_eq hR hr, pageAddr_eq]
    omega
  · rw [PageRun.start_eq hR hr, pageAddr_eq, PAGE_SIZE]
    split
    · have hreach := hR ‹_›
      rw [Layout.heapEnd, pageAddr_eq] at hreach
      omega
    · omega

end Runs

theorem SizeClass.pieces_inside {c : SizeClass} {data : Nat} :
    ∀ p ∈ c.pieces data, data ≤ p.1 ∧ p.1 + p.2 ≤ data + REGION_SIZE ∧ HEADER_SIZE ≤ p.2 := by
  intro p hp
  obtain ⟨j, hj, rfl⟩ := List.mem_map.mp hp
  have hheader := c.slot_header (Nat.le_of_lt_succ (List.mem_range.mp hj))
  have hle : HEADER_SIZE ≤ c.slotSize := Nat.le_add_right _ _
  simp only [SizeClass.slot]
  omega

theorem SizeClass.pieces_apart (c : SizeClass) (data : Nat) :
    (c.pieces data).Pairwise RangesApart := by
  apply List.Pairwise.map
  · intro i j (hij : i < j)
    have hle := @block_apart c.slotSize i j hij
    left
    simp only [SizeClass.slot]
    omega
  · exact List.pairwise_lt_range

theorem PageRun.pieces_inside {L : Layout} {mmu : Bool} {r : PageRun} (hr : r.Placed L) :
    ∀ p ∈ r.pieces L mmu, r.start L mmu ≤ p.1 ∧
      p.1 + p.2 ≤ r.start L mmu + PAGE_SIZE * r.count ∧ HEADER_SIZE ≤ p.2 := by
  intro p hp
  unfold PageRun.pieces at hp
  cases hcls : r.cls with
  | none =>
    rw [hcls] at hp
    obtain rfl := List.mem_singleton.mp hp
    have hpos := hr.pos
    refine ⟨le_refl _, le_refl _, ?_⟩
    dsimp only [HEADER_SIZE, PAGE_SIZE]
    omega
  | some c =>
    rw [hcls] at hp
    have hin := SizeClass.pieces_inside p hp
    rw [hr.region c hcls]
    exact hin

theorem PageRun.pieces_apart (L : Layout) (mmu : Bool) (r : PageRun) :
    (r.pieces L mmu).Pairwise RangesApart := by
  unfold PageRun.pieces
  split
  · exact SizeClass.pieces_apart _ _
  · exact List.pairwise_singleton _ _

theorem RangesApart.mono {p q p' q' : Nat × Nat} (h : RangesApart p' q') (hp : p'.1 ≤ p.1)
    (hp' : p.1 + p.2 ≤ p'.1 + p'.2) (hq : q'.1 ≤ q.1) (hq' : q.1 + q.2 ≤ q'.1 + q'.2) :
    RangesApart p q := by
  unfold RangesApart at h ⊢
  omega

/-- No two blocks of the heap overlap. -/
theorem pieces_apart {L : Layout} {mmu : Bool} (hR : L.Reachable mmu)
    {rs : List PageRun} (hplaced : ∀ r ∈ rs, r.Placed L) (hapart : rs.Pairwise PageRun.Apart) :
    (pieces L mmu rs).Pairwise RangesApart := by
  apply List.pairwise_flatMap.mpr
  constructor
  · exact fun r _ => r.pieces_apart L mmu
  · refine hapart.imp_of_mem fun {r r'} hr hr' hrr p hp q hq => ?_
    have hstart := PageRun.start_apart hR (hplaced r hr) (hplaced r' hr') hrr
    obtain ⟨h1, h2, _⟩ := PageRun.pieces_inside (hplaced r hr) p hp
    obtain ⟨h3, h4, _⟩ := PageRun.pieces_inside (hplaced r' hr') q hq
    exact hstart.mono h1 h2 h3 h4

/-! ## 2. What the headers say -/

/-- The sizes in the headers of a run: that of the class for a formatted slot, none for the
    slot after them, and for a large block the one it was taken for. -/
def PageRun.Sized (L : Layout) (k : Kernel) (r : PageRun) : Prop :=
  match r.cls with
  | some c => (∀ j, j < c.slotCount → k.size (c.slot (r.start L k.mmu) j) = c.size) ∧
      k.size (c.slot (r.start L k.mmu) c.slotCount) = 0
  | none => 65536 < k.size (r.start L k.mmu) ∧ pageCount (k.size (r.start L k.mmu)) = r.count

/-- The runs are in reach of the kernel, and none has a page in common with another. -/
structure RunsPlaced (L : Layout) (mmu : Bool) (rs : List PageRun) : Prop where
  reach : L.Reachable mmu
  placed : ∀ r ∈ rs, r.Placed L
  apart : rs.Pairwise PageRun.Apart

/-- The heap holds its pages, and their headers have their sizes. -/
structure HeapPages (L : Layout) (k : Kernel) (rs : List PageRun) : Prop
    extends RunsPlaced L k.mmu rs where
  taken : ∀ r ∈ rs, ∀ i, r.page ≤ i → i < r.page + r.count → rc L k i ≠ 0
  sized : ∀ r ∈ rs, r.Sized L k

/-- From `k` to `k'` the sizes in the headers and the bytes behind the headers stay. -/
structure Keeps (L : Layout) (rs : List PageRun) (k k' : Kernel) : Prop where
  mmu : k'.mmu = k.mmu
  size : ∀ b ∈ buckets L k.mmu rs, k'.size b = k.size b
  payload : ∀ p ∈ pieces L k.mmu rs, ∀ x, physOf k.mmu p.1 + HEADER_SIZE ≤ x →
    x < physOf k.mmu p.1 + p.2 → k'.mem x = k.mem x

theorem Keeps.refl (L : Layout) (rs : List PageRun) (k : Kernel) : Keeps L rs k k :=
  ⟨rfl, fun _ _ => rfl, fun _ _ _ _ _ => rfl⟩

theorem Keeps.mono {L : Layout} {rs rs' : List PageRun} {k k' : Kernel} (h : Keeps L rs k k')
    (hsub : ∀ r ∈ rs', r ∈ rs) : Keeps L rs' k k' := by
  have hpieces : ∀ p ∈ pieces L k.mmu rs', p ∈ pieces L k.mmu rs := by
    intro p hp
    obtain ⟨r, hr, hpr⟩ := List.mem_flatMap.mp hp
    exact List.mem_flatMap.mpr ⟨r, hsub r hr, hpr⟩
  refine ⟨h.mmu, fun b hb => h.size b ?_, fun p hp => h.payload p (hpieces p hp)⟩
  obtain ⟨p, hp, rfl⟩ := List.mem_map.mp hb
  exact List.mem_map_of_mem (hpieces p hp)

theorem Keeps.trans {L : Layout} {rs : List PageRun} {k k1 k2 : Kernel} (h1 : Keeps L rs k k1)
    (h2 : Keeps L rs k1 k2) : Keeps L rs k k2 := by
  obtain ⟨hmmu, hsize, hpayload⟩ := h2
  rw [h1.mmu] at hsize hpayload
  exact ⟨hmmu.trans h1.mmu, fun b hb => (hsize b hb).trans (h1.size b hb),
    fun p hp x h h' => (hpayload p hp x h h').trans (h1.payload p hp x h h')⟩

theorem mem_buckets {L : Layout} {mmu : Bool} {rs : List PageRun} {b : Nat} :
    b ∈ buckets L mmu rs ↔ ∃ r ∈ rs, ∃ len, (b, len) ∈ r.pieces L mmu := by
  simp [buckets, pieces]
  tauto

namespace RunsPlaced

variable {L : Layout} {mmu : Bool} {rs : List PageRun} (hL : L.WellFormed)

theorem pieces_forall (h : RunsPlaced L mmu rs) {p q : Nat × Nat} (hp : p ∈ pieces L mmu rs)
    (hq : q ∈ pieces L mmu rs) (hne : p ≠ q) : RangesApart p q :=
  (pieces_apart h.reach h.placed h.apart).forall hp hq hne

theorem piece_pos (h : RunsPlaced L mmu rs) {p : Nat × Nat} (hp : p ∈ pieces L mmu rs) :
    HEADER_SIZE ≤ p.2 := by
  obtain ⟨r, hr, hpr⟩ := List.mem_flatMap.mp hp
  exact (PageRun.pieces_inside (h.placed r hr) p hpr).2.2

/-- A bucket begins one block only. -/
theorem piece_unique (h : RunsPlaced L mmu rs) {b n m : Nat} (hn : (b, n) ∈ pieces L mmu rs)
    (hm : (b, m) ∈ pieces L mmu rs) : n = m := by
  by_contra hne
  have hapart := h.pieces_forall hn hm fun hcon => hne (Prod.mk.inj hcon).2
  have hpos := h.piece_pos hn
  have hpos' := h.piece_pos hm
  simp only [RangesApart, HEADER_SIZE] at hapart hpos hpos'
  omega

theorem buckets_nodup (h : RunsPlaced L mmu rs) : (buckets L mmu rs).Nodup := by
  apply List.pairwise_map.mpr
  refine (pieces_apart h.reach h.placed h.apart).imp_of_mem fun {p q} hp hq hapart heq => ?_
  have hpos := h.piece_pos hp
  have hpos' := h.piece_pos hq
  simp only [RangesApart, HEADER_SIZE] at hapart hpos hpos'
  omega

include hL in
theorem headersApart (h : RunsPlaced L mmu rs) : HeadersApart mmu (buckets L mmu rs) := by
  have hinside : ∀ b ∈ buckets L mmu rs, ∃ r ∈ rs, r.start L mmu ≤ b ∧
      b + HEADER_SIZE ≤ r.start L mmu + PAGE_SIZE * r.count := by
    intro b hb
    obtain ⟨r, hr, len, hlen⟩ := mem_buckets.mp hb
    obtain ⟨h1, h2, h3⟩ := PageRun.pieces_inside (h.placed r hr) _ hlen
    exact ⟨r, hr, h1, by omega⟩
  refine ⟨fun b hb hon => ?_, fun b hb => ?_, fun b hb b' hb' hne => ?_⟩
  · obtain ⟨r, hr, h1, _⟩ := hinside b hb
    exact le_trans ((PageRun.start_spec h.reach hL (h.placed r hr)).1 hon) h1
  · obtain ⟨r, hr, _, h2⟩ := hinside b hb
    have hend := (PageRun.start_spec h.reach hL (h.placed r hr)).2.2.1
    have hpos : 0 < HEADER_SIZE := by decide
    omega
  · obtain ⟨p, hp, rfl⟩ := List.mem_map.mp hb
    obtain ⟨q, hq, rfl⟩ := List.mem_map.mp hb'
    have hapart := h.pieces_forall hp hq fun hcon => hne (congrArg Prod.fst hcon)
    have hpos := h.piece_pos hp
    have hpos' := h.piece_pos hq
    unfold RangesApart at hapart
    omega

include hL in
theorem ne_zero (h : RunsPlaced L mmu rs) {b : Nat} (hb : b ∈ buckets L mmu rs) : b ≠ 0 := by
  obtain ⟨r, hr, len, hlen⟩ := mem_buckets.mp hb
  have hpos := (PageRun.start_spec h.reach hL (h.placed r hr)).2.1
  have hle := (PageRun.pieces_inside (h.placed r hr) _ hlen).1
  exact Nat.ne_of_gt (Nat.lt_of_lt_of_le hpos hle)

include hL in
/-- A block lies in its pages. -/
theorem piece_phys (h : RunsPlaced L mmu rs) {r : PageRun} (hr : r ∈ rs) {b len : Nat}
    (hb : (b, len) ∈ r.pieces L mmu) : L.pageAddr r.page ≤ physOf mmu b ∧
      physOf mmu b + len ≤ L.pageAddr (r.page + r.count) := by
  obtain ⟨hdir, _, _, hphys⟩ := PageRun.start_spec h.reach hL (h.placed r hr)
  obtain ⟨h1, h2, _⟩ := PageRun.pieces_inside (h.placed r hr) _ hb
  rw [hdir.physOf_of_le h1, hphys, pageAddr_eq, pageAddr_eq]
  dsimp only [PAGE_SIZE] at h1 h2
  omega

include hL in
/-- Writing headers does not touch the bytes behind them. -/
theorem payload_rewrites {k k' : Kernel} {f : Nat → Header} (h : RunsPlaced L k.mmu rs)
    (hw : Rewrites (buckets L k.mmu rs) k k' f) {p : Nat × Nat} (hp : p ∈ pieces L k.mmu rs)
    {x : Nat} (h1 : physOf k.mmu p.1 + HEADER_SIZE ≤ x) (h2 : x < physOf k.mmu p.1 + p.2) :
    k'.mem x = k.mem x := by
  have hdir := (h.headersApart hL).direct
  apply hw.frame
  intro b hb
  obtain ⟨q, hq, rfl⟩ := List.mem_map.mp hb
  by_cases heq : p = q
  · right
    rwa [← heq]
  · -- the header of another block is apart from all of this one
    have hpq := (hdir p.1 (List.mem_map_of_mem hp)).apart (hdir q.1 hb) (h.pieces_forall hp hq heq)
    have hpos := h.piece_pos hq
    omega

include hL in
theorem keeps_rewrites {k k' : Kernel} {f : Nat → Header} (h : RunsPlaced L k.mmu rs)
    (hw : Rewrites (buckets L k.mmu rs) k k' f)
    (hsize : ∀ b ∈ buckets L k.mmu rs, (f b).size = k.size b) : Keeps L rs k k' :=
  ⟨hw.mmu, fun b hb => (Kernel.size_of_header (hw.header b hb)).trans (hsize b hb),
    fun _ hp _ h1 h2 => h.payload_rewrites hL hw hp h1 h2⟩

end RunsPlaced

namespace HeapPages

variable {L : Layout} {k k' : Kernel} {rs : List PageRun} (hL : L.WellFormed)

/-- Slots and large blocks are buckets. -/
theorem slot_mem {mmu : Bool} {r : PageRun} (hr : r ∈ rs) {c : SizeClass} (hc : r.cls = some c)
    {j : Nat} (hj : j ≤ c.slotCount) : c.slot (r.start L mmu) j ∈ buckets L mmu rs := by
  refine mem_buckets.mpr ⟨r, hr, min c.slotSize (REGION_SIZE - j * c.slotSize), ?_⟩
  rw [PageRun.pieces, hc]
  exact List.mem_map.mpr ⟨j, List.mem_range.mpr (Nat.lt_succ_of_le hj), rfl⟩

theorem large_mem {mmu : Bool} {r : PageRun} (hr : r ∈ rs) (hc : r.cls = none) :
    r.start L mmu ∈ buckets L mmu rs := by
  refine mem_buckets.mpr ⟨r, hr, PAGE_SIZE * r.count, ?_⟩
  rw [PageRun.pieces, hc]
  exact List.mem_singleton.mpr rfl

theorem sized_congr {r : PageRun} (hr : r ∈ rs) (hmmu : k'.mmu = k.mmu)
    (hsize : ∀ b ∈ buckets L k.mmu rs, k'.size b = k.size b) (h : r.Sized L k) : r.Sized L k' := by
  unfold PageRun.Sized at h ⊢
  rw [hmmu]
  cases hc : r.cls with
  | none =>
    rw [hc] at h
    dsimp only at h ⊢
    rwa [hsize _ (large_mem hr hc)]
  | some c =>
    rw [hc] at h
    dsimp only at h ⊢
    refine ⟨fun j hj => ?_, ?_⟩
    · rw [hsize _ (slot_mem hr hc hj.le)]
      exact h.1 j hj
    · rw [hsize _ (slot_mem hr hc (le_refl _))]
      exact h.2

include hL in
/-- Headers lie in the heap, and not in the refcount table. -/
theorem rc_rewrites {f : Nat → Header} (h : RunsPlaced L k.mmu rs)
    (hw : Rewrites (buckets L k.mmu rs) k k' f) {i : Nat} (hi : i < L.entryCount) :
    rc L k' i = rc L k i := by
  refine rc_congr hL (fun x hx => hw.frame x fun b hb => Or.inl ?_) hi
  obtain ⟨r, hr, len, hlen⟩ := mem_buckets.mp hb
  have hle := (h.piece_phys hL hr hlen).1
  rw [pageAddr_eq] at hle
  exact lt_of_lt_of_le hx.2 (Nat.le_of_add_right_le hle)

include hL in
/-- Writing headers, but no sizes, leaves the pages as they are. -/
theorem rewrites {f : Nat → Header} (h : HeapPages L k rs)
    (hw : Rewrites (buckets L k.mmu rs) k k' f)
    (hsize : ∀ b ∈ buckets L k.mmu rs, (f b).size = k.size b) : HeapPages L k' rs := by
  have hkeep := h.keeps_rewrites hL hw hsize
  refine ⟨⟨by rw [hw.mmu]; exact h.reach, h.placed, h.apart⟩, fun r hr i h1 h2 => ?_,
    fun r hr => sized_congr hr hw.mmu hkeep.size (h.sized r hr)⟩
  have hbound := (h.placed r hr).bound
  rw [rc_rewrites hL h.toRunsPlaced hw (by omega)]
  exact h.taken r hr i h1 h2

end HeapPages

/-! ## 3. Taking more pages -/

section Pages

variable {L : Layout} (hL : L.WellFormed) {k k' : Kernel} {rs : List PageRun}
include hL

/-- A change of memory outside the pages of the heap leaves them and their headers alone. -/
theorem HeapPages.frame (h : HeapPages L k rs) (hsatp : k'.satp = k.satp)
    (hmem : ∀ r ∈ rs, ∀ x, InPages L r.page r.count x → k'.mem x = k.mem x)
    (hrc : ∀ r ∈ rs, ∀ i, r.page ≤ i → i < r.page + r.count → rc L k i ≠ 0 → rc L k' i ≠ 0) :
    HeapPages L k' rs ∧ Keeps L rs k k' ∧
      ∀ b ∈ buckets L k.mmu rs, k'.header b = k.header b := by
  have hmmu : k'.mmu = k.mmu := by rw [Kernel.mmu, hsatp, Kernel.mmu]
  have hheader : ∀ b ∈ buckets L k.mmu rs, k'.header b = k.header b := by
    intro b hb
    obtain ⟨r, hr, len, hlen⟩ := mem_buckets.mp hb
    obtain ⟨h1, h2⟩ := h.piece_phys hL hr hlen
    have hlen' := h.piece_pos (List.mem_flatMap.mpr ⟨r, hr, hlen⟩)
    have hdir : Direct k.mmu b := (h.headersApart hL).direct b hb
    have hfield : ∀ i, i + 8 ≤ HEADER_SIZE → k'.load 8 (b + i) = k.load 8 (b + i) := by
      intro i hi
      rw [Kernel.load, Kernel.load, hmmu, hdir.physOf_add]
      refine load_congr fun x hx hlt => hmem r hr x ⟨by omega, ?_⟩
      dsimp only at hlen'
      omega
    exact Header.ext (hfield 0 (by decide)) (hfield 8 (by decide)) (hfield 16 (by decide))
  refine ⟨⟨⟨by rw [hmmu]; exact h.reach, h.placed, h.apart⟩, fun r hr i h1 h2 => ?_,
    fun r hr => HeapPages.sized_congr hr hmmu (fun b hb => Kernel.size_congr (hheader b hb))
      (h.sized r hr)⟩,
    ⟨hmmu, fun b hb => Kernel.size_congr (hheader b hb), fun p hp x h1 h2 => ?_⟩, hheader⟩
  · exact hrc r hr i h1 h2 (h.taken r hr i h1 h2)
  · obtain ⟨r, hr, hpr⟩ := List.mem_flatMap.mp hp
    obtain ⟨h3, h4⟩ := h.piece_phys hL hr hpr
    exact hmem r hr x ⟨by omega, by omega⟩

/-- A run of pages that was just handed out is none of the heap's. -/
theorem HeapPages.grab (h : HeapPages L k rs) {i count : Nat} (hc : 1 ≤ count) (hg : Grabbed L i count k k') :
    HeapPages L k' rs ∧ Keeps L rs k k' ∧ (∀ b ∈ buckets L k.mmu rs, k'.header b = k.header b) ∧
      ∀ r ∈ rs, r.page + r.count ≤ i ∨ i + count ≤ r.page := by
  have hapart : ∀ r ∈ rs, r.page + r.count ≤ i ∨ i + count ≤ r.page := by
    intro r hr
    by_contra hcon
    -- a common page would be both free and taken
    have hpos := (h.placed r hr).pos
    apply h.taken r hr (max r.page i) (le_max_left _ _) (by omega)
    apply hg.free _ (le_max_right _ _)
    omega
  obtain ⟨hpages, hkeep, hheader⟩ := h.frame hL hg.satp
    (fun r hr x hx => by
      have hrun := hapart r hr
      simp only [InPages, pageAddr_eq] at hx
      apply hg.frame
      · rintro ⟨_, hlt⟩
        omega
      · simp only [InPages, pageAddr_eq]
        omega)
    (fun r hr j h1 h2 hpos => by
      have hrun := hapart r hr
      have hbound := (h.placed r hr).bound
      rw [hg.rc_eq j (by omega), if_neg (by omega)]
      exact hpos)
  exact ⟨hpages, hkeep, hheader, hapart⟩

/-- A call of `alloc_pages` that succeeds. -/
theorem HeapPages.alloc (h : HeapPages L k rs) {count : Nat} (hc : 1 ≤ count)
    (hcN : 2 * count ≤ L.heapBottom) (hok : (allocPages L count k).1 ≠ 0) :
    ∃ i, (allocPages L count k).1 = L.pageAddr i ∧
      Grabbed L i count k (allocPages L count k).2 := by
  rcases allocPages_spec hL h.reach hc hcN with ⟨_, hfail⟩ | hok'
  · rw [hfail] at hok
    exact absurd rfl hok
  · exact hok'

end Pages

end IloPali
