import IloPali.Pages
import IloPali.Lib.LinkedList

/-!
# The kernel heap (`memory.c`)

`malloc`, `free` and `realloc` keep blocks in one list of used blocks and in seven lists
of free ones, by size.  A list is threaded through the headers in front of the
blocks.  An empty free list is filled with the slots of a region of 65 pages; a block
for which no list is large enough gets pages of its own.

The definitions follow the source store by store.  The rest of this module is about what
stores to headers do to headers, and about what formatting a region leaves in it.
-/

namespace IloPali

open ByteMemory LinkedList

/-! ## 1. The code -/

/-- The free lists of `free_buckets_alloc_t`. -/
inductive SizeClass
  | free16 | free64 | free256 | free1024 | free4096 | free16384 | free65536
deriving DecidableEq

/-- The size of the blocks in a free list. -/
def SizeClass.size : SizeClass → Nat
  | .free16 => 16
  | .free64 => 64
  | .free256 => 256
  | .free1024 => 1024
  | .free4096 => 4096
  | .free16384 => 16384
  | .free65536 => 65536

/-- The free list that serves a size. -/
def sizeClass (size : Nat) : Option SizeClass :=
  if size ≤ 16 then some .free16
  else if size ≤ 64 then some .free64
  else if size ≤ 256 then some .free256
  else if size ≤ 1024 then some .free1024
  else if size ≤ 4096 then some .free4096
  else if size ≤ 16384 then some .free16384
  else if size ≤ 65536 then some .free65536
  else none

/-- `sizeof(struct s_free_bucket)`. -/
def HEADER_SIZE : Nat := 32

/-- `GLOBAL_ALLOC_FALLBACK_PAGE_COUNT`. -/
def FALLBACK_PAGE_COUNT : Nat := 65

/-- The machine and `GLOBAL_ALLOC`. -/
structure Heap where
  kernel : Kernel
  mutating : Bool
  used : Nat
  free : SizeClass → Nat

namespace Kernel

/-- `bucket->next`. -/
def next (k : Kernel) (bucket : Nat) : Nat := k.load 8 bucket
/-- `bucket->prev`. -/
def prev (k : Kernel) (bucket : Nat) : Nat := k.load 8 (bucket + 8)
/-- `bucket->size`. -/
def size (k : Kernel) (bucket : Nat) : Nat := k.load 8 (bucket + 16)

def setNext (k : Kernel) (bucket v : Nat) : Kernel := k.store 8 bucket v
def setPrev (k : Kernel) (bucket v : Nat) : Kernel := k.store 8 (bucket + 8) v
def setSize (k : Kernel) (bucket v : Nat) : Kernel := k.store 8 (bucket + 16) v
def setOrigin (k : Kernel) (bucket v : Nat) : Kernel := k.store 8 (bucket + 24) v

end Kernel

/-- The loop of `free_buckets_format_unused` from offset `i`. -/
def formatLoop (data size bucketSize totalSize : Nat) : Nat → Nat → Kernel → Kernel
  | 0, _, k => k
  | fuel + 1, i, k =>
    if i + size < totalSize then
      let bucket := data + i
      let k := k.setPrev bucket (if 0 < i then data + i - size else 0)
      let k := k.setNext bucket (if i + size < totalSize then data + i + size else 0)
      let k := k.setSize bucket bucketSize
      let k := k.setOrigin bucket 0
      formatLoop data size bucketSize totalSize fuel (i + size) k
    else k

/-- `free_buckets_format_unused`. -/
def freeBucketsFormatUnused (data bucketSize pages : Nat) (k : Kernel) : Kernel :=
  let totalSize := pages * PAGE_SIZE
  formatLoop data (HEADER_SIZE + bucketSize) bucketSize totalSize totalSize 0 k

/-- Fill an empty free list; where `alloc_pages` fails it stays empty. -/
def refill (L : Layout) (c : SizeClass) (h : Heap) : Heap :=
  let (page, k) := allocPages L FALLBACK_PAGE_COUNT h.kernel
  let unformatted := phys2safe k.mmu page
  if unformatted = 0 then { h with kernel := k }
  else { h with
    kernel := freeBucketsFormatUnused unformatted c.size FALLBACK_PAGE_COUNT k
    free := Function.update h.free c unformatted }

/-- Take the first bucket of a free list. -/
def takeBucket (L : Layout) (c : SizeClass) (h : Heap) : Nat × Heap :=
  let h := if h.free c = 0 then refill L c h else h
  let bucket := h.free c
  if bucket = 0 then (0, h)
  else (bucket, { h with free := Function.update h.free c (h.kernel.next bucket) })

/-- The number of pages for a large block; the sum is computed modulo `2 ^ 64`. -/
def pageCount (size : Nat) : Nat := (size + HEADER_SIZE + PAGE_SIZE - 1) % 2 ^ 64 / PAGE_SIZE

/-- A bucket with pages of its own. -/
def takePages (L : Layout) (size : Nat) (h : Heap) : Nat × Heap :=
  let (page, k) := allocPages L (pageCount size) h.kernel
  let bucket := phys2safe k.mmu page
  if bucket = 0 then (0, { h with kernel := k })
  else (bucket, { h with kernel := k.setSize bucket size })

/-- Put a bucket at the head of the used list. -/
def linkUsed (bucket origin : Nat) (h : Heap) : Heap :=
  let k := h.kernel.setOrigin bucket origin
  let k := k.setNext bucket h.used
  let k := if h.used ≠ 0 then k.setPrev h.used bucket else k
  { h with kernel := k.setPrev bucket 0, used := bucket }

/-- `free_buckets_alloc`, where `mutating` is not taken by another hart. -/
def freeBucketsAlloc (L : Layout) (size origin : Nat) (h : Heap) : Nat × Heap :=
  if size = 0 then (0, h)
  else
    let h := { h with mutating := true }
    let (bucket, h) := match sizeClass size with
      | some c => takeBucket L c h
      | none => takePages L size h
    if bucket = 0 then (0, { h with mutating := false })
    else (bucket + HEADER_SIZE, { linkUsed bucket origin h with mutating := false })

/-- `malloc`, called from `origin`. -/
def malloc (L : Layout) (size origin : Nat) (h : Heap) : Nat × Heap :=
  freeBucketsAlloc L size origin h

/-- Take a bucket out of the used list. -/
def unlinkUsed (bucket : Nat) (h : Heap) : Heap :=
  let k := h.kernel
  let k := if k.prev bucket ≠ 0 then k.setNext (k.prev bucket) (k.next bucket) else k
  let k := if k.next bucket ≠ 0 then k.setPrev (k.next bucket) (k.prev bucket) else k
  let used := if bucket = h.used then k.next h.used else h.used
  { h with kernel := (k.setPrev bucket 0).setNext bucket 0, used := used }

/-- Put a bucket at the head of a free list. -/
def pushFree (c : SizeClass) (bucket : Nat) (h : Heap) : Heap :=
  let k := if h.free c ≠ 0 then h.kernel.setPrev (h.free c) bucket else h.kernel
  { h with
    kernel := k.setNext bucket (h.free c)
    free := Function.update h.free c bucket }

/-- `free`. -/
def free (L : Layout) (p : Nat) (h : Heap) : Heap :=
  if p = 0 then h
  else
    let bucket := p - HEADER_SIZE
    let h := unlinkUsed bucket { h with mutating := true }
    let h := match sizeClass (h.kernel.size bucket) with
      | some c => pushFree c bucket h
      | none => { h with
        kernel := deallocPages L bucket (pageCount (h.kernel.size bucket)) h.kernel }
    { h with mutating := false }

/-- The loop of `memcpy`. -/
def copyLoop : Nat → Nat → Nat → Kernel → Kernel
  | 0, _, _, k => k
  | n + 1, d1, s1, k => copyLoop n (d1 + 1) (s1 + 1) (k.store 1 d1 (k.load 1 s1))

/-- `memcpy`; the end pointer is computed modulo `2 ^ 64`. -/
def memcpy (dest src n : Nat) (k : Kernel) : Kernel :=
  copyLoop ((dest + n) % 2 ^ 64 - dest) dest src k

/-- `realloc`, called from `origin`, with a given way to copy. -/
def reallocWith (copy : Nat → Nat → Nat → Kernel → Kernel) (L : Layout) (p newSize origin : Nat)
    (h : Heap) : Nat × Heap :=
  if p = 0 then malloc L newSize origin h
  else
    let bucket := p - HEADER_SIZE
    if h.kernel.size bucket ≥ newSize then (p, h)
    else
      let (new, h) := freeBucketsAlloc L newSize origin h
      if new = 0 then (0, h)
      else (new, free L p { h with kernel := copy new p (h.kernel.size bucket) h.kernel })

/-- `realloc`. -/
def realloc (L : Layout) (p newSize origin : Nat) (h : Heap) : Nat × Heap :=
  reallocWith memcpy L p newSize origin h

/-- `realloc` without the bytes it copies. -/
def reallocHeaders (L : Layout) (p newSize origin : Nat) (h : Heap) : Nat × Heap :=
  reallocWith (fun _ _ _ k => k) L p newSize origin h

/-! ## 2. Headers -/

/-- A pointer into the direct map, where the MMU is on. -/
def Direct (mmu : Bool) (ptr : Nat) : Prop := mmu = true → KERNEL_SPACE_OFFSET ≤ ptr

theorem Direct.add {mmu : Bool} {ptr : Nat} (h : Direct mmu ptr) (i : Nat) :
    Direct mmu (ptr + i) := fun hon => Nat.le_add_right_of_le (h hon)

theorem Direct.physOf_add {mmu : Bool} {ptr : Nat} (h : Direct mmu ptr) (i : Nat) :
    physOf mmu (ptr + i) = physOf mmu ptr + i := by
  cases mmu with
  | false => rw [physOf_off, physOf_off]
  | true =>
    have hle := h rfl
    rw [physOf, physOf, safe2phys_on hle, safe2phys_on (h.add i rfl)]
    omega

theorem Direct.physOf_of_le {mmu : Bool} {a b : Nat} (h : Direct mmu a) (hle : a ≤ b) :
    physOf mmu b = physOf mmu a + (b - a) := by
  rw [← h.physOf_add, Nat.add_sub_cancel' hle]

/-- Ranges that are apart as pointers are apart in memory. -/
theorem Direct.apart {mmu : Bool} {a b n m : Nat} (ha : Direct mmu a) (hb : Direct mmu b)
    (h : a + n ≤ b ∨ b + m ≤ a) :
    physOf mmu a + n ≤ physOf mmu b ∨ physOf mmu b + m ≤ physOf mmu a := by
  rcases h with h | h
  · left
    rw [ha.physOf_of_le (Nat.le_of_add_right_le h)]
    omega
  · right
    rw [hb.physOf_of_le (Nat.le_of_add_right_le h)]
    omega

theorem Kernel.load_store_apart (k : Kernel) {a b n m : Nat} (ha : Direct k.mmu a)
    (hb : Direct k.mmu b) (v : Nat) (h : a + n ≤ b ∨ b + m ≤ a) :
    (k.store n a v).load m b = k.load m b :=
  load_store_disjoint _ _ (ha.apart hb h).symm

theorem Kernel.load_store_same (k : Kernel) (ptr : Nat) {v : Nat} (hv : v < 2 ^ 64) :
    (k.store 8 ptr v).load 8 ptr = v :=
  (ByteMemory.load_store_same _ _ _ _).trans (Nat.mod_eq_of_lt hv)

/-- What the allocator reads of the header of a bucket. -/
@[ext]
structure Header where
  next : Nat
  prev : Nat
  size : Nat

def Kernel.header (k : Kernel) (bucket : Nat) : Header :=
  ⟨k.next bucket, k.prev bucket, k.size bucket⟩

@[simp] theorem Kernel.header_next (k : Kernel) (b : Nat) : (k.header b).next = k.next b := rfl
@[simp] theorem Kernel.header_prev (k : Kernel) (b : Nat) : (k.header b).prev = k.prev b := rfl
@[simp] theorem Kernel.header_size (k : Kernel) (b : Nat) : (k.header b).size = k.size b := rfl

theorem Kernel.next_of_header {k : Kernel} {b : Nat} {g : Header} (h : k.header b = g) :
    k.next b = g.next := by rw [← h, Kernel.header_next]

theorem Kernel.prev_of_header {k : Kernel} {b : Nat} {g : Header} (h : k.header b = g) :
    k.prev b = g.prev := by rw [← h, Kernel.header_prev]

theorem Kernel.size_of_header {k : Kernel} {b : Nat} {g : Header} (h : k.header b = g) :
    k.size b = g.size := by rw [← h, Kernel.header_size]

theorem Kernel.next_congr {k k' : Kernel} {b : Nat} (h : k'.header b = k.header b) :
    k'.next b = k.next b := by rw [← k.header_next, ← h, Kernel.header_next]

theorem Kernel.prev_congr {k k' : Kernel} {b : Nat} (h : k'.header b = k.header b) :
    k'.prev b = k.prev b := by rw [← k.header_prev, ← h, Kernel.header_prev]

theorem Kernel.size_congr {k k' : Kernel} {b : Nat} (h : k'.header b = k.header b) :
    k'.size b = k.size b := by rw [← k.header_size, ← h, Kernel.header_size]

section Fields

variable (f : Nat → Header) (b v x : Nat)

/-- The headers with one field of one of them changed. -/
def withNext : Nat → Header := Function.update f b { f b with next := v }
def withPrev : Nat → Header := Function.update f b { f b with prev := v }
def withSize : Nat → Header := Function.update f b { f b with size := v }

theorem withNext_apply :
    withNext f b v x = ⟨if x = b then v else (f x).next, (f x).prev, (f x).size⟩ := by
  by_cases h : x = b
  · rw [withNext, h, Function.update_self, if_pos rfl]
  · rw [withNext, Function.update_of_ne h, if_neg h]

theorem withPrev_apply :
    withPrev f b v x = ⟨(f x).next, if x = b then v else (f x).prev, (f x).size⟩ := by
  by_cases h : x = b
  · rw [withPrev, h, Function.update_self, if_pos rfl]
  · rw [withPrev, Function.update_of_ne h, if_neg h]

theorem withSize_apply :
    withSize f b v x = ⟨(f x).next, (f x).prev, if x = b then v else (f x).size⟩ := by
  by_cases h : x = b
  · rw [withSize, h, Function.update_self, if_pos rfl]
  · rw [withSize, Function.update_of_ne h, if_neg h]

@[simp] theorem withNext_next : (withNext f b v x).next = if x = b then v else (f x).next := by
  rw [withNext_apply]

@[simp] theorem withNext_prev : (withNext f b v x).prev = (f x).prev := by rw [withNext_apply]

@[simp] theorem withNext_size : (withNext f b v x).size = (f x).size := by rw [withNext_apply]

@[simp] theorem withPrev_next : (withPrev f b v x).next = (f x).next := by rw [withPrev_apply]

@[simp] theorem withPrev_prev : (withPrev f b v x).prev = if x = b then v else (f x).prev := by
  rw [withPrev_apply]

@[simp] theorem withPrev_size : (withPrev f b v x).size = (f x).size := by rw [withPrev_apply]

@[simp] theorem withSize_next : (withSize f b v x).next = (f x).next := by rw [withSize_apply]

@[simp] theorem withSize_prev : (withSize f b v x).prev = (f x).prev := by rw [withSize_apply]

@[simp] theorem withSize_size : (withSize f b v x).size = if x = b then v else (f x).size := by
  rw [withSize_apply]

end Fields

/-- Headers that do not overlap. -/
structure HeadersApart (mmu : Bool) (N : List Nat) : Prop where
  direct : ∀ b ∈ N, Direct mmu b
  lt : ∀ b ∈ N, b < 2 ^ 64
  apart : ∀ b ∈ N, ∀ b' ∈ N, b ≠ b' → b + HEADER_SIZE ≤ b' ∨ b' + HEADER_SIZE ≤ b

/-- From `k` to `k'` only the headers `N` were written, and they are now as `f` says. -/
structure Rewrites (N : List Nat) (k k' : Kernel) (f : Nat → Header) : Prop where
  header : ∀ b ∈ N, k'.header b = f b
  frame : ∀ x, (∀ b ∈ N, x < physOf k.mmu b ∨ physOf k.mmu b + HEADER_SIZE ≤ x) →
    k'.mem x = k.mem x
  satp : k'.satp = k.satp
  failed : k'.failed = k.failed

theorem Rewrites.refl (N : List Nat) (k : Kernel) : Rewrites N k k k.header :=
  ⟨fun _ _ => rfl, fun _ _ => rfl, rfl, rfl⟩

theorem Rewrites.mmu {N : List Nat} {k k' : Kernel} {f : Nat → Header} (h : Rewrites N k k' f) :
    k'.mmu = k.mmu := by
  rw [Kernel.mmu, h.satp, Kernel.mmu]

variable {N : List Nat} {k k' : Kernel} {f : Nat → Header}

theorem Rewrites.of_eq {f' : Nat → Header} (h : Rewrites N k k' f) (heq : ∀ b ∈ N, f b = f' b) :
    Rewrites N k k' f' :=
  ⟨fun b hb => (h.header b hb).trans (heq b hb), h.frame, h.satp, h.failed⟩

/-- A store to the header of a bucket. -/
theorem Rewrites.store (hN : HeadersApart k.mmu N) (h : Rewrites N k k' f) {b i v : Nat}
    (hb : b ∈ N) (hi : i + 8 ≤ HEADER_SIZE) {g : Header}
    (hg : (k'.store 8 (b + i) v).header b = g) :
    Rewrites N k (k'.store 8 (b + i) v) (Function.update f b g) := by
  have hmmu := h.mmu
  have hdir : ∀ b ∈ N, Direct k'.mmu b := by
    rw [hmmu]
    exact hN.direct
  refine ⟨fun b' hb' => ?_, fun x hx => ?_, h.satp, h.failed⟩
  · by_cases hne : b' = b
    · subst hne
      rw [Function.update_self, hg]
    · have hfield : ∀ j, j + 8 ≤ HEADER_SIZE →
          (k'.store 8 (b + i) v).load 8 (b' + j) = k'.load 8 (b' + j) := by
        intro j hj
        refine k'.load_store_apart ((hdir b hb).add i) ((hdir b' hb').add j) v ?_
        rcases hN.apart b' hb' b hb hne with h1 | h1
        · exact Or.inr (by omega)
        · exact Or.inl (by omega)
      have hsame : (k'.store 8 (b + i) v).header b' = k'.header b' :=
        Header.ext (hfield 0 (by decide)) (hfield 8 (by decide)) (hfield 16 (by decide))
      rw [Function.update_of_ne hne, hsame, h.header b' hb']
  · have hout := hx b hb
    have hphys : physOf k'.mmu (b + i) = physOf k.mmu b + i := by
      rw [hmmu, (hN.direct b hb).physOf_add]
    rw [← h.frame x hx, Kernel.store, hphys]
    dsimp only [ByteMemory.store]
    exact patch_outside _ _ (by omega)

theorem Rewrites.setNext (hN : HeadersApart k.mmu N) (h : Rewrites N k k' f) {b v : Nat}
    (hb : b ∈ N) (hv : v < 2 ^ 64) :
    Rewrites N k (k'.setNext b v) (withNext f b v) := by
  have hdir : Direct k'.mmu b := by
    rw [h.mmu]
    exact hN.direct b hb
  refine @Rewrites.store N k k' f hN h b 0 v hb (by decide) _ ?_
  rw [← h.header b hb]
  exact Header.ext (k'.load_store_same b hv)
    (k'.load_store_apart (hdir.add 0) (hdir.add 8) v (Or.inl (le_refl _)))
    (k'.load_store_apart (hdir.add 0) (hdir.add 16) v (Or.inl (Nat.add_le_add_left (by decide) b)))

theorem Rewrites.setPrev (hN : HeadersApart k.mmu N) (h : Rewrites N k k' f) {b v : Nat}
    (hb : b ∈ N) (hv : v < 2 ^ 64) :
    Rewrites N k (k'.setPrev b v) (withPrev f b v) := by
  have hdir : Direct k'.mmu b := by
    rw [h.mmu]
    exact hN.direct b hb
  refine @Rewrites.store N k k' f hN h b 8 v hb (by decide) _ ?_
  rw [← h.header b hb]
  exact Header.ext (k'.load_store_apart (hdir.add 8) hdir v (Or.inr (le_refl _)))
    (k'.load_store_same (b + 8) hv)
    (k'.load_store_apart (hdir.add 8) (hdir.add 16) v (Or.inl (le_refl _)))

theorem Rewrites.setSize (hN : HeadersApart k.mmu N) (h : Rewrites N k k' f) {b v : Nat}
    (hb : b ∈ N) (hv : v < 2 ^ 64) :
    Rewrites N k (k'.setSize b v) (withSize f b v) := by
  have hdir : Direct k'.mmu b := by
    rw [h.mmu]
    exact hN.direct b hb
  refine @Rewrites.store N k k' f hN h b 16 v hb (by decide) _ ?_
  rw [← h.header b hb]
  exact Header.ext
    (k'.load_store_apart (hdir.add 16) hdir v (Or.inr (Nat.add_le_add_left (by decide) b)))
    (k'.load_store_apart (hdir.add 16) (hdir.add 8) v (Or.inr (le_refl _)))
    (k'.load_store_same (b + 16) hv)

/-- The origin of a bucket is read by no call. -/
theorem Rewrites.setOrigin (hN : HeadersApart k.mmu N) (h : Rewrites N k k' f) {b : Nat}
    (hb : b ∈ N) (v : Nat) : Rewrites N k (k'.setOrigin b v) f := by
  have hdir : Direct k'.mmu b := by
    rw [h.mmu]
    exact hN.direct b hb
  have hsame : (k'.setOrigin b v).header b = f b := by
    rw [← h.header b hb]
    exact Header.ext
      (k'.load_store_apart (hdir.add 24) hdir v (Or.inr (Nat.add_le_add_left (by decide) b)))
      (k'.load_store_apart (hdir.add 24) (hdir.add 8) v
        (Or.inr (Nat.add_le_add_left (show 16 ≤ 24 by decide) b)))
      (k'.load_store_apart (hdir.add 24) (hdir.add 16) v (Or.inr (le_refl _)))
  refine (@Rewrites.store N k k' f hN h b 24 v hb (by decide) _ hsame).of_eq fun b' _ => ?_
  rw [Function.update_eq_self]

/-! ## 3. The slots of a region -/

/-- The bytes of a region. -/
def REGION_SIZE : Nat := FALLBACK_PAGE_COUNT * PAGE_SIZE

/-- The distance from one slot of a region to the next. -/
def SizeClass.slotSize (c : SizeClass) : Nat := HEADER_SIZE + c.size

/-- The number of slots that are formatted.  The last one of them links to one more, which
    begins in the region and does not end there. -/
def SizeClass.slotCount (c : SizeClass) : Nat := (REGION_SIZE - 1) / c.slotSize

/-- Slot `j` of the region at `data`. -/
def SizeClass.slot (c : SizeClass) (data j : Nat) : Nat := data + j * c.slotSize

theorem SizeClass.slotSize_pos (c : SizeClass) : 0 < c.slotSize := by
  cases c <;> decide

/-- The header of the last slot still lies in the region. -/
theorem SizeClass.slot_header (c : SizeClass) {j : Nat} (hj : j ≤ c.slotCount) :
    j * c.slotSize + HEADER_SIZE ≤ REGION_SIZE := by
  refine le_trans (Nat.add_le_add_right (Nat.mul_le_mul_right _ hj) _) ?_
  cases c <;> decide

theorem SizeClass.slot_inj (c : SizeClass) {data i j : Nat} :
    c.slot data i = c.slot data j ↔ i = j := by
  rw [slot, slot, Nat.add_left_cancel_iff, Nat.mul_left_inj c.slotSize_pos.ne']

/-- The test of the loop. -/
theorem SizeClass.formats_iff (c : SizeClass) (j : Nat) :
    j * c.slotSize + c.slotSize < REGION_SIZE ↔ j < c.slotCount := by
  have hdiv : j + 1 ≤ c.slotCount ↔ (j + 1) * c.slotSize ≤ REGION_SIZE - 1 :=
    Nat.le_div_iff_mul_le c.slotSize_pos
  have hpos : 0 < REGION_SIZE := by decide
  rw [Nat.succ_mul] at hdiv
  omega

/-- One turn of the loop formats one slot. -/
theorem Rewrites.formatSlot {k0 : Kernel} {data i size bucketSize totalSize fuel : Nat}
    (hN : HeadersApart k0.mmu N) (h : Rewrites N k0 k f) (hb : data + i ∈ N)
    (hin : i + size < totalSize) (hend : data + totalSize ≤ 2 ^ 64)
    (hsize : bucketSize < 2 ^ 64) :
    ∃ k' f', Rewrites N k0 k' f' ∧ (f' (data + i)).next = data + i + size ∧
      (f' (data + i)).size = bucketSize ∧ (∀ b, b ≠ data + i → f' b = f b) ∧
      formatLoop data size bucketSize totalSize (fuel + 1) i k =
        formatLoop data size bucketSize totalSize fuel (i + size) k' := by
  have hprev : (if 0 < i then data + i - size else 0) < 2 ^ 64 := by
    split
    · omega
    · decide
  have hnext : data + i + size < 2 ^ 64 := by omega
  rw [formatLoop, if_pos hin, if_pos hin]
  refine ⟨_, _, (((h.setPrev hN hb hprev).setNext hN hb hnext).setSize hN hb hsize).setOrigin hN
    hb 0, ?_, ?_, fun b hne => ?_, rfl⟩
  · simp
  · simp
  · simp [withSize_apply, withNext_apply, withPrev_apply, hne]

/-- The loop from slot `j` on. -/
theorem formatLoop_spec {k0 : Kernel} {c : SizeClass} {data j m fuel : Nat}
    (hN : HeadersApart k0.mmu N) (h : Rewrites N k0 k f)
    (hslots : ∀ i, i < c.slotCount → c.slot data i ∈ N) (hend : data + REGION_SIZE ≤ 2 ^ 64)
    (hm : j + m = c.slotCount) (hfuel : m ≤ fuel) :
    ∃ f', Rewrites N k0 (formatLoop data c.slotSize c.size REGION_SIZE fuel (j * c.slotSize) k) f' ∧
      (∀ i, j ≤ i → i < c.slotCount →
        (f' (c.slot data i)).next = c.slot data (i + 1) ∧ (f' (c.slot data i)).size = c.size) ∧
      ∀ b, (∀ i, j ≤ i → i < c.slotCount → b ≠ c.slot data i) → f' b = f b := by
  induction m generalizing j fuel k f with
  | zero =>
    refine ⟨f, ?_, fun i h1 h2 => absurd h2 (by omega), fun _ _ => rfl⟩
    cases fuel with
    | zero => exact h
    | succ fuel =>
      rw [formatLoop, if_neg fun hcon => absurd ((c.formats_iff j).mp hcon) (by omega)]
      exact h
  | succ m ih =>
    obtain ⟨fuel, rfl⟩ := Nat.exists_eq_succ_of_ne_zero (Nat.ne_of_gt (Nat.zero_lt_of_lt hfuel))
    have hsize : c.size < 2 ^ 64 := by cases c <;> decide
    obtain ⟨k1, f1, hk1, hnext, hsize, hother, hloop⟩ := @Rewrites.formatSlot N k f k0 data
      (j * c.slotSize) c.slotSize c.size REGION_SIZE fuel hN h (hslots j (by omega))
      ((c.formats_iff j).mpr (by omega)) hend hsize
    obtain ⟨f', hk', hset, hrest⟩ := ih hk1 (by omega : j + 1 + m = c.slotCount)
      (Nat.le_of_succ_le_succ hfuel)
    rw [Nat.succ_mul] at hk'
    refine ⟨f', hloop ▸ hk', fun i h1 h2 => ?_, fun b hb => ?_⟩
    · rcases Nat.eq_or_lt_of_le h1 with rfl | h1
      · -- the later turns leave this slot alone
        rw [hrest _ fun i' h1' _ hcon => absurd (c.slot_inj.mp hcon) (by omega), SizeClass.slot,
          SizeClass.slot, Nat.succ_mul, ← Nat.add_assoc]
        exact ⟨hnext, hsize⟩
      · exact hset i h1 h2
    · rw [hrest b fun i h1 h2 => hb i (by omega) h2]
      exact hother b (hb j (le_refl j) (by omega))

/-- **Formatting.**  The slots of a region of cleared pages form a list. -/
theorem format_spec {c : SizeClass} {data : Nat} (hN : HeadersApart k.mmu N)
    (hslots : ∀ i, i ≤ c.slotCount → c.slot data i ∈ N) (hend : data + REGION_SIZE ≤ 2 ^ 64)
    (hpos : 0 < data) (hclear : k.header (c.slot data c.slotCount) = ⟨0, 0, 0⟩) :
    ∃ f, Rewrites N k (freeBucketsFormatUnused data c.size FALLBACK_PAGE_COUNT k) f ∧
      Chain 0 (fun b => (f b).next) data ((List.range (c.slotCount + 1)).map (c.slot data)) ∧
      (∀ i, i < c.slotCount → (f (c.slot data i)).size = c.size) ∧
      (f (c.slot data c.slotCount)).size = 0 ∧
      ∀ b, (∀ i, i ≤ c.slotCount → b ≠ c.slot data i) → f b = k.header b := by
  have hfuel : c.slotCount ≤ REGION_SIZE := Nat.le_trans (Nat.div_le_self _ _) (Nat.sub_le _ _)
  obtain ⟨f, hk, hset, hrest⟩ := @formatLoop_spec N k k.header k c data 0 c.slotCount REGION_SIZE hN
    (Rewrites.refl N k) (fun i hi => hslots i hi.le) hend (Nat.zero_add _) hfuel
  rw [Nat.zero_mul] at hk
  have htail : f (c.slot data c.slotCount) = ⟨0, 0, 0⟩ := by
    rw [hrest _ fun i _ hi hcon => absurd (c.slot_inj.mp hcon) (by omega), hclear]
  refine ⟨f, hk, ?_, fun i hi => (hset i (Nat.zero_le i) hi).2, ?_,
    fun b hb => hrest b fun i _ hi => hb i hi.le⟩
  · have hfirst : c.slot data 0 = data := by rw [SizeClass.slot, Nat.zero_mul, Nat.add_zero]
    have hchain := @chain_range Nat 0 (fun b => (f b).next) (c.slot data) c.slotCount
      (fun i hi => (hset i (Nat.zero_le i) hi).1) (congrArg Header.next htail)
      (fun i _ => Nat.ne_of_gt (Nat.add_pos_left hpos _))
    rwa [hfirst] at hchain
  · exact congrArg Header.size htail

end IloPali
