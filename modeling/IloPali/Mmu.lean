import IloPali.Pages

/-!
# Page tables (`mmu.c`, `mmu.h`)

The entries of a table are 64-bit words: ten flag bits, then the physical page
number.  The functions work on pointers to entries; a `NULL` pointer is `0`.
This module holds the code and what it does to the bits of one entry.  What it
does to a whole table is in `IloPali.PageTable`.
-/

namespace IloPali

open ByteMemory

/-! ## 1. Entries -/

def MMU_BIT_VALID : Word := 0x01#64
def MMU_BIT_READ : Word := 0x02#64
def MMU_BIT_WRITE : Word := 0x04#64
def MMU_BIT_EXEC : Word := 0x08#64
def MMU_BIT_USER : Word := 0x10#64
def MMU_BIT_GLOBAL : Word := 0x20#64
def MMU_BIT_ACCESSED : Word := 0x40#64
def MMU_BIT_DIRTY : Word := 0x80#64
def MMU_ALL_BITS : Word := 0x3ff#64

def MMU_ENTRY_COUNT : Nat := 512
def MMU_TOP_HALF : Nat := MMU_ENTRY_COUNT / 2

def mmuEntryValid (entry : Word) : Bool := (entry &&& MMU_BIT_VALID) != 0#64
def mmuEntryRead (entry : Word) : Bool := (entry &&& MMU_BIT_READ) != 0#64
def mmuEntryWrite (entry : Word) : Bool := (entry &&& MMU_BIT_WRITE) != 0#64
def mmuEntryExec (entry : Word) : Bool := (entry &&& MMU_BIT_EXEC) != 0#64
def mmuEntryUser (entry : Word) : Bool := (entry &&& MMU_BIT_USER) != 0#64

def mmuEntryFrame (entry : Word) : Bool :=
  mmuEntryRead entry || mmuEntryWrite entry || mmuEntryExec entry

/-- The physical address an entry holds, `(entry.data & ~MMU_ALL_BITS) << 2`. -/
def entryPhys (entry : Word) : Nat := ((entry &&& ~~~MMU_ALL_BITS) <<< 2).toNat

def mmuEntryPhys (mmu : Bool) (entry : Word) : Nat := phys2safe mmu (entryPhys entry)

/-- The word `mmu_entry_set_flags` leaves in an entry. -/
def withFlags (entry flags : Word) : Word :=
  (entry &&& ~~~MMU_ALL_BITS) ||| (flags &&& MMU_ALL_BITS)

/-- The word `mmu_entry_set_phys` leaves in an entry; the shift is of a signed
    number. -/
def withPhys (entry : Word) (phys : Nat) : Word :=
  (entry &&& MMU_ALL_BITS) ||| ((BitVec.ofNat 64 phys &&& ~~~0xfff#64).sshiftRight 2)

namespace Kernel

/-- The entry that `ptr` points to. -/
def entry (k : Kernel) (ptr : Nat) : Word := BitVec.ofNat 64 (k.load 8 ptr)

def setEntry (k : Kernel) (ptr : Nat) (e : Word) : Kernel := k.store 8 ptr e.toNat

end Kernel

def mmuEntrySetFlags (entry : Nat) (flags : Word) (k : Kernel) : Kernel :=
  if entry = 0 then k else k.setEntry entry (withFlags (k.entry entry) flags)

def mmuEntrySetPhys (entry phys : Nat) (k : Kernel) : Kernel :=
  if entry = 0 then k else k.setEntry entry (withPhys (k.entry entry) phys)

/-! ## 2. Page numbers -/

/-- The three indices of a virtual page, and so its number. -/
structure PageNumber where
  vpn0 : Fin 512
  vpn1 : Fin 512
  vpn2 : Fin 512
deriving DecidableEq

/-- `get_vpns`.  The sign bits that the shift brings in are masked off. -/
def getVpns (addr : Nat) : PageNumber :=
  ⟨.ofNat 512 (addr / 2 ^ 30), .ofNat 512 (addr / 2 ^ 21), .ofNat 512 (addr / 2 ^ 12)⟩

/-! ## 3. Reaching an entry -/

def mmuRootGetAny (k : Kernel) (root i : Nat) : Nat :=
  if root = 0 then 0
  else if i ≥ MMU_ENTRY_COUNT then 0
  else phys2safe k.mmu root + 8 * i

def mmuRootGet (k : Kernel) (root i : Nat) : Nat :=
  let entry := mmuRootGetAny k root i
  if entry ≠ 0 ∧ mmuEntryValid (k.entry entry) = true then entry else 0

def mmuEntryGetAny (k : Kernel) (entry : Word) (i : Nat) : Nat :=
  if mmuEntryValid entry = false ∨ mmuEntryFrame entry = true then 0
  else if i ≥ MMU_ENTRY_COUNT then 0
  else if mmuEntryPhys k.mmu entry = 0 then 0
  else phys2safe k.mmu (mmuEntryPhys k.mmu entry) + 8 * i

def mmuEntryGet (k : Kernel) (entry : Word) (i : Nat) : Nat :=
  let nextEntry := mmuEntryGetAny k entry i
  if nextEntry ≠ 0 ∧ mmuEntryValid (k.entry nextEntry) = true then nextEntry else 0

/-- The loop of `mmu_walk_to_entry`, over the indices that are left. -/
def mmuWalkLoop (k : Kernel) : List (Fin 512) → Nat → Nat
  | [], entry => entry
  | i :: vpns, entry =>
    if entry = 0 ∨ mmuEntryFrame (k.entry entry) = true then entry
    else mmuWalkLoop k vpns (mmuEntryGet k (k.entry entry) i)

def mmuWalkToEntry (k : Kernel) (root virtAddr : Nat) : Nat :=
  let v := getVpns virtAddr
  mmuWalkLoop k [v.vpn1, v.vpn2] (mmuRootGet k root v.vpn0)

/-! ## 4. Changing a table -/

/-- The loop of `mmu_map`, over the indices that are left: `none` where the
    source returns `-1`, otherwise the pointer it ends with. -/
def mmuMapLoop (L : Layout) : List (Fin 512) → Nat → Kernel → Option Nat × Kernel
  | [], entry, k => (some entry, k)
  | i :: vpns, entry, k =>
    if entry = 0 ∨ (mmuEntryValid (k.entry entry) = true ∧ mmuEntryFrame (k.entry entry) = true) then
      (none, k)
    else if mmuEntryValid (k.entry entry) = true then
      mmuMapLoop L vpns (mmuEntryGetAny k (k.entry entry) i) k
    else
      let (page, k) := allocPages L 1 k
      let k := mmuEntrySetPhys entry page (mmuEntrySetFlags entry MMU_BIT_VALID k)
      mmuMapLoop L vpns (mmuEntryGetAny k (k.entry entry) i) k

/-- The flags `mmu_map` and `mmu_change_flags` install. -/
def leafFlags (flags : Word) : Word :=
  flags ||| MMU_BIT_VALID ||| MMU_BIT_ACCESSED ||| MMU_BIT_DIRTY

def mmuMap (L : Layout) (root virtAddr physical : Nat) (flags : Word) (k : Kernel) : Int × Kernel :=
  let v := getVpns virtAddr
  match mmuMapLoop L [v.vpn1, v.vpn2] (mmuRootGetAny k root v.vpn0) k with
  | (none, k) => (-1, k)
  | (some entry, k) =>
    if entry = 0 ∨ mmuEntryValid (k.entry entry) = true then (-1, k)
    else (0, mmuEntrySetPhys entry physical (mmuEntrySetFlags entry (leafFlags flags) k))

def mmuAlloc (L : Layout) (root virtAddr : Nat) (flags : Word) (k : Kernel) : Nat × Kernel :=
  let (physical, k) := allocPages L 1 k
  let (ret, k) := mmuMap L root virtAddr physical flags k
  if ret ≠ 0 then (0, deallocPages L physical 1 k) else (physical, k)

def mmuChangeFlags (root virtAddr : Nat) (flags : Word) (k : Kernel) : Kernel :=
  mmuEntrySetFlags (mmuWalkToEntry k root virtAddr) (leafFlags flags) k

def mmuRemove (root virtAddr : Nat) (k : Kernel) : Nat × Kernel :=
  let entry := mmuWalkToEntry k root virtAddr
  if entry = 0 then (0, k)
  else (mmuEntryPhys k.mmu (k.entry entry), mmuEntrySetFlags entry 0#64 k)

/-- The loop of `mmu_map_range_identity`, `n` pages from `p`. -/
def mapIdentityLoop (L : Layout) (root : Nat) (flags : Word) : Nat → Nat → Kernel → Kernel
  | 0, _, k => k
  | n + 1, p, k => mapIdentityLoop L root flags n (p + PAGE_SIZE) (mmuMap L root p p flags k).2

def mmuMapRangeIdentity (L : Layout) (root start end_ : Nat) (flags : Word) (k : Kernel) : Kernel :=
  mapIdentityLoop L root flags ((end_ - start + (PAGE_SIZE - 1)) / PAGE_SIZE) start k

/-- The ranges `identity_map_kernel` maps, in its order. -/
def Layout.kernelRanges (L : Layout) : List (Nat × Nat × Word) :=
  [(L.textStart, L.dataStart, MMU_BIT_READ ||| MMU_BIT_EXEC ||| MMU_BIT_GLOBAL),
    (L.dataStart, L.roDataStart, MMU_BIT_READ ||| MMU_BIT_WRITE ||| MMU_BIT_GLOBAL),
    (L.roDataStart, L.sdataStart, MMU_BIT_READ ||| MMU_BIT_GLOBAL),
    (L.sdataStart, L.sdataEnd, MMU_BIT_READ ||| MMU_BIT_WRITE ||| MMU_BIT_GLOBAL),
    (L.stackStart, L.stackTop, MMU_BIT_READ ||| MMU_BIT_WRITE ||| MMU_BIT_GLOBAL),
    (L.pagesBottom, L.heapBottom, MMU_BIT_READ ||| MMU_BIT_WRITE ||| MMU_BIT_GLOBAL)]

def identityMapRanges (L : Layout) (root : Nat) : List (Nat × Nat × Word) → Kernel → Kernel
  | [], k => k
  | (start, end_, flags) :: rs, k =>
    identityMapRanges L root rs (mmuMapRangeIdentity L root start end_ flags k)

def identityMapKernel (L : Layout) (root : Nat) (k : Kernel) : Kernel :=
  identityMapRanges L root L.kernelRanges k

/-- Entry `i` of the upper half of every table: a gigabyte of the direct map. -/
def directMapEntry (i : Nat) : Word :=
  BitVec.ofNat 64 ((i - MMU_TOP_HALF) * 2 ^ 28) ||| MMU_BIT_GLOBAL ||| MMU_BIT_READ |||
    MMU_BIT_WRITE ||| MMU_BIT_VALID

/-- The loop of `create_mmu_table`, `n` entries from `i`. -/
def fillTopHalf (top : Nat) : Nat → Nat → Kernel → Kernel
  | 0, _, k => k
  | n + 1, i, k => fillTopHalf top n (i + 1) (k.setEntry (top + 8 * i) (directMapEntry i))

def createMmuTable (L : Layout) (k : Kernel) : Nat × Kernel :=
  let (page, k) := allocPages L 1 k
  let top := phys2safe k.mmu page
  let k := fillTopHalf top (MMU_ENTRY_COUNT - MMU_TOP_HALF) MMU_TOP_HALF k
  let root := safe2phys k.mmu top
  (root, identityMapKernel L root k)

/-! ## 5. The bits of an entry -/

theorem allBits_getLsbD (i : Nat) : MMU_ALL_BITS.getLsbD i = decide (i < 10) := by
  by_cases hi : i < 64
  · have : ∀ j : Fin 64, MMU_ALL_BITS.getLsbD j = decide (j.val < 10) := by decide
    exact this ⟨i, hi⟩
  · rw [BitVec.getLsbD_of_ge _ _ (by omega)]
    simp only [Bool.false_eq, decide_eq_false_iff_not]
    omega

theorem flags_of_withFlags (e flags : Word) :
    withFlags e flags &&& MMU_ALL_BITS = flags &&& MMU_ALL_BITS := by
  apply BitVec.eq_of_getLsbD_eq
  intro i hi
  simp only [withFlags, BitVec.getLsbD_and, BitVec.getLsbD_or, BitVec.getLsbD_not, allBits_getLsbD]
  by_cases h : i < 10
  · simp [h]
  · simp [h]

theorem entryPhys_withFlags (e flags : Word) : entryPhys (withFlags e flags) = entryPhys e := by
  have hbits : withFlags e flags &&& ~~~MMU_ALL_BITS = e &&& ~~~MMU_ALL_BITS := by
    apply BitVec.eq_of_getLsbD_eq
    intro i hi
    simp only [withFlags, BitVec.getLsbD_and, BitVec.getLsbD_or, BitVec.getLsbD_not,
      allBits_getLsbD, hi]
    by_cases h : i < 10
    · simp [h]
    · simp [h]
  unfold entryPhys
  rw [hbits]

/-- A physical address of at most 56 bits loses only its offset in the page to
    the mask and the signed shift of `mmu_entry_set_phys`. -/
theorem phys_getLsbD {phys : Nat} (hphys : phys < 2 ^ 56) (i : Nat) :
    ((BitVec.ofNat 64 phys &&& ~~~0xfff#64).sshiftRight 2).getLsbD i =
      (decide (10 ≤ i) && phys.testBit (i + 2)) := by
  have hmask : ∀ j, (0xfff#64).getLsbD j = decide (j < 12) := by
    intro j
    by_cases hj : j < 64
    · have : ∀ j : Fin 64, (0xfff#64).getLsbD j = decide (j.val < 12) := by decide
      exact this ⟨j, hj⟩
    · rw [BitVec.getLsbD_of_ge _ _ (by omega)]
      simp only [Bool.false_eq, decide_eq_false_iff_not]
      omega
  have hhigh : ∀ j, 56 ≤ j → phys.testBit j = false := fun j hj =>
    Nat.testBit_lt_two_pow (Nat.lt_of_lt_of_le hphys (Nat.pow_le_pow_right (by decide) hj))
  have hmsb : (BitVec.ofNat 64 phys &&& ~~~0xfff#64).msb = false := by
    rw [BitVec.msb_eq_getLsbD_last, BitVec.getLsbD_and, BitVec.getLsbD_ofNat]
    rw [hhigh _ (by decide)]
    simp
  rw [BitVec.getLsbD_sshiftRight, hmsb, Nat.add_comm 2 i, BitVec.getLsbD_and, BitVec.getLsbD_not,
    BitVec.getLsbD_ofNat, hmask]
  by_cases h1 : 54 ≤ i
  · simp [hhigh (i + 2) (by omega)]
  · by_cases h2 : 10 ≤ i
    · simp [h2, show ¬ 64 ≤ i by omega, show i + 2 < 64 by omega, show ¬ i + 2 < 12 by omega]
    · simp [h2, show i + 2 < 12 by omega]

theorem flags_of_withPhys (e : Word) {phys : Nat} (hphys : phys < 2 ^ 56) :
    withPhys e phys &&& MMU_ALL_BITS = e &&& MMU_ALL_BITS := by
  apply BitVec.eq_of_getLsbD_eq
  intro i hi
  simp only [withPhys, BitVec.getLsbD_and, BitVec.getLsbD_or, phys_getLsbD hphys, allBits_getLsbD]
  by_cases h : i < 10
  · simp [h]
  · simp [h]

theorem entryPhys_withPhys (e : Word) {phys : Nat} (hphys : phys < 2 ^ 56) :
    entryPhys (withPhys e phys) = phys / 4096 * 4096 := by
  apply Nat.eq_of_testBit_eq
  intro i
  rw [entryPhys, BitVec.testBit_toNat, show 4096 = 2 ^ 12 by decide, Nat.testBit_mul_two_pow,
    Nat.testBit_div_two_pow]
  simp only [withPhys, BitVec.getLsbD_shiftLeft, BitVec.getLsbD_and, BitVec.getLsbD_or,
    BitVec.getLsbD_not, phys_getLsbD hphys, allBits_getLsbD]
  have hhigh : ∀ j, 56 ≤ j → phys.testBit j = false := fun j hj =>
    Nat.testBit_lt_two_pow (Nat.lt_of_lt_of_le hphys (Nat.pow_le_pow_right (by decide) hj))
  by_cases h1 : 12 ≤ i
  · by_cases h2 : i < 64
    · simp [h1, h2, show ¬ i < 2 by omega, show ¬ i - 2 < 10 by omega, show 10 ≤ i - 2 by omega,
        show i - 2 < 64 by omega, show i - 2 + 2 = i by omega]
    · simp [h2, hhigh (i - 12 + 12) (by omega)]
  · by_cases h2 : i < 2
    · simp [h2, h1]
    · simp [h1, show i - 2 < 10 by omega]

/-! ## 6. Entries with the same flags -/

/-- The flag tests read only the ten flag bits. -/
theorem and_of_flags_eq {e f : Word} (bit : Word) (hbit : MMU_ALL_BITS &&& bit = bit)
    (h : e &&& MMU_ALL_BITS = f &&& MMU_ALL_BITS) : e &&& bit = f &&& bit := by
  rw [← hbit, ← BitVec.and_assoc, ← BitVec.and_assoc, h]

theorem mmuEntryValid_congr {e f : Word} (h : e &&& MMU_ALL_BITS = f &&& MMU_ALL_BITS) :
    mmuEntryValid e = mmuEntryValid f := by
  simp only [mmuEntryValid, and_of_flags_eq MMU_BIT_VALID (by decide) h]

theorem mmuEntryUser_congr {e f : Word} (h : e &&& MMU_ALL_BITS = f &&& MMU_ALL_BITS) :
    mmuEntryUser e = mmuEntryUser f := by
  simp only [mmuEntryUser, and_of_flags_eq MMU_BIT_USER (by decide) h]

theorem mmuEntryFrame_congr {e f : Word} (h : e &&& MMU_ALL_BITS = f &&& MMU_ALL_BITS) :
    mmuEntryFrame e = mmuEntryFrame f := by
  simp only [mmuEntryFrame, mmuEntryRead, mmuEntryWrite, mmuEntryExec,
    and_of_flags_eq MMU_BIT_READ (by decide) h,
    and_of_flags_eq MMU_BIT_WRITE (by decide) h,
    and_of_flags_eq MMU_BIT_EXEC (by decide) h]

/-- The word that linking a fresh table leaves in an entry. -/
def tableEntry (page : Nat) : Word := withPhys (withFlags 0#64 MMU_BIT_VALID) page

/-- The word that mapping a page leaves in an entry. -/
def leafEntry (phys : Nat) (flags : Word) : Word := withPhys (withFlags 0#64 (leafFlags flags)) phys

/-- Nothing of the old entry survives `mmu_entry_set_flags` and
    `mmu_entry_set_phys` together. -/
theorem withPhys_withFlags (e flags : Word) (phys : Nat) :
    withPhys (withFlags e flags) phys = withPhys (withFlags 0#64 flags) phys := by
  unfold withPhys
  rw [flags_of_withFlags, flags_of_withFlags]

theorem flags_of_leafEntry {phys : Nat} (hphys : phys < 2 ^ 56) (flags : Word) :
    leafEntry phys flags &&& MMU_ALL_BITS = leafFlags flags &&& MMU_ALL_BITS :=
  (flags_of_withPhys _ hphys).trans (flags_of_withFlags _ _)

theorem entryPhys_leafEntry {phys : Nat} (hphys : phys < 2 ^ 56) (flags : Word) :
    entryPhys (leafEntry phys flags) = phys / 4096 * 4096 :=
  entryPhys_withPhys _ hphys

theorem valid_leafFlags (flags : Word) : mmuEntryValid (leafFlags flags) = true := by
  have hbit : (leafFlags flags &&& MMU_BIT_VALID).getLsbD 0 = true := by
    simp [leafFlags, MMU_BIT_VALID, MMU_BIT_ACCESSED, MMU_BIT_DIRTY]
  simp only [mmuEntryValid, bne_iff_ne, ne_eq]
  intro hzero
  rw [hzero] at hbit
  exact absurd hbit (by decide)

theorem valid_leafEntry {phys : Nat} (hphys : phys < 2 ^ 56) (flags : Word) :
    mmuEntryValid (leafEntry phys flags) = true :=
  (mmuEntryValid_congr (flags_of_leafEntry hphys flags)).trans (valid_leafFlags flags)

/-- `mmu_map` and `mmu_change_flags` add no permission. -/
theorem leafFlags_and {flags bit : Word} (hbit : MMU_BIT_VALID &&& bit = 0#64)
    (hacc : MMU_BIT_ACCESSED &&& bit = 0#64) (hdirty : MMU_BIT_DIRTY &&& bit = 0#64) :
    leafFlags flags &&& bit = flags &&& bit := by
  apply BitVec.eq_of_getLsbD_eq
  intro i hi
  have h1 := congrArg (·.getLsbD i) hbit
  have h2 := congrArg (·.getLsbD i) hacc
  have h3 := congrArg (·.getLsbD i) hdirty
  simp only [BitVec.getLsbD_and, BitVec.getLsbD_zero] at h1 h2 h3
  simp only [leafFlags, BitVec.getLsbD_and, BitVec.getLsbD_or]
  cases hb : bit.getLsbD i with
  | false => simp
  | true => simp [hb] at h1 h2 h3; simp [h1, h2, h3]

theorem frame_leafFlags (flags : Word) : mmuEntryFrame (leafFlags flags) = mmuEntryFrame flags := by
  simp only [mmuEntryFrame, mmuEntryRead, mmuEntryWrite, mmuEntryExec]
  rw [leafFlags_and (by decide) (by decide) (by decide),
    leafFlags_and (by decide) (by decide) (by decide),
    leafFlags_and (by decide) (by decide) (by decide)]

theorem user_leafFlags (flags : Word) : mmuEntryUser (leafFlags flags) = mmuEntryUser flags := by
  simp only [mmuEntryUser]
  rw [leafFlags_and (by decide) (by decide) (by decide)]

theorem flags_of_tableEntry {page : Nat} (hpage : page < 2 ^ 56) :
    tableEntry page &&& MMU_ALL_BITS = MMU_BIT_VALID &&& MMU_ALL_BITS :=
  (flags_of_withPhys _ hpage).trans (flags_of_withFlags _ _)

theorem tableEntry_spec {page : Nat} (hpage : page < 2 ^ 56) :
    mmuEntryValid (tableEntry page) = true ∧ mmuEntryFrame (tableEntry page) = false ∧
      entryPhys (tableEntry page) = page / 4096 * 4096 :=
  ⟨(mmuEntryValid_congr (flags_of_tableEntry hpage)).trans (by decide),
    (mmuEntryFrame_congr (flags_of_tableEntry hpage)).trans (by decide),
    entryPhys_withPhys _ hpage⟩

theorem user_leafEntry {phys : Nat} (hphys : phys < 2 ^ 56) (flags : Word) :
    mmuEntryUser (leafEntry phys flags) = mmuEntryUser flags :=
  (mmuEntryUser_congr (flags_of_leafEntry hphys flags)).trans (user_leafFlags flags)

theorem frame_leafEntry {phys : Nat} (hphys : phys < 2 ^ 56) (flags : Word) :
    mmuEntryFrame (leafEntry phys flags) = mmuEntryFrame flags :=
  (mmuEntryFrame_congr (flags_of_leafEntry hphys flags)).trans (frame_leafFlags flags)

/-- The entries of the direct map are valid frames that user code cannot reach. -/
theorem directMapEntry_spec (i : Fin 512) (hi : 256 ≤ i.val) :
    mmuEntryValid (directMapEntry i) = true ∧ mmuEntryFrame (directMapEntry i) = true ∧
      mmuEntryUser (directMapEntry i) = false := by
  have hall : ∀ i : Fin 512, 256 ≤ i.val → mmuEntryValid (directMapEntry i) = true ∧
      mmuEntryFrame (directMapEntry i) = true ∧ mmuEntryUser (directMapEntry i) = false := by
    decide +kernel
  exact hall i hi

end IloPali
