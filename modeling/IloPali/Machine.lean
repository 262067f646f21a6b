import IloPali.Lib.ByteMemory

/-!
# The machine the kernel runs on

Physical memory, the `satp` register of the executing hart, the symbols of
`kernel.ld`, and the two address spaces a kernel pointer can live in: physical
addresses, and the direct map of `mmu.c`, which shows the physical address `p`
at `KERNEL_SPACE_OFFSET + p`.

Pointers are natural numbers below `2 ^ 64`; where the C code relies on the
wrap-around or on the signed reading of an address, the definition says so.
-/

namespace IloPali

open ByteMemory

/-- A register, a page-table entry, or any other 64-bit word. -/
abbrev Word := BitVec 64

def PAGE_SIZE : Nat := 4096
def KERNEL_SPACE_OFFSET : Nat := 0xffffffc000000000

/-- The size of the direct map: `2 ^ 64 - KERNEL_SPACE_OFFSET`. -/
def DIRECT_MAP_SIZE : Nat := 2 ^ 38

theorem KERNEL_SPACE_OFFSET_add : KERNEL_SPACE_OFFSET + DIRECT_MAP_SIZE = 2 ^ 64 := rfl

theorem DIRECT_MAP_SIZE_eq : DIRECT_MAP_SIZE = 2 ^ 38 := rfl

/-- The signed reading of an address, `(intptr_t) a`. -/
def intptr (a : Nat) : Int := if a < 2 ^ 63 then a else a - 2 ^ 64

/-- The address of a signed value, `(uintptr_t) z`. -/
def uintptr (z : Int) : Nat := (z % 2 ^ 64).toNat

theorem intptr_of_lt {a : Nat} (h : a < 2 ^ 63) : intptr a = a := if_pos h

theorem uintptr_of_nonneg {a : Nat} (h : a < 2 ^ 64) : uintptr (a : Int) = a := by
  simp only [uintptr]
  omega

/-! ## 1. Layout -/

/-- The symbols of `kernel.ld`, and `heap_bottom`, which `init_pages` computes:
    the refcount table fills `[pages_bottom, heap_bottom)` and the page heap
    starts at `heap_bottom`. -/
structure Layout where
  textStart : Nat
  dataStart : Nat
  roDataStart : Nat
  sdataStart : Nat
  sdataEnd : Nat
  stackStart : Nat
  stackTop : Nat
  pagesBottom : Nat
  heapBottom : Nat

namespace Layout

/-- The number of 16-bit entries of the refcount table. -/
def entryCount (L : Layout) : Nat := (L.heapBottom - L.pagesBottom) / 2

/-- The physical address of the page that refcount entry `i` counts. -/
def pageAddr (L : Layout) (i : Nat) : Nat := L.heapBottom + PAGE_SIZE * i

/-- The end of the last counted page. -/
def heapEnd (L : Layout) : Nat := L.pageAddr L.entryCount

/-- What `kernel.ld` and `init_pages` promise: the sections of the kernel image
    follow one another, the refcount table comes after them and starts and ends on
    a page boundary, and the counted pages have physical addresses (56 bits on
    this architecture). -/
structure WellFormed (L : Layout) : Prop where
  image : L.textStart ≤ L.dataStart ∧ L.dataStart ≤ L.roDataStart ∧ L.roDataStart ≤ L.sdataStart ∧
    L.sdataStart ≤ L.sdataEnd ∧ L.sdataEnd ≤ L.stackStart ∧ L.stackStart ≤ L.stackTop ∧
    L.stackTop ≤ L.pagesBottom
  pagesBottom_aligned : L.pagesBottom % PAGE_SIZE = 0
  heapBottom_aligned : L.heapBottom % PAGE_SIZE = 0
  pagesBottom_pos : 0 < L.pagesBottom
  table_nonneg : L.pagesBottom ≤ L.heapBottom
  heapEnd_le : L.heapEnd ≤ 2 ^ 56

/-- Every counted page can be reached by a kernel pointer: with the MMU on this
    takes the direct map, which ends at physical address `2 ^ 38`. -/
def Reachable (L : Layout) (mmu : Bool) : Prop :=
  mmu = true → L.heapEnd ≤ DIRECT_MAP_SIZE

theorem heapBottom_eq {L : Layout} (hL : L.WellFormed) :
    L.heapBottom = L.pagesBottom + 2 * L.entryCount := by
  have h1 := hL.pagesBottom_aligned
  have h2 := hL.heapBottom_aligned
  have h3 := hL.table_nonneg
  simp only [PAGE_SIZE] at h1 h2
  simp only [entryCount]
  omega

/-- The layout of the board in the Makefile (256 MiB of RAM), with a kernel image
    of 272 KiB. -/
def board : Layout where
  textStart := 0x80200000
  dataStart := 0x80210000
  roDataStart := 0x80211000
  sdataStart := 0x80213000
  sdataEnd := 0x80223800
  stackStart := 0x80225000
  stackTop := 0x80425000
  pagesBottom := 0x80426000
  heapBottom := 0x80444000

/-- A page heap of 2048 pages right behind an empty kernel image. -/
def small : Layout where
  textStart := 0x80200000
  dataStart := 0x80200000
  roDataStart := 0x80200000
  sdataStart := 0x80200000
  sdataEnd := 0x80200000
  stackStart := 0x80200000
  stackTop := 0x80200000
  pagesBottom := 0x80200000
  heapBottom := 0x80201000

theorem small_wellFormed : small.WellFormed :=
  ⟨by decide, by decide, by decide, by decide, by decide, by decide⟩

theorem board_wellFormed : board.WellFormed :=
  ⟨by decide, by decide, by decide, by decide, by decide, by decide⟩

end Layout

/-! ## 2. State -/

/-- The part of the machine the memory code works on.  `failed` is a ghost: it
    counts the calls of `alloc_pages` that did not return a cleared run of pages,
    either because the scan found none (and a line was printed), or because the
    direct map does not show the run. -/
structure Kernel where
  mem : Mem
  satp : Word
  failed : Nat

/-- `mmu_enabled`: the top bit of `satp`. -/
def mmuEnabled (satp : Word) : Bool := (satp &&& 0x8000000000000000#64) != 0#64

namespace Kernel

/-- Zeroed memory, with the MMU off. -/
def blank : Kernel := ⟨fun _ => 0, 0#64, 0⟩

/-- Whether address translation is on. -/
def mmu (k : Kernel) : Bool := mmuEnabled k.satp

@[simp] theorem mmu_mk (m : Mem) (s : Word) (u : Nat) : (Kernel.mk m s u).mmu = mmuEnabled s := rfl

end Kernel

/-- Count a failed call of `alloc_pages`. -/
def Kernel.fail (k : Kernel) : Kernel := { k with failed := k.failed + 1 }

/-! ## 3. Physical addresses and the direct map (`mmu.c`) -/

/-- `phys2safe`: the address at which the kernel may access a physical address. -/
def phys2safe (mmu : Bool) (physAddr : Nat) : Nat :=
  if mmu = true ∧ physAddr ≤ KERNEL_SPACE_OFFSET then
    if (physAddr + KERNEL_SPACE_OFFSET) % 2 ^ 64 ≥ KERNEL_SPACE_OFFSET then
      (physAddr + KERNEL_SPACE_OFFSET) % 2 ^ 64
    else 0
  else physAddr

/-- `safe2phys`: the physical address behind a kernel pointer. -/
def safe2phys (mmu : Bool) (safeAddr : Nat) : Nat :=
  if mmu = true ∧ safeAddr ≥ KERNEL_SPACE_OFFSET then safeAddr - KERNEL_SPACE_OFFSET
  else safeAddr

/-- Where a load or store through a kernel pointer lands in physical memory.
    Every table `create_mmu_table` builds shows physical memory in its upper half
    and maps the kernel's own ranges to themselves, so with the MMU on a pointer
    into the direct map is an offset into physical memory and any other kernel
    pointer is a physical address. -/
def physOf (mmu : Bool) (ptr : Nat) : Nat := safe2phys mmu ptr

@[simp] theorem phys2safe_off (p : Nat) : phys2safe false p = p := by simp [phys2safe]
@[simp] theorem safe2phys_off (p : Nat) : safe2phys false p = p := by simp [safe2phys]
@[simp] theorem physOf_off (p : Nat) : physOf false p = p := safe2phys_off p

theorem phys2safe_on {p : Nat} (h : p < DIRECT_MAP_SIZE) :
    phys2safe true p = KERNEL_SPACE_OFFSET + p := by
  have hsum := KERNEL_SPACE_OFFSET_add
  have hsize := DIRECT_MAP_SIZE_eq
  have hmod : (p + KERNEL_SPACE_OFFSET) % 2 ^ 64 = KERNEL_SPACE_OFFSET + p := by omega
  rw [phys2safe, if_pos ⟨rfl, by omega⟩, hmod, if_pos (by omega)]

theorem phys2safe_past {p : Nat} (h : DIRECT_MAP_SIZE ≤ p) (hp : p < 2 ^ 56) :
    phys2safe true p = 0 := by
  have hsum := KERNEL_SPACE_OFFSET_add
  have hsize := DIRECT_MAP_SIZE_eq
  rw [phys2safe, if_pos ⟨rfl, by omega⟩, if_neg (by omega)]

theorem safe2phys_on {a : Nat} (h : KERNEL_SPACE_OFFSET ≤ a) :
    safe2phys true a = a - KERNEL_SPACE_OFFSET :=
  if_pos ⟨rfl, h⟩

theorem safe2phys_low (mmu : Bool) {a : Nat} (h : a < KERNEL_SPACE_OFFSET) :
    safe2phys mmu a = a :=
  if_neg (by omega)

theorem physOf_low (mmu : Bool) {a : Nat} (h : a < KERNEL_SPACE_OFFSET) : physOf mmu a = a :=
  safe2phys_low mmu h

/-- A pointer `i` bytes into the kernel's view of `p` accesses `p + i`. -/
theorem physOf_phys2safe_add {mmu : Bool} {p : Nat}
    (hon : mmu = true → p < DIRECT_MAP_SIZE) (i : Nat) :
    physOf mmu (phys2safe mmu p + i) = p + i := by
  cases mmu with
  | false => simp
  | true =>
    rw [phys2safe_on (hon rfl), physOf, safe2phys_on (by omega)]
    omega

theorem safe2phys_phys2safe {mmu : Bool} {p : Nat}
    (hon : mmu = true → p < DIRECT_MAP_SIZE) : safe2phys mmu (phys2safe mmu p) = p :=
  physOf_phys2safe_add hon 0

/-- `phys2safe` leaves an address that is already in the direct map alone. -/
theorem phys2safe_phys2safe {mmu : Bool} {p : Nat} (hpos : 0 < p)
    (hon : mmu = true → p < DIRECT_MAP_SIZE) :
    phys2safe mmu (phys2safe mmu p) = phys2safe mmu p := by
  cases mmu with
  | false => simp
  | true =>
    rw [phys2safe_on (hon rfl), phys2safe, if_neg (by omega)]

theorem phys2safe_pos {mmu : Bool} {p : Nat} (hpos : 0 < p)
    (hon : mmu = true → p < DIRECT_MAP_SIZE) : 0 < phys2safe mmu p := by
  cases mmu with
  | false => simpa using hpos
  | true =>
    rw [phys2safe_on (hon rfl)]
    omega

/-! ## 4. Loads and stores through kernel pointers -/

namespace Kernel

/-- Load the `n`-byte word that `ptr` points to. -/
def load (k : Kernel) (n ptr : Nat) : Nat := ByteMemory.load k.mem n (physOf k.mmu ptr)

/-- Store the `n`-byte word `v` where `ptr` points. -/
def store (k : Kernel) (n ptr v : Nat) : Kernel :=
  { k with mem := ByteMemory.store k.mem n (physOf k.mmu ptr) v }

/-- Clear the `n` bytes that `ptr` points to. -/
def clear (k : Kernel) (ptr n : Nat) : Kernel :=
  { k with mem := zeroFill k.mem (physOf k.mmu ptr) n }

@[simp] theorem store_satp (k : Kernel) (n ptr v : Nat) : (k.store n ptr v).satp = k.satp := rfl
@[simp] theorem store_mmu (k : Kernel) (n ptr v : Nat) : (k.store n ptr v).mmu = k.mmu := rfl
@[simp] theorem store_failed (k : Kernel) (n ptr v : Nat) :
    (k.store n ptr v).failed = k.failed := rfl
@[simp] theorem clear_satp (k : Kernel) (ptr n : Nat) : (k.clear ptr n).satp = k.satp := rfl
@[simp] theorem clear_mmu (k : Kernel) (ptr n : Nat) : (k.clear ptr n).mmu = k.mmu := rfl
@[simp] theorem clear_failed (k : Kernel) (ptr n : Nat) : (k.clear ptr n).failed = k.failed := rfl

end Kernel

end IloPali
