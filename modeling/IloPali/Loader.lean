import IloPali.Heap
import IloPali.Mmu
import IloPali.Process

/-!
# Loading a program (`elf.h`, `spawn_task_from_elf`)

The image is read from kernel memory, field by field where the source reads it.  Every page of
the program comes from `mmu_alloc`; the copies go to the pointers that `phys2safe` makes of the
pages.  Virtual addresses are computed modulo `2 ^ 64`.
-/

namespace IloPali

/-! ## 1. The image -/

def ELF_EXECUTABLE : Nat := 2

/-- The fields of `elf_header_t` at `header` that are used. -/
def elfType (k : Kernel) (header : Nat) : Nat := k.load 2 (header + 16)
def elfEntry (k : Kernel) (header : Nat) : Nat := k.load 8 (header + 24)
def programHeaderOffset (k : Kernel) (header : Nat) : Nat := k.load 8 (header + 32)
def programHeaderEntrySize (k : Kernel) (header : Nat) : Nat := k.load 2 (header + 54)
def programHeaderNum (k : Kernel) (header : Nat) : Nat := k.load 2 (header + 56)

/-- `elf_program_header_t`, without the physical address and the alignment. -/
structure ProgramHeader where
  type : Nat
  flags : Nat
  offset : Nat
  virtualAddr : Nat
  fileSize : Nat
  memorySize : Nat

/-- `get_elf_program_header`, and the fields behind the pointer. -/
def getElfProgramHeader (k : Kernel) (header i : Nat) : ProgramHeader :=
  let p := (header + programHeaderOffset k header + programHeaderEntrySize k header * i) % 2 ^ 64
  ⟨k.load 4 p, k.load 4 (p + 4), k.load 8 (p + 8), k.load 8 (p + 16), k.load 8 (p + 32),
    k.load 8 (p + 40)⟩

/-! ## 2. State -/

/-- The machine and `max_page`.  The other two fields are ghosts: the pages that `mmu_alloc`
    returned, and the destinations of the copies, as pointers and lengths. -/
structure Load where
  kernel : Kernel
  maxPage : Nat
  frames : List Nat
  copied : List (Nat × Nat)

namespace Load

/-- A call of `mmu_alloc`. -/
def alloc (L : Layout) (top virtAddr : Nat) (flags : Word) (s : Load) : Nat × Load :=
  let (page, k) := mmuAlloc L top virtAddr flags s.kernel
  (page, { s with kernel := k, frames := if page = 0 then s.frames else page :: s.frames })

/-- A call of `memcpy`. -/
def copy (dest src n : Nat) (s : Load) : Load :=
  { s with
    kernel := memcpy dest src n s.kernel
    copied := (dest, (dest + n) % 2 ^ 64 - dest) :: s.copied }

/-- A store to a page of the task. -/
def store (n ptr v : Nat) (s : Load) : Load :=
  { s with kernel := s.kernel.store n ptr v, copied := (ptr, n) :: s.copied }

end Load

/-! ## 3. Segments -/

/-- `flags`, from `flags_raw`. -/
def segmentFlags (flagsRaw : Nat) : Word :=
  (if flagsRaw &&& 2 ≠ 0 then MMU_BIT_WRITE else if flagsRaw &&& 1 ≠ 0 then MMU_BIT_EXEC
    else 0#64) ||| (if flagsRaw &&& 4 ≠ 0 then MMU_BIT_READ else 0#64)

/-- The number of bytes for the `i`-th page of a segment. -/
def copySize (ph : ProgramHeader) (offset i : Nat) : Nat :=
  if (ph.fileSize + offset) % 2 ^ 64 < i * PAGE_SIZE then
    if (i - 1) * PAGE_SIZE < (ph.fileSize + offset) % 2 ^ 64 then
      (ph.fileSize + 2 ^ 64 - (i - 1) * PAGE_SIZE) % 2 ^ 64
    else 0
  else PAGE_SIZE

/-- The page to copy to: the one that `mmu_alloc` returned, or else the user page that is mapped
    there. -/
def segmentPage (k : Kernel) (top virtAddr page : Nat) : Option Nat :=
  if page ≠ 0 then some page
  else
    let entry := mmuWalkToEntry k top virtAddr
    if entry = 0 ∨ mmuEntryValid (k.entry entry) = false ∨ mmuEntryFrame (k.entry entry) = false ∨
        mmuEntryUser (k.entry entry) = false then none
    else some (mmuEntryPhys k.mmu (k.entry entry))

/-- The bytes of the `i`-th page of segment `index`. -/
def copyPage (header index offset i page : Nat) (s : Load) : Load :=
  let ph := getElfProgramHeader s.kernel header index
  if ph.fileSize = 0 then s
  else
    let size := copySize ph offset i
    let source := (header + ph.offset + i * PAGE_SIZE) % 2 ^ 64
    if i = 0 then s.copy (page + offset) source (if size > 0 then size - offset else size)
    else s.copy page ((source + 2 ^ 64 - offset) % 2 ^ 64) size

/-- One step of the loop over the pages of a segment. -/
def loadPage (L : Layout) (top header index : Nat) (flags : Word) (offset i : Nat) (s : Load) :
    Load :=
  let virtAddr :=
    ((getElfProgramHeader s.kernel header index).virtualAddr + i * PAGE_SIZE) % 2 ^ 64
  let (page, s) := s.alloc L top ((virtAddr + 2 ^ 64 - offset) % 2 ^ 64) (flags ||| MMU_BIT_USER)
  match segmentPage s.kernel top virtAddr page with
  | none => s
  | some page => copyPage header index offset i (phys2safe s.kernel.mmu page)
      { s with maxPage := if virtAddr > s.maxPage then virtAddr else s.maxPage }

/-- The loop over the pages, `n` pages from the `i`-th. -/
def loadPages (L : Layout) (top header index : Nat) (flags : Word) (offset : Nat) :
    Nat → Nat → Load → Load
  | 0, _, s => s
  | n + 1, i, s =>
    loadPages L top header index flags offset n (i + 1)
      (loadPage L top header index flags offset i s)

/-- `page_count`. -/
def segmentPages (ph : ProgramHeader) : Nat :=
  (ph.memorySize + ph.virtualAddr % PAGE_SIZE + PAGE_SIZE - 1) % 2 ^ 64 / PAGE_SIZE

def loadSegment (L : Layout) (top header index : Nat) (s : Load) : Load :=
  let ph := getElfProgramHeader s.kernel header index
  if ph.type ≠ 1 then s
  else loadPages L top header index (segmentFlags ph.flags) (ph.virtualAddr % PAGE_SIZE)
    (segmentPages ph) 0 s

/-- The loop over the program headers, from `index`; it ends since their number is a `uint16_t`. -/
def loadSegments (L : Layout) (top header : Nat) : Nat → Nat → Load → Load
  | 0, _, s => s
  | n + 1, index, s =>
    if index < programHeaderNum s.kernel header then
      loadSegments L top header n (index + 1) (loadSegment L top header index s)
    else s

/-! ## 4. The stack -/

/-- `max_page`, rounded as a signed number. -/
def roundMaxPage (p : Nat) : Nat := uintptr (Int.tdiv (intptr p + PAGE_SIZE - 1) PAGE_SIZE * PAGE_SIZE)

def STACK_FLAGS : Word := MMU_BIT_READ ||| MMU_BIT_WRITE ||| MMU_BIT_USER

/-- The loop over the pages of the stack. -/
def mapStack (L : Layout) (top : Nat) : Nat → Load → Load
  | 0, s => s
  | n + 1, s =>
    mapStack L top n
      { (s.alloc L top s.maxPage STACK_FLAGS).2 with maxPage := (s.maxPage + PAGE_SIZE) % 2 ^ 64 }

/-! ## 5. The arguments -/

/-- The variables of the loops over the arguments. -/
structure Args where
  load : Load
  offset : Nat
  physical : Nat
  virtAddr : Nat
  lastVirtualPage : Nat

namespace Args

/-- The next page, with `offset` at its start. -/
def nextPage (L : Layout) (top : Nat) (a : Args) : Args :=
  let (page, s) := a.load.alloc L top a.lastVirtualPage STACK_FLAGS
  ⟨s, 0, phys2safe s.kernel.mmu page, a.lastVirtualPage, (a.lastVirtualPage + PAGE_SIZE) % 2 ^ 64⟩

/-- `if (offset >= PAGE_SIZE)`. -/
def room (L : Layout) (top : Nat) (a : Args) : Args :=
  if a.offset ≥ PAGE_SIZE then a.nextPage L top else a

/-- Store an `n`-byte word at `physical + offset`. -/
def write (n v : Nat) (a : Args) : Args :=
  { a with load := a.load.store n (a.physical + a.offset) v, offset := a.offset + n }

def putChar (L : Layout) (top : Nat) (a : Args) (c : UInt8) : Args := (a.room L top).write 1 c.toNat

/-- `args_new[i] = v`. -/
def setArg (argsNew i v : Nat) (a : Args) : Args :=
  { a with load := { a.load with kernel := a.load.kernel.store 8 (argsNew + 8 * i) v } }

/-- The loop over the strings, from the `i`-th; each is given without its final zero. -/
def copyStrings (L : Layout) (top argsNew : Nat) : Nat → List (List UInt8) → Args → Args
  | _, [], a => a
  | i, arg :: args, a =>
    let a := a.setArg argsNew i ((a.virtAddr + a.offset) % 2 ^ 64)
    copyStrings L top argsNew (i + 1) args ((arg ++ [0]).foldl (putChar L top) a)

/-- `offset += (-offset) & (sizeof(void*) - 1)`. -/
def align (a : Args) : Args := { a with offset := a.offset + (8 - a.offset % 8) % 8 }

/-- The loop over the pointers, `n` pointers from the `i`-th. -/
def copyPointers (L : Layout) (top argsNew : Nat) : Nat → Nat → Args → Args
  | 0, _, a => a
  | n + 1, i, a =>
    let a := a.room L top
    copyPointers L top argsNew n (i + 1) (a.write 8 (a.load.kernel.load 8 (argsNew + 8 * i)))

end Args

/-! ## 6. The task -/

/-- The table of a new task. -/
def taskTable (L : Layout) (pid : Nat) (k : Kernel) : Nat × Kernel :=
  if pid = 0 then (getMmu k.satp, k) else createMmuTable L k

/-- The program, up to the rounding of `max_page`. -/
def loadImage (L : Layout) (top header : Nat) (k : Kernel) : Load :=
  let s := loadSegments L top header (2 ^ 16) 0 ⟨k, 0, [], []⟩
  { s with maxPage := roundMaxPage s.maxPage }

/-- `argc` arguments behind the stack, whose end is `max_page`; `args_new` is where `malloc` put
    the pointers. -/
def loadArgs (L : Layout) (top argsNew : Nat) (args : List (List UInt8)) (s : Load) : Args × Nat :=
  let a := Args.nextPage L top ⟨s, 0, 0, 0, s.maxPage⟩
  let a := (a.copyStrings L top argsNew 0 args).align
  (a.copyPointers L top argsNew args.length 0, (a.virtAddr + a.offset) % 2 ^ 64)

/-- What a call that finds a slot for the task leaves behind. -/
structure LoadedTask where
  /-- the machine with the new table, before anything is loaded -/
  table : Kernel
  top : Nat
  image : Load
  args : Args
  heap : Heap
  loaded : Loaded

/-- The body of `spawn_task_from_elf`, for the slot `pid`. -/
def spawnTask (L : Layout) (pid header stackSize : Nat) (args : List (List UInt8)) (origin : Nat)
    (h : Heap) : LoadedTask :=
  let (top, k) := taskTable L pid h.kernel
  let image := loadImage L top header k
  let stack := mapStack L top stackSize image
  let sp := (stack.maxPage + 2 ^ 64 - PAGE_SIZE - 8) % 2 ^ 64
  let (argsNew, heap) := malloc L (8 * args.length % 2 ^ 64) origin { h with kernel := stack.kernel }
  let (a, first) := loadArgs L top argsNew args { stack with kernel := heap.kernel }
  ⟨k, top, image, a, { heap with kernel := a.load.kernel },
    ⟨top, .ofNat 64 (elfEntry a.load.kernel header), .ofNat 64 sp, .ofNat 64 args.length,
      .ofNat 64 first⟩⟩

/-- **`spawn_task_from_elf`**, with the slot of the new task. -/
def spawnTaskFromElf (L : Layout) (header stackSize : Nat) (args : List (List UInt8)) (origin : Nat)
    (s : System) (h : Heap) : Option Nat × System × Heap :=
  if elfType h.kernel header ≠ ELF_EXECUTABLE then (none, s, h)
  else
    match freeSlot s with
    | none => (none, s, h)
    | some pid =>
      let spawned := spawnTask L pid header stackSize args origin h
      (some pid, installTask s pid spawned.loaded, spawned.heap)

end IloPali
