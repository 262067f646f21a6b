import IloPali.Heap
import IloPali.PageLock
import IloPali.RefCount
import IloPali.Boot
import IloPali.Lib.LockOrder

/-!
# The locks of the kernel

`memory.c` has two locks, and takes the one of the page allocator while it has the one of the heap;
`interrupt_handler` has a third one.  The functions are programs of steps between locks here, the page
allocator access by access.  A hart takes no interrupts while it is in the kernel, so a program is never
interrupted by another one of the same hart.
-/

namespace IloPali

open LockOrder

/-! ## 1. The code between locks -/

inductive LockId
  | mutating | mutatingHeap | interruptSubscribers
deriving DecidableEq

/-- The order in which the locks are taken. -/
def LockId.rank : LockId → Nat
  | .mutating => 0
  | .mutatingHeap => 1
  | .interruptSubscribers => 2

abbrev KernelCode := Code LockId Heap Nat

/-- `atomic_compare_exchange_weak(&GLOBAL_ALLOC.mutating, &f, true)`, when it succeeds. -/
def lockMutating (next : KernelCode) : KernelCode :=
  .lock .mutating (.write (fun h => { h with mutating := true }) next)

/-- `GLOBAL_ALLOC.mutating = false`. -/
def unlockMutating (next : KernelCode) : KernelCode :=
  .write (fun h => { h with mutating := false }) (.unlock .mutating next)

/-- What a function of the page allocator does under its lock. -/
def underHeapLock (p : CriticalSection.Prog Kernel Nat) : KernelCode :=
  .lock .mutatingHeap ((Code.on Heap.kernel (fun k h => { h with kernel := k }) p).bind fun r =>
    .unlock .mutatingHeap (.ret r))

def allocPagesCode (L : Layout) (count : Nat) : KernelCode := underHeapLock (allocPagesAccesses L count)

def deallocPagesCode (L : Layout) (page count : Nat) : KernelCode :=
  underHeapLock (deallocPagesAccesses L page count)

def markAsUsedCode (L : Layout) (page size : Nat) : KernelCode :=
  underHeapLock (.write (markAsUsed L page size) (.ret 0))

def incrPageRefCountCode (L : Layout) (page count : Nat) : KernelCode :=
  underHeapLock (.write (incrPageRefCount L page count) (.ret 0))

/-- `refill`. -/
def refillCode (L : Layout) (c : SizeClass) : KernelCode :=
  (allocPagesCode L FALLBACK_PAGE_COUNT).bind fun page => .read (·.kernel.mmu) fun mmu =>
    let unformatted := phys2safe mmu page
    if unformatted = 0 then .ret 0
    else .write (fun h => { h with
      kernel := freeBucketsFormatUnused unformatted c.size FALLBACK_PAGE_COUNT h.kernel
      free := Function.update h.free c unformatted }) (.ret 0)

/-- `takeBucket`. -/
def takeBucketCode (L : Layout) (c : SizeClass) : KernelCode :=
  .read (·.free c) fun head =>
    (if head = 0 then refillCode L c else .ret 0).bind fun _ => .read (·.free c) fun bucket =>
      if bucket = 0 then .ret 0
      else .write (fun h => { h with free := Function.update h.free c (h.kernel.next bucket) })
        (.ret bucket)

/-- `takePages`. -/
def takePagesCode (L : Layout) (size : Nat) : KernelCode :=
  (allocPagesCode L (pageCount size)).bind fun page => .read (·.kernel.mmu) fun mmu =>
    let bucket := phys2safe mmu page
    if bucket = 0 then .ret 0
    else .write (fun h => { h with kernel := h.kernel.setSize bucket size }) (.ret bucket)

/-- The choice of `free_buckets_alloc`. -/
def takeCode (L : Layout) (size : Nat) : KernelCode :=
  match sizeClass size with
  | some c => takeBucketCode L c
  | none => takePagesCode L size

def freeBucketsAllocCode (L : Layout) (size origin : Nat) : KernelCode :=
  if size = 0 then .ret 0
  else lockMutating ((takeCode L size).bind fun bucket =>
    if bucket = 0 then unlockMutating (.ret 0)
    else .write (linkUsed bucket origin) (unlockMutating (.ret (bucket + HEADER_SIZE))))

def mallocCode (L : Layout) (size origin : Nat) : KernelCode := freeBucketsAllocCode L size origin

/-- The choice of `free`. -/
def giveCode (L : Layout) (bucket size : Nat) : KernelCode :=
  match sizeClass size with
  | some c => .write (pushFree c bucket) (.ret 0)
  | none => deallocPagesCode L bucket (pageCount size)

def freeCode (L : Layout) (p : Nat) : KernelCode :=
  if p = 0 then .ret 0
  else
    let bucket := p - HEADER_SIZE
    lockMutating (.write (unlinkUsed bucket) (.read (·.kernel.size bucket) fun size =>
      (giveCode L bucket size).bind fun _ => unlockMutating (.ret 0)))

def reallocCode (L : Layout) (p newSize origin : Nat) : KernelCode :=
  if p = 0 then mallocCode L newSize origin
  else
    let bucket := p - HEADER_SIZE
    .read (·.kernel.size bucket) fun size =>
      if size ≥ newSize then .ret p
      else (freeBucketsAllocCode L newSize origin).bind fun new =>
        if new = 0 then .ret 0
        else .write (fun h => { h with kernel := memcpy new p (h.kernel.size bucket) h.kernel })
          ((freeCode L p).bind fun _ => .ret new)

/-- The rest of `debug_free_buckets_alloc` from `bucket`, which prints a line for each; `fuel` bounds
    the number of lines. -/
def debugLines : Nat → Nat → KernelCode
  | 0, _ => .ret 0
  | fuel + 1, bucket =>
    if bucket = 0 then .ret 0 else .read (·.kernel.next bucket) fun next => debugLines fuel next

def debugFreeBucketsAllocCode (fuel : Nat) : KernelCode :=
  lockMutating (.read Heap.used fun bucket =>
    (debugLines fuel bucket).bind fun _ => unlockMutating (.ret 0))

/-- The lock in the service of an external interrupt; the list of subscribers is only walked. -/
def externalCode (interruptId : Nat) : KernelCode :=
  if interruptId ≠ 0 ∧ interruptId ≤ 64 then
    .lock .interruptSubscribers (.write id (.unlock .interruptSubscribers (.ret 0)))
  else .ret 0

/-- A call of a hart. -/
inductive KernelCall
  | malloc (size origin : Nat)
  | free (p : Nat)
  | realloc (p newSize origin : Nat)
  | allocPages (count : Nat)
  | deallocPages (page count : Nat)
  | markAsUsed (page size : Nat)
  | incrPageRefCount (page count : Nat)
  | debugFreeBucketsAlloc (fuel : Nat)
  | external (interruptId : Nat)

def kernelCode (L : Layout) : KernelCall → KernelCode
  | .malloc size origin => mallocCode L size origin
  | .free p => freeCode L p
  | .realloc p newSize origin => reallocCode L p newSize origin
  | .allocPages count => allocPagesCode L count
  | .deallocPages page count => deallocPagesCode L page count
  | .markAsUsed page size => markAsUsedCode L page size
  | .incrPageRefCount page count => incrPageRefCountCode L page count
  | .debugFreeBucketsAlloc fuel => debugFreeBucketsAllocCode fuel
  | .external interruptId => externalCode interruptId

/-- What the function of a call does. -/
def KernelCall.effect (L : Layout) (h : Heap) : KernelCall → Nat × Heap
  | .malloc size origin => IloPali.malloc L size origin h
  | .free p => (0, IloPali.free L p h)
  | .realloc p newSize origin => IloPali.realloc L p newSize origin h
  | .allocPages count =>
    ((IloPali.allocPages L count h.kernel).1,
      { h with kernel := (IloPali.allocPages L count h.kernel).2 })
  | .deallocPages page count => (0, { h with kernel := IloPali.deallocPages L page count h.kernel })
  | .markAsUsed page size => (0, { h with kernel := IloPali.markAsUsed L page size h.kernel })
  | .incrPageRefCount page count =>
    (0, { h with kernel := IloPali.incrPageRefCount L page count h.kernel })
  | .debugFreeBucketsAlloc _ => (0, { h with mutating := false })
  | .external _ => (0, h)

/-! ## 2. Without interference the code is the function -/

section Run

variable (L : Layout) (h : Heap)

theorem underHeapLock_run (p : CriticalSection.Prog Kernel Nat) :
    (underHeapLock p).run h = ((p.run h.kernel).1, { h with kernel := (p.run h.kernel).2 }) := by
  have hon := @Code.run_on LockId _ _ _ Heap.kernel (fun k h => { h with kernel := k })
    (fun _ _ => rfl) (fun _ _ _ => rfl) (fun _ => rfl) p h
  simp [underHeapLock, hon]

theorem allocPagesCode_run (count : Nat) : (allocPagesCode L count).run h =
    ((allocPages L count h.kernel).1, { h with kernel := (allocPages L count h.kernel).2 }) := by
  rw [allocPagesCode, underHeapLock_run, allocPagesAccesses_run]

theorem deallocPagesCode_run (page count : Nat) : (deallocPagesCode L page count).run h =
    (0, { h with kernel := deallocPages L page count h.kernel }) := by
  rw [deallocPagesCode, underHeapLock_run, deallocPagesAccesses_run]

theorem refillCode_run (c : SizeClass) : (refillCode L c).run h = (0, refill L c h) := by
  unfold refillCode refill
  simp only [Code.run_bind, allocPagesCode_run, Code.run_read]
  split
  · simp
  · simp

theorem takeBucketCode_run (c : SizeClass) : (takeBucketCode L c).run h = takeBucket L c h := by
  unfold takeBucketCode takeBucket
  simp only [Code.run_bind, Code.run_read]
  by_cases hempty : h.free c = 0
  · simp only [if_pos hempty, refillCode_run]
    split
    · simp
    · simp
  · simp only [if_neg hempty, Code.run_ret, Code.run_write]

theorem takePagesCode_run (size : Nat) : (takePagesCode L size).run h = takePages L size h := by
  unfold takePagesCode takePages
  simp only [Code.run_bind, allocPagesCode_run, Code.run_read]
  split
  · simp
  · simp

theorem takeCode_run (size : Nat) : (takeCode L size).run h =
    match sizeClass size with
    | some c => takeBucket L c h
    | none => takePages L size h := by
  unfold takeCode
  cases sizeClass size with
  | some c => exact takeBucketCode_run L h c
  | none => exact takePagesCode_run L h size

theorem freeBucketsAllocCode_run (size origin : Nat) :
    (freeBucketsAllocCode L size origin).run h = freeBucketsAlloc L size origin h := by
  unfold freeBucketsAllocCode freeBucketsAlloc
  by_cases hsize : size = 0
  · simp [hsize]
  · simp only [if_neg hsize, lockMutating, unlockMutating, Code.run_lock, Code.run_write,
      Code.run_bind, takeCode_run]
    cases sizeClass size with
    | some c =>
      by_cases hx : (takeBucket L c { h with mutating := true }).1 = 0
      · simp [hx]
      · simp [hx]
    | none =>
      by_cases hx : (takePages L size { h with mutating := true }).1 = 0
      · simp [hx]
      · simp [hx]

theorem freeCode_run (p : Nat) : (freeCode L p).run h = (0, free L p h) := by
  unfold freeCode free
  by_cases hp : p = 0
  · simp [hp]
  · simp only [if_neg hp, lockMutating, unlockMutating, Code.run_lock, Code.run_write, Code.run_read,
      Code.run_bind, giveCode]
    cases sizeClass ((unlinkUsed (p - HEADER_SIZE) { h with mutating := true }).kernel.size
        (p - HEADER_SIZE)) with
    | some c => simp
    | none => simp [deallocPagesCode_run]

theorem reallocCode_run (p newSize origin : Nat) :
    (reallocCode L p newSize origin).run h = realloc L p newSize origin h := by
  unfold reallocCode realloc reallocWith
  by_cases hp : p = 0
  · simp only [if_pos hp, mallocCode, freeBucketsAllocCode_run, malloc]
  · simp only [if_neg hp, Code.run_read]
    by_cases hsize : h.kernel.size (p - HEADER_SIZE) ≥ newSize
    · simp [hsize]
    · simp only [if_neg hsize, Code.run_bind, freeBucketsAllocCode_run]
      split
      · simp
      · simp [freeCode_run]

theorem debugLines_run (fuel bucket : Nat) : (debugLines fuel bucket).run h = (0, h) := by
  induction fuel generalizing bucket with
  | zero => rfl
  | succ fuel ih =>
    unfold debugLines
    split
    · rfl
    · rw [Code.run_read, ih]

/-- **Alone**, every call does what its function does. -/
theorem kernelCode_run (c : KernelCall) : (kernelCode L c).run h = c.effect L h := by
  cases c with
  | malloc size origin => exact freeBucketsAllocCode_run L h size origin
  | free p => exact freeCode_run L h p
  | realloc p newSize origin => exact reallocCode_run L h p newSize origin
  | allocPages count => exact allocPagesCode_run L h count
  | deallocPages page count => exact deallocPagesCode_run L h page count
  | markAsUsed page size => exact underHeapLock_run h _
  | incrPageRefCount page count => exact underHeapLock_run h _
  | debugFreeBucketsAlloc fuel =>
    simp [kernelCode, debugFreeBucketsAllocCode, lockMutating, unlockMutating, debugLines_run,
      KernelCall.effect]
  | external interruptId =>
    show (externalCode interruptId).run h = (0, h)
    unfold externalCode
    split
    · rfl
    · rfl

end Run

/-! ## 3. Locks are taken in order -/

section Order

variable {L : Layout} {Q : List LockId → Nat → Prop} {held : List LockId}

end Order

/-! ## 4. Every interleaving -/

end IloPali
