import IloPali.AddressSpace
import IloPali.InitialStack
import IloPali.Spawning

/-!
# The argument vector of a task

The strings and then the pointers to them go to user memory through a window of one page at a
time.  Seen from the first page above the stack the loops only append: `Writing` says which
bytes are there so far, and each step of the loops adds some.  The pointers are kept in
`args_new` until then, so that block must be as large as it was asked for.
-/

namespace IloPali

open ByteMemory

/-! ## 1. User memory -/

/-- The byte that user code finds at `addr`, where it may read and write. -/
def userByte (m : Mem) (ρ addr : Nat) : Option UInt8 :=
  match translation m ρ addr with
  | some (phys, flags) => if flags = STACK_FLAGS then some (m phys) else none
  | none => none

/-- User code finds the bytes from `addr` on. -/
def UserBytes (m : Mem) (ρ : Nat) : Nat → List UInt8 → Prop
  | _, [] => True
  | addr, b :: bytes => userByte m ρ addr = some b ∧ UserBytes m ρ (addr + 1) bytes

/-- The `n` low bytes of a word, as they lie in memory. -/
def wordBytes (n v : Nat) : List UInt8 := (List.range n).map fun i => UInt8.ofNat (v / 256 ^ i)

/-- User code finds the string, with the zero that ends it. -/
def UserString (m : Mem) (ρ ptr : Nat) (arg : List UInt8) : Prop :=
  0 ∉ arg ∧ UserBytes m ρ ptr (arg ++ [0])

/-- **The argument vector**: pointers to the strings, one behind the other. -/
structure ArgumentVector (m : Mem) (ρ argv : Nat) (args : List (List UInt8)) : Prop where
  aligned : argv % 8 = 0
  strings : ∃ ptrs : List Nat, UserBytes m ρ argv (ptrs.flatMap (wordBytes 8)) ∧
    List.Forall₂ (UserString m ρ) ptrs args

@[simp] theorem length_wordBytes (n v : Nat) : (wordBytes n v).length = n := by simp [wordBytes]

theorem wordBytes_one (c : UInt8) : wordBytes 1 c.toNat = [c] := by simp [wordBytes]

theorem userBytes_append {m : Mem} {ρ addr : Nat} {xs ys : List UInt8} :
    UserBytes m ρ addr (xs ++ ys) ↔
      UserBytes m ρ addr xs ∧ UserBytes m ρ (addr + xs.length) ys := by
  induction xs generalizing addr with
  | nil => simp [UserBytes]
  | cons x xs ih =>
    simp only [List.cons_append, UserBytes, ih, List.length_cons, and_assoc]
    rw [Nat.add_comm xs.length 1, Nat.add_assoc]

theorem userBytes_iff {m : Mem} {ρ addr : Nat} {bytes : List UInt8} :
    UserBytes m ρ addr bytes ↔
      ∀ i (hi : i < bytes.length), userByte m ρ (addr + i) = some bytes[i] := by
  induction bytes generalizing addr with
  | nil => simp [UserBytes]
  | cons b bytes ih =>
    rw [UserBytes, ih]
    constructor
    · rintro ⟨hb, hrest⟩ i hi
      cases i with
      | zero => exact hb
      | succ i =>
        have hnext := hrest i (Nat.lt_of_succ_lt_succ hi)
        rwa [Nat.add_assoc, Nat.add_comm 1 i] at hnext
    · intro h
      refine ⟨h 0 (Nat.succ_pos _), fun i hi => ?_⟩
      have hnext := h (i + 1) (Nat.succ_lt_succ hi)
      rwa [List.getElem_cons_succ, Nat.add_comm i 1, ← Nat.add_assoc] at hnext

/-- The room that the strings take, each with its zero. -/
def stringsSize (args : List (List UInt8)) : Nat := (args.map fun arg => arg.length + 1).sum

/-- The room that the arguments take: the strings, and the pointers on the next word boundary. -/
def argumentsSize (args : List (List UInt8)) : Nat :=
  (stringsSize args + 7) / 8 * 8 + 8 * args.length

/-! ## 2. What has been written -/

/-- Where the arguments go: `total` bytes from the page at `base` on. -/
structure ArgRoom (base total : Nat) : Prop where
  aligned : base % 4096 = 0
  start : base < DIRECT_MAP_SIZE
  fits : base + total ≤ DIRECT_MAP_SIZE

/-- The pages from `base` on that are mapped for the arguments, `n` of them, the pages above them
    that will be needed, and the bytes in them. -/
structure ArgPages (L : Layout) (t : HeapTrace) (rs : List PageRun) (free : SizeClass → List Nat)
    (ρ : Nat) (k0 : Kernel) (base total : Nat) (k : Kernel) (n : Nat) (bytes : List UInt8) :
    Prop where
  working : Working L t rs free ρ k0 k
  pages : ∀ j, j < n →
    ∃ p, TaskPage L (HeapPage L rs) ρ k0 k (getVpns (base + 4096 * j)) STACK_FLAGS p
  above : ∀ j, n ≤ j → (j = 0 ∨ 4096 * j < total) →
    ¬ Mapped k.mem ρ (getVpns (base + 4096 * j))
  below : base + 4096 * n ≤ DIRECT_MAP_SIZE
  length : bytes.length ≤ 4096 * n
  bytes : UserBytes k.mem ρ base bytes

/-- The pointers that are saved in `args_new`. -/
def SavedArgs (k : Kernel) (argsNew : Nat) (ptrs : List Nat) : Prop :=
  ∀ j (hj : j < ptrs.length), k.load 8 (argsNew + 8 * j) = ptrs[j]

/-- **The invariant of the loops**: the window is the `n`-th page, and `bytes` are the bytes up
    to `offset` in it. -/
structure Writing (L : Layout) (t : HeapTrace) (rs : List PageRun) (free : SizeClass → List Nat)
    (ρ : Nat) (k0 : Kernel) (base total argsNew : Nat) (a : Args) (n : Nat) (bytes : List UInt8)
    (ptrs : List Nat) : Prop where
  paged : ArgPages L t rs free ρ k0 base total a.load.kernel (n + 1) bytes
  virt : a.virtAddr = base + 4096 * n
  next : a.lastVirtualPage = base + 4096 * (n + 1)
  window : ∃ p, a.physical = phys2safe k0.mmu (4096 * p) ∧
    TaskPage L (HeapPage L rs) ρ k0 a.load.kernel (getVpns (base + 4096 * n)) STACK_FLAGS p
  offset : a.offset ≤ PAGE_SIZE
  length : bytes.length = 4096 * n + a.offset
  saved : SavedArgs a.load.kernel argsNew ptrs

section Pages

variable {L : Layout} (hL : L.WellFormed) {t : HeapTrace} {rs : List PageRun}
  {free : SizeClass → List Nat} {ρ : Nat} {k0 k k' : Kernel} {base total n : Nat}
  {bytes : List UInt8}

include hL

/-- What user code finds in a page of the task. -/
theorem userByte_page (hT : Tree L k ρ) {H : Nat → Prop} {addr p : Nat}
    (hp : TaskPage L H ρ k0 k (getVpns addr) STACK_FLAGS p) (haddr : addr < DIRECT_MAP_SIZE) :
    userByte k.mem ρ addr = some (k.mem (4096 * p + addr % 4096)) := by
  have hlt := hp.owned.lt hL
  have hmap : denote k.mem ρ (getVpns addr) = some (.installed (4096 * p) STACK_FLAGS) := by
    rw [denote_lower hT (getVpns_lower haddr), hp.leaf_eq]
    exact mappingOf_leafEntry hlt (by decide)
  have hflags : permissions (leafFlags STACK_FLAGS &&& MMU_ALL_BITS) = STACK_FLAGS := by decide
  have hcanonical : Canonical addr := Or.inl haddr
  unfold userByte translation
  rw [if_pos hcanonical, hmap]
  simp [Mapping.installed, hflags]

omit hL in
/-- Addresses in one page. -/
theorem getVpns_page (hbase : base % 4096 = 0) (i : Nat) :
    getVpns (base + i) = getVpns (base + 4096 * (i / 4096)) := by
  simp only [getVpns, PageNumber.mk.injEq, Fin.ext_iff, Fin.val_ofNat]
  omega

omit hL in
theorem ArgPages.page (h : ArgPages L t rs free ρ k0 base total k n bytes)
    (hbase : base % 4096 = 0) {i : Nat} (hi : i < 4096 * n) :
    ∃ p, TaskPage L (HeapPage L rs) ρ k0 k (getVpns (base + i)) STACK_FLAGS p := by
  rw [getVpns_page hbase]
  exact h.pages _ (by omega)

/-- The bytes stay where the pages do and are not written. -/
theorem ArgPages.keep (h : ArgPages L t rs free ρ k0 base total k n bytes)
    (hbase : base % 4096 = 0) (hT : Tree L k' ρ)
    (hpages : ∀ v p, TaskPage L (HeapPage L rs) ρ k0 k v STACK_FLAGS p →
      TaskPage L (HeapPage L rs) ρ k0 k' v STACK_FLAGS p)
    (hmem : ∀ i, i < bytes.length → ∀ p,
      TaskPage L (HeapPage L rs) ρ k0 k (getVpns (base + i)) STACK_FLAGS p →
      k'.mem (4096 * p + (base + i) % 4096) = k.mem (4096 * p + (base + i) % 4096)) :
    UserBytes k'.mem ρ base bytes := by
  have hbytes := userBytes_iff.mp h.bytes
  have hlen := h.length
  have hbelow := h.below
  apply userBytes_iff.mpr
  intro i hi
  obtain ⟨p, hp⟩ := h.page hbase (Nat.lt_of_lt_of_le hi hlen)
  have haddr : base + i < DIRECT_MAP_SIZE := by omega
  rw [userByte_page hL hT (hpages _ p hp) haddr, hmem i hi p hp,
    ← userByte_page hL h.working.loading.tree hp haddr, hbytes i hi]

/-- Writing to pages that hold none of the bytes. -/
theorem ArgPages.frame (h : ArgPages L t rs free ρ k0 base total k n bytes)
    (hbase : base % 4096 = 0) (hw : Working L t rs free ρ k0 k') {V : Nat → Prop}
    (hF : Frame L V k k') (hV : ∀ m, IsTable k.mem ρ m → ¬ V m)
    (hmem : ∀ i, i < bytes.length → ∀ p,
      TaskPage L (HeapPage L rs) ρ k0 k (getVpns (base + i)) STACK_FLAGS p →
      k'.mem (4096 * p + (base + i) % 4096) = k.mem (4096 * p + (base + i) % 4096)) :
    ArgPages L t rs free ρ k0 base total k' n bytes := by
  have hT := h.working.loading.tree
  refine ⟨hw, fun j hj => ?_, fun j hj hneed hmapped => ?_, h.below, h.length, ?_⟩
  · obtain ⟨p, hp⟩ := h.pages j hj
    exact ⟨p, hp.write hT hF hV⟩
  · apply h.above j hj hneed
    rcases hmapped with hhigh | hvalid
    · exact Or.inl hhigh
    · rw [hT.frame_leaf hF hV] at hvalid
      exact Or.inr hvalid
  · exact h.keep hL hbase hw.loading.tree (fun v p hp => hp.write hT hF hV) hmem

/-- **The next page.** -/
theorem ArgPages.alloc (h : ArgPages L t rs free ρ k0 base total k n bytes)
    (hroom : ArgRoom base total) (hneed : n = 0 ∨ 4096 * n < total)
    (hok : (mmuAlloc L (4096 * ρ) (base + 4096 * n) STACK_FLAGS k).2.failed = k.failed) :
    ∃ p, (mmuAlloc L (4096 * ρ) (base + 4096 * n) STACK_FLAGS k).1 = 4096 * p ∧
      TaskPage L (HeapPage L rs) ρ k0 (mmuAlloc L (4096 * ρ) (base + 4096 * n) STACK_FLAGS k).2
        (getVpns (base + 4096 * n)) STACK_FLAGS p ∧
      ArgPages L t rs free ρ k0 base total
        (mmuAlloc L (4096 * ρ) (base + 4096 * n) STACK_FLAGS k).2 (n + 1) bytes := by
  obtain ⟨hbase, hstart, hfits⟩ := hroom
  have hsize := DIRECT_MAP_SIZE_eq
  have hlen := h.length
  have hend : base + 4096 * (n + 1) ≤ DIRECT_MAP_SIZE := by omega
  have hw := h.working.alloc hL userFlags_stack hok
  have hkeep : ∀ v p, TaskPage L (HeapPage L rs) ρ k0 k v STACK_FLAGS p →
      TaskPage L (HeapPage L rs) ρ k0
        (mmuAlloc L (4096 * ρ) (base + 4096 * n) STACK_FLAGS k).2 v STACK_FLAGS p :=
    fun v p hp => hp.alloc h.working.loading hL hok
  rcases mmuAlloc_spec hL h.working.loading.tree hok with ⟨hm, _⟩ | ⟨hunmapped, p, hpage, hp⟩
  · exact absurd hm (h.above n (le_refl n) hneed)
  have hnew := h.working.loading.taskPage userFlags_stack hunmapped hp
  refine ⟨p, hpage, hnew, hw, fun j hj => ?_, fun j hj hneed' hmapped => ?_, hend, by omega, ?_⟩
  · rcases Nat.lt_or_ge j n with hlt | hge
    · obtain ⟨q, hq⟩ := h.pages j hlt
      exact ⟨q, hkeep _ q hq⟩
    · obtain rfl : j = n := by omega
      exact ⟨p, hnew⟩
  · -- the pages above are still unmapped
    have hne : getVpns (base + 4096 * j) ≠ getVpns (base + 4096 * n) := by
      intro heq
      rw [getVpns_eq_iff (by omega) (by omega)] at heq
      omega
    apply h.above j (by omega) hneed'
    rcases hmapped with hhigh | hvalid
    · exact Or.inl hhigh
    · rw [hp.leaf_eq, if_neg hne] at hvalid
      exact Or.inr hvalid
  · apply h.keep hL hbase hw.loading.tree hkeep
    intro i _ q hq
    exact hp.evolves.frame.page hq.owned hq.notTable (by omega)

end Pages

/-! ## 3. The steps of the loops -/

section Steps

variable {L : Layout} (hL : L.WellFormed) {t : HeapTrace} {rs : List PageRun}
  {free : SizeClass → List Nat} {ρ : Nat} {k0 k k' : Kernel} {base total argsNew size n : Nat}
  {a : Args} {bytes : List UInt8} {ptrs : List Nat}

include hL

/-- A word of a block stays where other pages are written. -/
theorem InBlock.load_frame {m i : Nat} (h : InBlock L k.mmu rs argsNew m)
    (hpages : HeapPages L k rs) {V : Nat → Prop} (hF : Frame L V k k')
    (hV : ∀ n, HeapPage L rs n → ¬ V n) (hi : 8 * i + 8 ≤ m) :
    k'.load 8 (argsNew + 8 * i) = k.load 8 (argsNew + 8 * i) := by
  obtain ⟨b, len, rfl, hb, hlen⟩ := h
  have hmmu := hF.mmu
  have hdir := (hpages.toRunsPlaced.headersApart hL).direct b (List.mem_map_of_mem hb)
  have hphys := hdir.physOf_add (HEADER_SIZE + 8 * i)
  rw [← Nat.add_assoc] at hphys
  rw [Kernel.load, Kernel.load, hmmu, hphys]
  apply load_congr
  intro x h1 h2
  have hpage := heapPage_of_piece hL hpages.toRunsPlaced hb (x := x)
    (by dsimp only; omega) (by dsimp only; omega)
  exact hF.page (hpages.owned hpage) (hV _ hpage) rfl

theorem SavedArgs.frame (h : SavedArgs k argsNew ptrs) (hblock : InBlock L k.mmu rs argsNew (8 * size))
    (hsize : ptrs.length ≤ size) (hpages : HeapPages L k rs) {V : Nat → Prop} (hF : Frame L V k k')
    (hV : ∀ n, HeapPage L rs n → ¬ V n) : SavedArgs k' argsNew ptrs := by
  intro j hj
  rw [hblock.load_frame hL hpages hF hV (by omega)]
  exact h j hj

/-- **A store to the window** appends the bytes of the word. -/
theorem Writing.write (h : Writing L t rs free ρ k0 base total argsNew a n bytes ptrs)
    (hroom : ArgRoom base total) (hblock : InBlock L k0.mmu rs argsNew (8 * size))
    (hsize : ptrs.length ≤ size) {w : Nat} (v : Nat) (hw : a.offset + w ≤ PAGE_SIZE) :
    Writing L t rs free ρ k0 base total argsNew (a.write w v) n (bytes ++ wordBytes w v) ptrs := by
  obtain ⟨p, hphys, hp⟩ := h.window
  have hwork := h.paged.working
  have hmmu := hwork.mmu
  have hT := hwork.loading.tree
  have hwindow : Window L rs ρ k0 a.load.kernel p := Or.inr ⟨_, _, hp⟩
  have hptr := hwindow.pointer hmmu a.offset
  have hlen := h.length
  have hbelow := h.paged.below
  have hbase := hroom.aligned
  have hsize' := DIRECT_MAP_SIZE_eq
  rw [PAGE_SIZE] at hw
  have hstore : (a.write w v).load.kernel.mem =
      patch a.load.kernel.mem (4096 * p + a.offset) w fun i => UInt8.ofNat (v / 256 ^ i) := by
    unfold Args.write Load.store Kernel.store
    dsimp only
    rw [hphys, hptr]
    rfl
  have hF : Frame L (· = p) a.load.kernel (a.write w v).load.kernel := by
    apply hwindow.frame hL
    · intro x hx
      rw [hstore]
      exact patch_outside _ _ (by omega)
    · rfl
  have hV : ∀ m, IsTable a.load.kernel.mem ρ m → ¬ m = p := by
    rintro m hm rfl
    exact hp.notTable hm
  have hp' := hp.write hT hF hV
  have hwork' : Working L t rs free ρ k0 (a.write w v).load.kernel := hwork.page hL hwindow hF rfl
  -- the bytes before are in other pages, or before `offset` in this one
  have hkept : ArgPages L t rs free ρ k0 base total (a.write w v).load.kernel (n + 1) bytes := by
    apply h.paged.frame hL hbase hwork' hF hV
    intro i hi q hq
    rw [hstore]
    apply patch_outside
    by_cases hpq : q = p
    · subst hpq
      have hsame := hwork.loading.page_unique hL hq hp
      rw [getVpns_eq_iff (by omega) (by omega)] at hsame
      omega
    · omega
  refine ⟨⟨hwork', hkept.pages, hkept.above, hkept.below, ?_, ?_⟩, h.virt, h.next, ⟨p, hphys, hp'⟩, ?_,
    ?_, ?_⟩
  · rw [List.length_append, length_wordBytes]
    omega
  · refine userBytes_append.mpr ⟨hkept.bytes, userBytes_iff.mpr fun i hi => ?_⟩
    rw [length_wordBytes] at hi
    have hpage : getVpns (base + 4096 * n) = getVpns (base + bytes.length + i) := by
      rw [getVpns_eq_iff (by omega) (by omega)]
      omega
    rw [hpage] at hp'
    rw [userByte_page hL hwork'.loading.tree hp' (by omega), hstore,
      patch_inside _ _ (by omega) (by omega)]
    simp only [wordBytes, List.getElem_map, List.getElem_range, Option.some.injEq]
    congr 3
    omega
  · rw [PAGE_SIZE]
    exact hw
  · rw [List.length_append, length_wordBytes, hlen]
    exact Nat.add_assoc _ _ _
  · rw [← hmmu] at hblock
    apply h.saved.frame hL hblock hsize hwork.heap.lists.pages hF
    rintro m hm rfl
    exact hp.notHeap hm

/-- **Room** for one more byte. -/
theorem Writing.room (h : Writing L t rs free ρ k0 base total argsNew a n bytes ptrs)
    (hroom : ArgRoom base total) (hblock : InBlock L k0.mmu rs argsNew (8 * size))
    (hsize : ptrs.length ≤ size) (hmore : bytes.length < total)
    (hok : (a.room L (4096 * ρ)).load.kernel.failed = a.load.kernel.failed) :
    ∃ n', Writing L t rs free ρ k0 base total argsNew (a.room L (4096 * ρ)) n' bytes ptrs ∧
      (a.room L (4096 * ρ)).offset < PAGE_SIZE := by
  have hlen := h.length
  have hoffset := h.offset
  unfold Args.room at hok ⊢
  split
  · rename_i hfull
    rw [if_pos hfull] at hok
    have hfull' : a.offset = 4096 := Nat.le_antisymm hoffset hfull
    have hnext := h.next
    have hwork := h.paged.working
    unfold Args.nextPage Load.alloc at hok ⊢
    dsimp only at hok ⊢
    rw [hnext] at hok ⊢
    have hspec := mmuAlloc_spec hL hwork.loading.tree hok
    obtain ⟨p, hpage, hp, hpaged⟩ := h.paged.alloc hL hroom (by omega) hok
    have hbelow := hpaged.below
    have hmmu := hpaged.working.mmu
    have hsize' := DIRECT_MAP_SIZE_eq
    refine ⟨n + 1, ⟨hpaged, rfl, ?_, ⟨p, ?_, hp⟩, Nat.zero_le _, ?_, ?_⟩, (by decide : 0 < PAGE_SIZE)⟩
    · dsimp only
      rw [PAGE_SIZE, Nat.mod_eq_of_lt (by omega)]
      omega
    · dsimp only
      rw [hpage, hmmu]
    · dsimp only
      omega
    · have hmmu' := hwork.mmu
      rw [← hmmu'] at hblock
      have hpages := hwork.heap.lists.pages
      rcases hspec with ⟨_, _, hF⟩ | ⟨_, q, _, hq⟩
      · exact h.saved.frame hL hblock hsize hpages hF fun _ _ hn => hn
      · exact h.saved.frame hL hblock hsize hpages hq.evolves.frame
          fun m hm ht => (hwork.loading.heap m hm).2 ht
  · rename_i hfull
    exact ⟨n, h, Nat.not_le.mp hfull⟩

theorem Writing.putChar (h : Writing L t rs free ρ k0 base total argsNew a n bytes ptrs)
    (hroom : ArgRoom base total) (hblock : InBlock L k0.mmu rs argsNew (8 * size))
    (hsize : ptrs.length ≤ size) (c : UInt8) (hmore : bytes.length < total)
    (hok : (a.putChar L (4096 * ρ) c).load.kernel.failed = a.load.kernel.failed) :
    ∃ n', Writing L t rs free ρ k0 base total argsNew (a.putChar L (4096 * ρ) c) n' (bytes ++ [c])
      ptrs := by
  obtain ⟨n', hnext, hlt⟩ := h.room hL hroom hblock hsize hmore hok
  have hwritten := hnext.write hL hroom hblock hsize (w := 1) c.toNat hlt
  rw [wordBytes_one] at hwritten
  exact ⟨n', hwritten⟩

theorem Writing.putChars (h : Writing L t rs free ρ k0 base total argsNew a n bytes ptrs)
    (hroom : ArgRoom base total) (hblock : InBlock L k0.mmu rs argsNew (8 * size))
    (hsize : ptrs.length ≤ size) (cs : List UInt8) (hmore : bytes.length + cs.length ≤ total)
    (hok : (cs.foldl (Args.putChar L (4096 * ρ)) a).load.kernel.failed = a.load.kernel.failed) :
    ∃ n', Writing L t rs free ρ k0 base total argsNew (cs.foldl (Args.putChar L (4096 * ρ)) a) n'
      (bytes ++ cs) ptrs := by
  induction cs generalizing a n bytes with
  | nil => exact ⟨n, by rwa [List.append_nil]⟩
  | cons c cs ih =>
    rw [List.foldl_cons] at hok ⊢
    rw [List.length_cons] at hmore
    have hfirst := putChar_failed_le L (4096 * ρ) a c
    have hrest := putChars_failed_le L (4096 * ρ) cs (a.putChar L (4096 * ρ) c)
    obtain ⟨n', hput⟩ := h.putChar hL hroom hblock hsize c (by omega) (by omega)
    rw [List.append_cons]
    apply ih hput
    · rw [List.length_append, List.length_singleton]
      omega
    · omega

/-- **Saving a pointer** in `args_new`. -/
theorem Writing.setArg (h : Writing L t rs free ρ k0 base total argsNew a n bytes ptrs)
    (hroom : ArgRoom base total) (hblock : InBlock L k0.mmu rs argsNew (8 * size))
    (hsize : ptrs.length < size) {v : Nat} (hv : v < 2 ^ 64) :
    Writing L t rs free ρ k0 base total argsNew (a.setArg argsNew ptrs.length v) n bytes
      (ptrs ++ [v]) := by
  obtain ⟨p, hphys, hp⟩ := h.window
  have hwork := h.paged.working
  have hT := hwork.loading.tree
  have hpages := hwork.heap.lists.pages
  have hmmu := hwork.mmu
  rw [← hmmu] at hblock
  obtain ⟨q, hq, hw⟩ := @InBlock.writes L hL rs argsNew ptrs.length (8 * size) v a.load.kernel hblock
    hpages.toRunsPlaced (by omega)
  have hF := hw.heapFrame hL hpages hq
  have hV : ∀ m, IsTable a.load.kernel.mem ρ m → ¬ HeapPage L rs m :=
    fun m hm hn => (hwork.loading.heap m hn).2 hm
  have hdirect : ∀ j, Direct a.load.kernel.mmu (argsNew + 8 * j) := by
    obtain ⟨b, len, rfl, hb, _⟩ := hblock
    intro j
    rw [Nat.add_assoc]
    exact ((hpages.toRunsPlaced.headersApart hL).direct b (List.mem_map_of_mem hb)).add _
  refine ⟨?_, h.virt, h.next, ⟨p, hphys, hp.write hT hF hV⟩, h.offset, h.length, fun j hj => ?_⟩
  · apply h.paged.frame hL hroom.aligned (hwork.block hL hq hw rfl) hF hV
    intro i _ r hr
    exact hF.page hr.owned hr.notHeap (by omega)
  · rw [List.length_append, List.length_singleton] at hj
    unfold Args.setArg
    dsimp only
    rcases Nat.lt_or_ge j ptrs.length with hlt | hge
    · rw [List.getElem_append_left hlt, ← h.saved j hlt]
      exact Kernel.load_store_apart _ (hdirect _) (hdirect _) v (Or.inr (by omega))
    · obtain rfl : j = ptrs.length := by omega
      rw [List.getElem_append_right (le_refl _), Kernel.load_store_same _ _ hv]
      simp

/-- **The alignment** skips bytes of the page. -/
theorem Writing.align (h : Writing L t rs free ρ k0 base total argsNew a n bytes ptrs)
    (hroom : ArgRoom base total) : ∃ pad, (bytes.length + pad.length) = (bytes.length + 7) / 8 * 8 ∧
      Writing L t rs free ρ k0 base total argsNew a.align n (bytes ++ pad) ptrs := by
  obtain ⟨p, hphys, hp⟩ := h.window
  have hlen := h.length
  have hoffset := h.offset
  have hbelow := h.paged.below
  have hbase := hroom.aligned
  have hsize' := DIRECT_MAP_SIZE_eq
  rw [PAGE_SIZE] at hoffset
  refine ⟨(List.range ((8 - a.offset % 8) % 8)).map
    fun i => a.load.kernel.mem (4096 * p + a.offset + i), ?_, ?_⟩
  · rw [List.length_map, List.length_range]
    omega
  · have hpaged := h.paged
    refine ⟨⟨hpaged.working, hpaged.pages, hpaged.above, hpaged.below, ?_, ?_⟩, h.virt, h.next,
      ⟨p, hphys, hp⟩, ?_, ?_, h.saved⟩
    · rw [List.length_append, List.length_map, List.length_range]
      omega
    · refine userBytes_append.mpr ⟨hpaged.bytes, userBytes_iff.mpr fun i hi => ?_⟩
      rw [List.length_map, List.length_range] at hi
      have hpage : getVpns (base + 4096 * n) = getVpns (base + bytes.length + i) := by
        rw [getVpns_eq_iff (by omega) (by omega)]
        omega
      rw [hpage] at hp
      unfold Args.align
      dsimp only
      rw [userByte_page hL hpaged.working.loading.tree hp (by omega), List.getElem_map,
        List.getElem_range]
      congr 2
      omega
    · unfold Args.align
      dsimp only
      rw [PAGE_SIZE]
      omega
    · unfold Args.align
      rw [List.length_append, List.length_map, List.length_range, hlen]
      exact Nat.add_assoc _ _ _

end Steps

/-! ## 4. The loops -/

/-- Where the strings start that lie one behind the other from `ptr` on. -/
def pointersTo : Nat → List (List UInt8) → List Nat
  | _, [] => []
  | ptr, arg :: args => ptr :: pointersTo (ptr + (arg.length + 1)) args

/-- The strings, each with its zero. -/
def stringBytes (args : List (List UInt8)) : List UInt8 := args.flatMap fun arg => arg ++ [0]

theorem length_pointersTo (ptr : Nat) (args : List (List UInt8)) :
    (pointersTo ptr args).length = args.length := by
  induction args generalizing ptr with
  | nil => rfl
  | cons arg args ih => rw [pointersTo, List.length_cons, List.length_cons, ih]

theorem length_stringBytes (args : List (List UInt8)) :
    (stringBytes args).length = stringsSize args := by
  simp [stringBytes, stringsSize, List.length_flatMap]

/-- The pointers lead to the strings. -/
theorem userStrings {m : Mem} {ρ ptr : Nat} {args : List (List UInt8)}
    (h : UserBytes m ρ ptr (stringBytes args)) (hargs : ∀ arg ∈ args, 0 ∉ arg) :
    List.Forall₂ (UserString m ρ) (pointersTo ptr args) args := by
  induction args generalizing ptr with
  | nil => exact List.Forall₂.nil
  | cons arg args ih =>
    rw [stringBytes, List.flatMap_cons] at h
    obtain ⟨hfirst, hrest⟩ := userBytes_append.mp h
    rw [List.length_append, List.length_singleton] at hrest
    apply List.Forall₂.cons
    · exact ⟨hargs arg List.mem_cons_self, hfirst⟩
    · exact ih hrest fun x hx => hargs x (List.mem_cons_of_mem arg hx)

section Loops

variable {L : Layout} (hL : L.WellFormed) {t : HeapTrace} {rs : List PageRun}
  {free : SizeClass → List Nat} {ρ : Nat} {k0 k k' : Kernel} {base total argsNew size n : Nat}
  {a : Args} {bytes : List UInt8} {ptrs : List Nat}

include hL

/-- **The loop over the strings.** -/
theorem Writing.copyStrings (h : Writing L t rs free ρ k0 base total argsNew a n bytes ptrs)
    (hroom : ArgRoom base total) (hblock : InBlock L k0.mmu rs argsNew (8 * size))
    (args : List (List UInt8)) (hsize : ptrs.length + args.length ≤ size)
    (hmore : bytes.length + stringsSize args ≤ total)
    (hok : (a.copyStrings L (4096 * ρ) argsNew ptrs.length args).load.kernel.failed =
      a.load.kernel.failed) :
    ∃ n', Writing L t rs free ρ k0 base total argsNew
      (a.copyStrings L (4096 * ρ) argsNew ptrs.length args) n' (bytes ++ stringBytes args)
      (ptrs ++ pointersTo (base + bytes.length) args) := by
  induction args generalizing a n bytes ptrs with
  | nil =>
    refine ⟨n, ?_⟩
    rw [stringBytes, List.flatMap_nil, pointersTo, List.append_nil, List.append_nil]
    exact h
  | cons arg args ih =>
    have hfits := hroom.fits
    have hlen := h.length
    have hvirt := h.virt
    have hbelow := h.paged.below
    have hsize' := DIRECT_MAP_SIZE_eq
    rw [List.length_cons] at hsize
    rw [stringsSize, List.map_cons, List.sum_cons, ← stringsSize] at hmore
    rw [Args.copyStrings] at hok ⊢
    have hptr : (a.virtAddr + a.offset) % 2 ^ 64 = base + bytes.length := by
      have hoffset := h.offset
      rw [PAGE_SIZE] at hoffset
      rw [Nat.mod_eq_of_lt (by omega)]
      omega
    rw [hptr] at hok ⊢
    have hset := h.setArg hL hroom hblock (by omega) (by omega : base + bytes.length < 2 ^ 64)
    have hfirst := putChars_failed_le L (4096 * ρ) (arg ++ [0])
      (a.setArg argsNew ptrs.length (base + bytes.length))
    have hrest := copyStrings_failed_le L (4096 * ρ) argsNew (ptrs.length + 1) args
      ((arg ++ [0]).foldl (Args.putChar L (4096 * ρ))
        (a.setArg argsNew ptrs.length (base + bytes.length)))
    have hsame : (a.setArg argsNew ptrs.length (base + bytes.length)).load.kernel.failed =
        a.load.kernel.failed := rfl
    have hlen' : (ptrs ++ [base + bytes.length]).length = ptrs.length + 1 := by
      rw [List.length_append, List.length_singleton]
    have harg : (arg ++ [0]).length = arg.length + 1 := by
      rw [List.length_append, List.length_singleton]
    obtain ⟨n', hput⟩ := hset.putChars hL hroom hblock (by omega) (arg ++ [0]) (by omega) (by omega)
    rw [← hlen'] at hok hrest ⊢
    have hnew : (bytes ++ (arg ++ [0])).length = bytes.length + (arg.length + 1) := by
      rw [List.length_append, harg]
    have hdone := ih hput (by omega) (by omega) (by omega)
    rw [hnew, ← Nat.add_assoc, List.append_assoc bytes] at hdone
    rw [stringBytes, List.flatMap_cons, ← stringBytes, pointersTo,
      List.append_cons ptrs _ (pointersTo _ args)]
    exact hdone

/-- **The loop over the pointers.** -/
theorem Writing.copyPointers (h : Writing L t rs free ρ k0 base total argsNew a n bytes ptrs)
    (hroom : ArgRoom base total) (hblock : InBlock L k0.mmu rs argsNew (8 * size))
    (hsize : ptrs.length ≤ size) (halign : a.offset % 8 = 0) (i cnt : Nat)
    (hi : i + cnt = ptrs.length) (hmore : bytes.length + 8 * cnt ≤ total)
    (hok : (a.copyPointers L (4096 * ρ) argsNew cnt i).load.kernel.failed = a.load.kernel.failed) :
    ∃ n', Writing L t rs free ρ k0 base total argsNew
      (a.copyPointers L (4096 * ρ) argsNew cnt i) n'
      (bytes ++ (ptrs.drop i).flatMap (wordBytes 8)) ptrs := by
  induction cnt generalizing i a n bytes with
  | zero =>
    refine ⟨n, ?_⟩
    rw [List.drop_eq_nil_of_le (by omega), List.flatMap_nil, List.append_nil]
    exact h
  | succ cnt ih =>
    rw [Args.copyPointers] at hok ⊢
    have hfirst := room_failed_le L (4096 * ρ) a
    have hrest := copyPointers_failed_le L (4096 * ρ) argsNew cnt (i + 1)
      ((a.room L (4096 * ρ)).write 8
        ((a.room L (4096 * ρ)).load.kernel.load 8 (argsNew + 8 * i)))
    have hsame : ((a.room L (4096 * ρ)).write 8 ((a.room L (4096 * ρ)).load.kernel.load 8
        (argsNew + 8 * i))).load.kernel.failed = (a.room L (4096 * ρ)).load.kernel.failed := rfl
    have hlt : i < ptrs.length := by omega
    obtain ⟨n', hnext, hin⟩ := h.room hL hroom hblock hsize (by omega) (by omega)
    have halign' : (a.room L (4096 * ρ)).offset % 8 = 0 := by
      unfold Args.room
      split
      · rfl
      · exact halign
    rw [PAGE_SIZE] at hin
    have hload := hnext.saved i hlt
    rw [hload] at hok hrest hsame ⊢
    have hwritten := hnext.write hL hroom hblock hsize (w := 8) ptrs[i] (by rw [PAGE_SIZE]; omega)
    have hdone := ih hwritten
      (show ((a.room L (4096 * ρ)).offset + 8) % 8 = 0 by omega) (i := i + 1) (by omega)
      (by rw [List.length_append, length_wordBytes]; omega) (by omega)
    rw [List.append_assoc] at hdone
    rw [List.drop_eq_getElem_cons hlt, List.flatMap_cons]
    exact hdone

/-- **All arguments.** -/
theorem argumentVector_loadArgs {s : Load} (h : Working L t rs free ρ k0 s.kernel)
    {args : List (List UInt8)} (hroom : ArgRoom s.maxPage (argumentsSize args))
    (habove : ∀ j, (j = 0 ∨ 4096 * j < argumentsSize args) →
      ¬ Mapped s.kernel.mem ρ (getVpns (s.maxPage + 4096 * j)))
    (hargs : ∀ arg ∈ args, 0 ∉ arg)
    (hblock : args ≠ [] → InBlock L k0.mmu rs argsNew (8 * args.length))
    (hok : (loadArgs L (4096 * ρ) argsNew args s).1.load.kernel.failed = s.kernel.failed) :
    ArgumentVector (loadArgs L (4096 * ρ) argsNew args s).1.load.kernel.mem ρ
      (loadArgs L (4096 * ρ) argsNew args s).2 args := by
  have hsize := DIRECT_MAP_SIZE_eq
  have hbase := hroom.aligned
  have hstart := hroom.start
  have hfits := hroom.fits
  unfold loadArgs at hok ⊢
  dsimp only at hok ⊢
  have hfirst := nextPage_failed_le L (4096 * ρ) ⟨s, 0, 0, 0, s.maxPage⟩
  have hstrings := copyStrings_failed_le L (4096 * ρ) argsNew 0 args
    (Args.nextPage L (4096 * ρ) ⟨s, 0, 0, 0, s.maxPage⟩)
  have hpointers := copyPointers_failed_le L (4096 * ρ) argsNew args.length 0
    (((Args.nextPage L (4096 * ρ) ⟨s, 0, 0, 0, s.maxPage⟩).copyStrings L (4096 * ρ) argsNew 0
      args).align)
  have hpages : ArgPages L t rs free ρ k0 s.maxPage (argumentsSize args) s.kernel 0 [] :=
    ⟨h, fun _ hj => absurd hj (Nat.not_lt_zero _), fun j _ hj => habove j hj, by omega, Nat.zero_le _,
      trivial⟩
  have halign : ((Args.nextPage L (4096 * ρ) ⟨s, 0, 0, 0, s.maxPage⟩).copyStrings L (4096 * ρ) argsNew
      0 args).align.load.kernel.failed = ((Args.nextPage L (4096 * ρ)
        ⟨s, 0, 0, 0, s.maxPage⟩).copyStrings L (4096 * ρ) argsNew 0 args).load.kernel.failed := rfl
  -- the first page
  have hpage : Writing L t rs free ρ k0 s.maxPage (argumentsSize args) argsNew
      (Args.nextPage L (4096 * ρ) ⟨s, 0, 0, 0, s.maxPage⟩) 0 [] [] := by
    have hok' : (Args.nextPage L (4096 * ρ) ⟨s, 0, 0, 0, s.maxPage⟩).load.kernel.failed =
        s.kernel.failed := by
      dsimp only at hfirst
      omega
    obtain ⟨p, hphys, hp, hpaged⟩ := hpages.alloc hL hroom (Or.inl rfl) hok'
    have hmmu := hpaged.working.mmu
    unfold Args.nextPage Load.alloc
    refine ⟨hpaged, rfl, ?_, ⟨p, ?_, hp⟩, Nat.zero_le _, rfl, fun _ hj => (nomatch hj)⟩
    · dsimp only
      rw [PAGE_SIZE]
      omega
    · rw [Nat.mul_zero, Nat.add_zero] at hphys hmmu
      dsimp only
      rw [hphys, hmmu]
  generalize Args.nextPage L (4096 * ρ) ⟨s, 0, 0, 0, s.maxPage⟩ = a
    at hok hfirst hstrings hpointers halign hpage ⊢
  dsimp only at hfirst
  by_cases hne : args = []
  · -- nothing is written
    subst hne
    have hvirt := hpage.virt
    have hlen := hpage.length
    rw [List.length_nil] at hlen
    have hfirst : ((a.copyStrings L (4096 * ρ) argsNew 0 []).align.virtAddr +
        (a.copyStrings L (4096 * ρ) argsNew 0 []).align.offset) % 2 ^ 64 = s.maxPage := by
      unfold Args.copyStrings Args.align
      dsimp only
      omega
    rw [hfirst]
    exact ⟨by omega, [], trivial, List.Forall₂.nil⟩
  have hblock := hblock hne
  have htotal : argumentsSize args = (stringsSize args + 7) / 8 * 8 + 8 * args.length := rfl
  obtain ⟨n, hcopied⟩ := hpage.copyStrings hL hroom hblock args (by rw [List.length_nil]; omega) (by rw [List.length_nil]; omega)
    (by rw [List.length_nil]; omega)
  rw [List.nil_append, List.nil_append] at hcopied
  change Writing L t rs free ρ k0 s.maxPage (argumentsSize args) argsNew
    (a.copyStrings L (4096 * ρ) argsNew 0 args) n (stringBytes args) (pointersTo s.maxPage args)
    at hcopied
  obtain ⟨pad, hpad, haligned⟩ := hcopied.align hL hroom
  rw [length_stringBytes] at hpad
  have hptrs := length_pointersTo s.maxPage args
  have hoffset : (a.copyStrings L (4096 * ρ) argsNew 0 args).align.offset % 8 = 0 := by
    unfold Args.align
    dsimp only
    omega
  have hstart' := haligned.length
  have hvirt := haligned.virt
  have hbelow := haligned.paged.below
  rw [List.length_append, length_stringBytes] at hstart'
  generalize (a.copyStrings L (4096 * ρ) argsNew 0 args).align = b at *
  obtain ⟨n', hdone⟩ := haligned.copyPointers hL hroom hblock (by omega) hoffset 0 args.length
    (by omega) (by rw [List.length_append, length_stringBytes]; omega) (by omega)
  rw [List.drop_zero] at hdone
  obtain ⟨hleft, hright⟩ := userBytes_append.mp hdone.paged.bytes
  have hstring := (userBytes_append.mp hleft).1
  rw [List.length_append, length_stringBytes] at hright
  have hargv : (b.virtAddr + b.offset) % 2 ^ 64 =
      s.maxPage + (stringsSize args + pad.length) := by
    rw [Nat.mod_eq_of_lt (by omega)]
    omega
  rw [hargv]
  refine ⟨by omega, pointersTo s.maxPage args, hright, userStrings hstring hargs⟩

end Loops

/-! ## 5. The new task -/

/-- The pages above the stack that the arguments need are unmapped pages of user space. -/
def LoadedTask.AboveUnmapped (L : Layout) (stackSize : Nat) (args : List (List UInt8))
    (p : LoadedTask) : Prop :=
  ∀ j, (j = 0 ∨ PAGE_SIZE * j < argumentsSize args) →
    p.stackPage (stackSize + j) < DIRECT_MAP_SIZE ∧
      ¬ Mapped (p.stack L stackSize).kernel.mem (p.top / PAGE_SIZE)
        (getVpns (p.stackPage (stackSize + j)))

/-- The arguments of the task: their number in `a0`, and in `a1` the argument vector. -/
def HasArguments (m : Mem) (task : Task) (args : List (List UInt8)) : Prop :=
  (task.trap.xs 10).toNat = args.length ∧
    ArgumentVector m (task.mmuData / PAGE_SIZE) (task.trap.xs 11).toNat args

theorem installTask_args (s : System) (pid : Nat) (p : Loaded) :
    ((installTask s pid p).tasks pid).trap.xs 10 = p.argc ∧
      ((installTask s pid p).tasks pid).trap.xs 11 = p.argv ∧
      ((installTask s pid p).tasks pid).mmuData = p.top := by
  simp [installTask, scheduleTask_tasks, System.setTask]

theorem loadArgs_lt (L : Layout) (top argsNew : Nat) (args : List (List UInt8)) (s : Load) :
    (loadArgs L top argsNew args s).2 < 2 ^ 64 := Nat.mod_lt _ (Nat.two_pow_pos 64)

section NewTask

variable {L : Layout} {stackSize pid header origin : Nat} {args : List (List UInt8)} {h : Heap}

theorem stack_maxPage (j : Nat) :
    (spawnTask L pid header stackSize args origin h).stackPage (stackSize + j) =
      (((spawnTask L pid header stackSize args origin h).stack L stackSize).maxPage +
        4096 * j) % 2 ^ 64 := by
  have hlt : (spawnTask L pid header stackSize args origin h).image.maxPage < 2 ^ 64 :=
    roundMaxPage_lt _
  have hmax := mapStack_maxPage L (spawnTask L pid header stackSize args origin h).top stackSize hlt
  rw [LoadedTask.stack, hmax, LoadedTask.stackPage, Nat.mod_add_mod, Nat.add_mul, PAGE_SIZE,
    Nat.mul_comm j, Nat.add_assoc]

/-- Where there are unmapped pages for the arguments. -/
theorem LoadedTask.AboveUnmapped.room
    (habove : (spawnTask L pid header stackSize args origin h).AboveUnmapped L stackSize args) :
    ArgRoom ((spawnTask L pid header stackSize args origin h).stack L stackSize).maxPage
      (argumentsSize args) := by
  have hsize := DIRECT_MAP_SIZE_eq
  have haligned := stackPage_aligned L pid header stackSize args origin h (stackSize + 0)
  have hstart := (habove 0 (Or.inl rfl)).1
  have hpage := @stack_maxPage L stackSize pid header origin args h
  have hlt : ((spawnTask L pid header stackSize args origin h).stack L stackSize).maxPage <
      2 ^ 64 := by
    have himage : (spawnTask L pid header stackSize args origin h).image.maxPage < 2 ^ 64 :=
      roundMaxPage_lt _
    rw [LoadedTask.stack, mapStack_maxPage L _ _ himage]
    exact Nat.mod_lt _ (Nat.two_pow_pos 64)
  unfold LoadedTask.AboveUnmapped at habove
  generalize (spawnTask L pid header stackSize args origin h).stackPage = page at *
  generalize ((spawnTask L pid header stackSize args origin h).stack L stackSize).maxPage = base at *
  have hzero := hpage 0
  rw [PAGE_SIZE] at haligned
  refine ⟨by omega, by omega, ?_⟩
  -- otherwise the page at the end of the lower half would be needed
  by_contra hover
  have hend := (habove ((DIRECT_MAP_SIZE - base) / 4096) (Or.inr (by rw [PAGE_SIZE]; omega))).1
  rw [hpage] at hend
  omega

end NewTask

/-- **The arguments are laid out** as they were given where `malloc` has a block for the
    pointers. -/
theorem argument_vector_when (L : Layout) (hL : L.WellFormed) (s : HeapTrace) (rs : List PageRun)
    (free : SizeClass → List Nat) (sys sys' : System) (h' : Heap) (pid header stackSize : Nat)
    (args : List (List UInt8)) (origin : Nat) (hready : Ready L s rs free pid)
    (hspawn : spawnTaskFromElf L header stackSize args origin sys s.heap = (some pid, sys', h'))
    (hok : h'.kernel.failed = s.heap.kernel.failed)
    (habove : (spawnTask L pid header stackSize args origin s.heap).AboveUnmapped L stackSize args)
    (hargs : ∀ arg ∈ args, 0 ∉ arg) (hholds : s.Holds L (8 * args.length)) :
    HasArguments h'.kernel.mem (sys'.tasks pid) args := by
  have hsmall := hholds.small
  rw [HEADER_SIZE, PAGE_SIZE] at hsmall
  obtain ⟨_, rfl, rfl⟩ := spawnTaskFromElf_some hspawn
  obtain ⟨hargc, hargv, htop⟩ := installTask_args sys pid
    (spawnTask L pid header stackSize args origin s.heap).loaded
  obtain ⟨ρ, rs', free', argsNew, k, hp⟩ :=
    spawnTask_prepares hL hready header stackSize args origin hholds hok
  have hroom := habove.room
  have hpage := @stack_maxPage L stackSize pid header origin args s.heap
  have hnumber : (spawnTask L pid header stackSize args origin s.heap).loaded.argc =
      .ofNat 64 args.length := rfl
  have hroot : (spawnTask L pid header stackSize args origin s.heap).loaded.top =
      (spawnTask L pid header stackSize args origin s.heap).top := rfl
  have hmem : (spawnTask L pid header stackSize args origin s.heap).heap.kernel =
      (spawnTask L pid header stackSize args origin s.heap).args.load.kernel := rfl
  unfold HasArguments
  rw [hargc, hargv, htop, hnumber, hroot, hmem]
  generalize spawnTask L pid header stackSize args origin s.heap = p at *
  have hρ : p.top / PAGE_SIZE = ρ := by rw [hp.root, root_page]
  have hfinal := hp.final
  have hfirst := hp.argv
  have hfailed := hp.failed
  have hsize := DIRECT_MAP_SIZE_eq
  rw [hρ]
  refine ⟨?_, ?_⟩
  · rw [BitVec.toNat_ofNat, Nat.mod_eq_of_lt (by omega)]
  · rw [hfinal] at hfailed ⊢
    have hlt := loadArgs_lt L (4096 * ρ) argsNew args { p.stack L stackSize with kernel := k }
    rw [hfirst, BitVec.toNat_ofNat, Nat.mod_eq_of_lt hlt]
    apply argumentVector_loadArgs (s := { p.stack L stackSize with kernel := k }) hL hp.working hroom
    · intro j hj hmapped
      have hpos := hroom.start
      have hfits := hroom.fits
      have hneed := habove j hj
      rw [hpage, hρ] at hneed
      dsimp only at hmapped
      rw [Nat.mod_eq_of_lt (by omega)] at hneed
      apply hneed.2
      rcases hmapped with hhigh | hvalid
      · exact Or.inl hhigh
      · rw [hp.leaves] at hvalid
        exact Or.inr hvalid
    · exact hargs
    · exact hp.block
    · exact hfailed

end IloPali
