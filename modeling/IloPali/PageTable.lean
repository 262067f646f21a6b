import IloPali.Mmu
import IloPali.Lib.RadixTree

/-!
# Pages and the entries in them

Physical pages are named by their number: `cells m n i` is entry `i` of the
table in page `n`.  `Frame L W k k'` is what a piece of kernel code owes to the
rest of memory; allocating a page (`Fresh`) and writing an entry are the two
ways a table ever changes.
-/

namespace IloPali

open ByteMemory RadixTree

/-! ## 1. Pages and entries in memory -/

/-- Page `n` is counted, with a nonzero refcount, and the kernel can reach it. -/
def OwnedPage (L : Layout) (k : Kernel) (n : Nat) : Prop :=
  (∃ i, i < L.entryCount ∧ 4096 * n = L.pageAddr i ∧ rc L k i ≠ 0) ∧
    (k.mmu = true → 4096 * n < DIRECT_MAP_SIZE)

/-- Page `n` is counted, with refcount zero. -/
def FreePage (L : Layout) (k : Kernel) (n : Nat) : Prop :=
  ∃ i, i < L.entryCount ∧ 4096 * n = L.pageAddr i ∧ rc L k i = 0

/-- Entry `i` of the table in page `n`. -/
def cells (m : Mem) (n : Nat) (i : Fin 512) : Word := BitVec.ofNat 64 (load m 8 (4096 * n + 8 * i))

/-- The pointer to entry `i` of the table in page `n`. -/
def slot (mmu : Bool) (n : Nat) (i : Fin 512) : Nat := phys2safe mmu (4096 * n) + 8 * i

/-- Page `n` can be reached by a kernel pointer. -/
def Addressable (mmu : Bool) (n : Nat) : Prop := n ≠ 0 ∧ (mmu = true → 4096 * n < DIRECT_MAP_SIZE)

theorem OwnedPage.not_free {L : Layout} {k : Kernel} {n : Nat} (h : OwnedPage L k n) :
    ¬ FreePage L k n := by
  rintro ⟨j, _, hj, hzero⟩
  obtain ⟨⟨i, _, hi, hpos⟩, _⟩ := h
  rw [hi, pageAddr_inj] at hj
  exact hpos (hj ▸ hzero)

theorem OwnedPage.not_inTable {L : Layout} {k : Kernel} {x : Nat} (h : OwnedPage L k (x / 4096)) :
    ¬ InTable L x := by
  obtain ⟨⟨i, _, hi, _⟩, _⟩ := h
  rw [pageAddr_eq] at hi
  rintro ⟨_, hx⟩
  omega

theorem OwnedPage.addressable {L : Layout} (hL : L.WellFormed) {k : Kernel} {n : Nat}
    (h : OwnedPage L k n) : Addressable k.mmu n := by
  obtain ⟨⟨i, _, hi, _⟩, hon⟩ := h
  obtain ⟨hpos, hb, _⟩ := hL.bounds
  refine ⟨?_, hon⟩
  rintro rfl
  rw [pageAddr_eq] at hi
  omega

theorem OwnedPage.lt {L : Layout} (hL : L.WellFormed) {k : Kernel} {n : Nat}
    (h : OwnedPage L k n) : 4096 * n < 2 ^ 56 := by
  obtain ⟨⟨i, hlt, hi, _⟩, _⟩ := h
  obtain ⟨_, _, hend, _⟩ := hL.bounds
  rw [hi, pageAddr_eq]
  omega

theorem cells_congr {m m' : Mem} {n : Nat} (h : ∀ x, x / 4096 = n → m' x = m x) (i : Fin 512) :
    cells m' n i = cells m n i := by
  have hi := i.isLt
  rw [cells, cells, load_congr fun x h1 h2 => h x (by omega)]

theorem cells_of_zero {m : Mem} {n : Nat} (h : ∀ x, x / 4096 = n → m x = 0) (i : Fin 512) :
    cells m n i = 0#64 := by
  have hi := i.isLt
  rw [cells, load_of_zero fun x h1 h2 => h x (by omega)]

theorem physOf_slot {mmu : Bool} {n : Nat} (h : Addressable mmu n) (i : Fin 512) :
    physOf mmu (slot mmu n i) = 4096 * n + 8 * i :=
  physOf_phys2safe_add h.2 _

theorem slot_ne_zero {mmu : Bool} {n : Nat} (h : Addressable mmu n) (i : Fin 512) :
    slot mmu n i ≠ 0 := by
  have hn := h.1
  have hpos := phys2safe_pos (by omega) h.2
  rw [slot]
  omega

theorem entry_slot {k : Kernel} {n : Nat} (h : Addressable k.mmu n) (i : Fin 512) :
    k.entry (slot k.mmu n i) = cells k.mem n i := by
  rw [Kernel.entry, Kernel.load, physOf_slot h, cells]

/-- Writing through a pointer to an entry writes that cell. -/
theorem cells_setEntry {k : Kernel} {n : Nat} (h : Addressable k.mmu n) (i : Fin 512) (e : Word) :
    cells (k.setEntry (slot k.mmu n i) e).mem = setCell (cells k.mem) n i e := by
  funext n' i'
  have hi := i.isLt
  have hi' := i'.isLt
  rw [Kernel.setEntry, Kernel.store, physOf_slot h]
  by_cases hc : n' = n ∧ i' = i
  · obtain ⟨rfl, rfl⟩ := hc
    rw [setCell_same, cells, load_store_same]
    apply BitVec.eq_of_toNat_eq
    rw [BitVec.toNat_ofNat]
    have := e.isLt
    omega
  · have hne : n' ≠ n ∨ i'.val ≠ i.val := by
      rcases Classical.em (n' = n) with rfl | hn
      · exact Or.inr fun h => hc ⟨rfl, Fin.ext h⟩
      · exact Or.inl hn
    rw [setCell_other _ _ _ _ hc, cells, cells, load_store_disjoint _ _ (by omega)]

/-- Writing through a pointer to an entry changes no other page. -/
theorem setEntry_mem {k : Kernel} {n : Nat} (h : Addressable k.mmu n) (i : Fin 512) (e : Word)
    {x : Nat} (hx : x / 4096 ≠ n) : (k.setEntry (slot k.mmu n i) e).mem x = k.mem x := by
  have hi := i.isLt
  simp only [Kernel.setEntry, Kernel.store, physOf_slot h]
  exact patch_outside _ _ (by omega)

@[simp] theorem setEntry_satp (k : Kernel) (ptr : Nat) (e : Word) :
    (k.setEntry ptr e).satp = k.satp := rfl
@[simp] theorem setEntry_mmu (k : Kernel) (ptr : Nat) (e : Word) :
    (k.setEntry ptr e).mmu = k.mmu := rfl
@[simp] theorem setEntry_failed (k : Kernel) (ptr : Nat) (e : Word) :
    (k.setEntry ptr e).failed = k.failed := rfl

/-! ## 2. Frames -/

/-- From `k` to `k'` no page lost its owner, and only pages in `W` and pages that
    were free changed (and the refcount table). -/
structure Frame (L : Layout) (W : Nat → Prop) (k k' : Kernel) : Prop where
  counts : ∀ i, i < L.entryCount → rc L k i ≠ 0 → rc L k' i ≠ 0
  mem : ∀ x, ¬ InTable L x → ¬ FreePage L k (x / 4096) → ¬ W (x / 4096) → k'.mem x = k.mem x
  satp : k'.satp = k.satp

theorem Frame.refl (L : Layout) (W : Nat → Prop) (k : Kernel) : Frame L W k k :=
  ⟨fun _ _ h => h, fun _ _ _ _ => rfl, rfl⟩

theorem Frame.mmu {L : Layout} {W : Nat → Prop} {k k' : Kernel} (h : Frame L W k k') :
    k'.mmu = k.mmu := by
  rw [Kernel.mmu, h.satp, Kernel.mmu]

theorem Frame.owned {L : Layout} {W : Nat → Prop} {k k' : Kernel} (h : Frame L W k k') {n : Nat}
    (hn : OwnedPage L k n) : OwnedPage L k' n := by
  obtain ⟨⟨i, hlt, hi, hpos⟩, hon⟩ := hn
  refine ⟨⟨i, hlt, hi, h.counts i hlt hpos⟩, ?_⟩
  rw [h.mmu]
  exact hon

theorem Frame.free {L : Layout} {W : Nat → Prop} {k k' : Kernel} (h : Frame L W k k') {n : Nat}
    (hn : FreePage L k' n) : FreePage L k n := by
  obtain ⟨i, hlt, hi, hzero⟩ := hn
  refine ⟨i, hlt, hi, ?_⟩
  by_contra hpos
  exact h.counts i hlt hpos hzero

theorem Frame.trans {L : Layout} {W W' : Nat → Prop} {k k' k'' : Kernel} (h : Frame L W k k')
    (h' : Frame L W' k' k'') (hW : ∀ n, W' n → W n ∨ FreePage L k n) : Frame L W k k'' := by
  refine ⟨fun i hi hn => h'.counts i hi (h.counts i hi hn), fun x ht hf hw => ?_,
    h'.satp.trans h.satp⟩
  have hw' : ¬ W' (x / 4096) := fun hc => (hW _ hc).elim hw hf
  rw [h'.mem x ht (fun hc => hf (h.free hc)) hw', h.mem x ht hf hw]

theorem Frame.mono {L : Layout} {W W' : Nat → Prop} {k k' : Kernel} (h : Frame L W k k')
    (hW : ∀ n, W n → W' n) : Frame L W' k k' :=
  ⟨h.counts, fun x ht hf hw => h.mem x ht hf fun hc => hw (hW _ hc), h.satp⟩

/-- An owned page outside `W` keeps its bytes. -/
theorem Frame.page {L : Layout} {W : Nat → Prop} {k k' : Kernel} (h : Frame L W k k') {n x : Nat}
    (hn : OwnedPage L k n) (hw : ¬ W n) (hx : x / 4096 = n) : k'.mem x = k.mem x := by
  subst hx
  exact h.mem x hn.not_inTable hn.not_free hw

theorem Frame.cells {L : Layout} {W : Nat → Prop} {k k' : Kernel} (h : Frame L W k k') {n : Nat}
    (hn : OwnedPage L k n) (hw : ¬ W n) (i : Fin 512) : cells k'.mem n i = cells k.mem n i :=
  cells_congr (fun _ hx => h.page hn hw hx) i

/-- Page `p` was handed out: it was free, is owned now, and is zero. -/
structure Fresh (L : Layout) (k k' : Kernel) (p : Nat) : Prop where
  free : FreePage L k p
  owned : OwnedPage L k' p
  zero : ∀ x, x / 4096 = p → k'.mem x = 0
  frame : Frame L (fun _ => False) k k'
  failed : k'.failed = k.failed

theorem allocPage_ok {L : Layout} (hL : L.WellFormed) {k : Kernel}
    (hok : (allocPages L 1 k).2.failed = k.failed) :
    ∃ p, (allocPages L 1 k).1 = 4096 * p ∧ Fresh L k (allocPages L 1 k).2 p := by
  obtain ⟨_, hb, _, haligned, hpage⟩ := hL.bounds
  obtain ⟨i, haddr, hg, hshown⟩ := allocPages_ok hL (le_refl 1) (by omega) hok
  have hbound := hg.bound
  have hp : 4096 * (L.heapBottom / 4096 + i) = L.pageAddr i := by
    rw [pageAddr_eq]
    omega
  -- the page that was taken is the only one whose count changed
  have hin : ∀ x, InPages L i 1 x ↔ x / 4096 = L.heapBottom / 4096 + i := by
    intro x
    simp only [InPages, pageAddr_eq]
    omega
  have hfree : FreePage L k (L.heapBottom / 4096 + i) :=
    ⟨i, by omega, hp, hg.free i (le_refl i) (by omega)⟩
  refine ⟨L.heapBottom / 4096 + i, haddr.trans hp.symm, hfree, ⟨⟨i, by omega, hp, ?_⟩, ?_⟩, ?_,
    ⟨?_, fun x ht hf _ => hg.frame x ht ?_, hg.satp⟩, hg.failed⟩
  · rw [hg.rc_eq i (by omega), if_pos ⟨le_refl i, by omega⟩]
    decide
  · rw [Kernel.mmu, hg.satp, ← Kernel.mmu, hp]
    exact fun hon => Nat.lt_of_le_of_lt (Nat.le_add_right _ _) (hshown hon)
  · exact fun x hx => hg.zero x ((hin x).mpr hx)
  · intro j hj hpos
    rw [hg.rc_eq j hj]
    split
    · decide
    · exact hpos
  · intro hx
    rw [hin] at hx
    exact hf (hx ▸ hfree)

/-- Giving a page back that was free before changes no owned page. -/
theorem deallocPage_frame {L : Layout} (hL : L.WellFormed) {k k' : Kernel} {p : Nat}
    (hfree : FreePage L k p) (h : Frame L (fun _ => False) k k') :
    Frame L (fun _ => False) k (deallocPages L (4096 * p) 1 k') := by
  obtain ⟨i, hlt, hi, hzero⟩ := hfree
  have hrel := @deallocPages_spec L hL k' (4096 * p) i 1 hlt (Nat.succ_le_of_lt hlt) (Or.inl hi)
  refine ⟨fun j hj hpos => ?_, fun x ht hf hw => (hrel.frame x ht).trans (h.mem x ht hf hw),
    hrel.satp.trans h.satp⟩
  rw [hrel.rc_eq j hj, if_neg]
  · exact h.counts j hj hpos
  · rintro ⟨_, h1, h2⟩
    have hji : j = i := by omega
    exact hpos (hji ▸ hzero)

end IloPali
