import IloPali.PageTable
import IloPali.Lib.RadixTree

/-!
# The tree of tables

A table is a tree of pages (`RadixTree`): a valid entry without permissions
links to the next table.  `Tree L k ρ` is the invariant of the tree below the
root page `ρ`.  Everything the functions of `mmu.c` do to a tree is one of two
updates, writing an entry of a table of the last level (`Tree.setLeaf`) and
linking a fresh table (`Tree.link`), and both only touch pages of the tree and
pages that were free.
-/

namespace IloPali

open ByteMemory RadixTree

/-! ## 1. The invariant -/

/-- The table that an entry links to. -/
def childTable (e : Word) : Option Nat :=
  if mmuEntryValid e = true ∧ mmuEntryFrame e = false then some (entryPhys e / 4096) else none

/-- The table reached from the root page `ρ` along `π`. -/
abbrev tableAt (m : Mem) (ρ : Nat) (π : List (Fin 512)) : Option Nat :=
  nodeAt childTable (cells m) ρ π

theorem tableAt_snoc (m : Mem) (ρ : Nat) (π : List (Fin 512)) (i : Fin 512) :
    tableAt m ρ (π ++ [i]) = (tableAt m ρ π).bind fun n => childTable (cells m n i) :=
  nodeAt_snoc π i

/-- Page `n` holds a table of the tree. -/
def IsTable (m : Mem) (ρ n : Nat) : Prop := ∃ π, π.length ≤ 2 ∧ tableAt m ρ π = some n

/-- The last-level entry of a page number, zero where there is no table for it. -/
def leaf (m : Mem) (ρ : Nat) (v : PageNumber) : Word :=
  match tableAt m ρ [v.vpn0, v.vpn1] with
  | some n => cells m n v.vpn2
  | none => 0#64

/-- **The tree invariant.**  Tables are owned pages, each reached along one path;
    the lower half has no frames above the last level, and the upper half of the
    root shows physical memory. -/
structure Tree (L : Layout) (k : Kernel) (ρ : Nat) : Prop where
  owned : ∀ π n, π.length ≤ 2 → tableAt k.mem ρ π = some n → OwnedPage L k n
  unshared : Unshared childTable (cells k.mem) ρ 2
  noFrames : ∀ π n i, π.length < 2 → tableAt k.mem ρ π = some n → (π = [] → i.val < 256) →
    mmuEntryValid (cells k.mem n i) = true → mmuEntryFrame (cells k.mem n i) = false
  direct : ∀ i : Fin 512, 256 ≤ i.val → cells k.mem ρ i = directMapEntry i

/-- The tree below `ρ` grew from `k` to `k'`, over its own pages and free ones. -/
structure Evolves (L : Layout) (ρ : Nat) (k k' : Kernel) : Prop where
  tree : Tree L k' ρ
  paths : ∀ π n, π.length ≤ 2 → tableAt k.mem ρ π = some n → tableAt k'.mem ρ π = some n
  new : ∀ n, IsTable k'.mem ρ n → IsTable k.mem ρ n ∨ FreePage L k n
  frame : Frame L (IsTable k.mem ρ) k k'
  failed : k'.failed = k.failed

theorem isTable_root (m : Mem) (ρ : Nat) : IsTable m ρ ρ := ⟨[], Nat.zero_le 2, rfl⟩

theorem Tree.isTable_owned {L : Layout} {k : Kernel} {ρ n : Nat} (hT : Tree L k ρ)
    (h : IsTable k.mem ρ n) : OwnedPage L k n := by
  obtain ⟨π, hπ, hn⟩ := h
  exact hT.owned π n hπ hn

theorem Evolves.refl {L : Layout} {ρ : Nat} {k : Kernel} (hT : Tree L k ρ) : Evolves L ρ k k :=
  ⟨hT, fun _ _ _ h => h, fun _ h => Or.inl h, .refl L _ k, rfl⟩

theorem Evolves.trans {L : Layout} {ρ : Nat} {k k' k'' : Kernel} (h : Evolves L ρ k k')
    (h' : Evolves L ρ k' k'') : Evolves L ρ k k'' := by
  refine ⟨h'.tree, fun π n hπ hn => h'.paths π n hπ (h.paths π n hπ hn), fun n hn => ?_,
    h.frame.trans h'.frame h.new, h'.failed.trans h.failed⟩
  rcases h'.new n hn with hold | hfree
  · exact h.new n hold
  · exact Or.inr (h.frame.free hfree)

/-! ## 2. Trees that are not touched -/

section Untouched

variable {L : Layout} {k k' : Kernel} {ρ : Nat} {W : Nat → Prop} (hT : Tree L k ρ)
  (hF : Frame L W k k') (hW : ∀ n, IsTable k.mem ρ n → ¬ W n)

include hT hF hW

theorem Tree.frame_tableAt (π : List (Fin 512)) (hπ : π.length ≤ 2) :
    tableAt k'.mem ρ π = tableAt k.mem ρ π := by
  refine nodeAt_congr (d := 2) (fun σ n i hσ hn => ?_) π hπ
  rw [hF.cells (hT.owned σ n hσ.le hn) (hW n ⟨σ, hσ.le, hn⟩)]

theorem Tree.frame_isTable (n : Nat) : IsTable k'.mem ρ n ↔ IsTable k.mem ρ n := by
  constructor
  · rintro ⟨π, hπ, hn⟩
    exact ⟨π, hπ, (hT.frame_tableAt hF hW π hπ).symm.trans hn⟩
  · rintro ⟨π, hπ, hn⟩
    exact ⟨π, hπ, (hT.frame_tableAt hF hW π hπ).trans hn⟩

theorem Tree.frame_cells {n : Nat} (hn : IsTable k.mem ρ n) (i : Fin 512) :
    cells k'.mem n i = cells k.mem n i :=
  hF.cells (hT.isTable_owned hn) (hW n hn) i

/-- A tree whose pages are not written stays what it was. -/
theorem Tree.frame : Tree L k' ρ := by
  have hpath := hT.frame_tableAt hF hW
  refine ⟨fun π n hπ hn => ?_, hT.unshared.congr hpath, fun π n i hπ hn hlow => ?_, fun i hi => ?_⟩
  · rw [hpath π hπ] at hn
    exact hF.owned (hT.owned π n hπ hn)
  · rw [hpath π hπ.le] at hn
    rw [hT.frame_cells hF hW ⟨π, hπ.le, hn⟩]
    exact hT.noFrames π n i hπ hn hlow
  · rw [hT.frame_cells hF hW (isTable_root _ _)]
    exact hT.direct i hi

theorem Tree.frame_leaf (v : PageNumber) : leaf k'.mem ρ v = leaf k.mem ρ v := by
  unfold leaf
  rw [hT.frame_tableAt hF hW _ (le_refl 2)]
  cases hn : tableAt k.mem ρ [v.vpn0, v.vpn1] with
  | none => rfl
  | some n => exact hT.frame_cells hF hW ⟨_, le_refl 2, hn⟩ _

end Untouched

/-! ## 3. The two updates -/

theorem setEntry_frame {L : Layout} (hL : L.WellFormed) {k : Kernel} {n : Nat} (hn : OwnedPage L k n) (i : Fin 512) (e : Word) :
    Frame L (· = n) k (k.setEntry (slot k.mmu n i) e) := by
  have hA := hn.addressable hL
  refine ⟨fun j hj hpos => ?_, fun x _ _ hx => setEntry_mem hA i e hx, rfl⟩
  rw [rc_congr hL (fun x hx => setEntry_mem hA i e ?_) hj]
  · exact hpos
  · rintro rfl
    exact hn.not_inTable hx

theorem setCell_setCell (cell : Nat → Fin 512 → Word) (n : Nat) (i : Fin 512) (e e' : Word) :
    setCell (setCell cell n i e) n i e' = setCell cell n i e' := by
  funext n' i'
  by_cases h : n' = n ∧ i' = i
  · obtain ⟨rfl, rfl⟩ := h
    rw [setCell_same, setCell_same]
  · rw [setCell_other _ _ _ _ h, setCell_other _ _ _ _ h, setCell_other _ _ _ _ h]

/-- **Writing a leaf entry** changes that entry and no other. -/
theorem Tree.setLeaf {L : Layout} {k k' : Kernel} {ρ n : Nat} (hT : Tree L k ρ) {v : PageNumber}
    {e : Word} (hn : tableAt k.mem ρ [v.vpn0, v.vpn1] = some n)
    (hcells : cells k'.mem = setCell (cells k.mem) n v.vpn2 e) (hF : Frame L (· = n) k k')
    (hfailed : k'.failed = k.failed) :
    Evolves L ρ k k' ∧ ∀ v', leaf k'.mem ρ v' = if v' = v then e else leaf k.mem ρ v' := by
  have hpath : ∀ π : List (Fin 512), π.length ≤ 2 → tableAt k'.mem ρ π = tableAt k.mem ρ π := by
    intro π hπ
    unfold tableAt
    rw [hcells]
    exact nodeAt_setCell_leaf hT.unshared rfl hn π hπ
  -- a table above the last level is not the one that was written
  have habove : ∀ π m, π.length < 2 → tableAt k.mem ρ π = some m → m ≠ n := by
    rintro π m hπ hm rfl
    have := hT.unshared π _ m hπ.le (le_refl 2) hm hn
    subst this
    exact absurd hπ (lt_irrefl 2)
  have hother : ∀ m, m ≠ n → ∀ i, cells k'.mem m i = cells k.mem m i := by
    intro m hm i
    rw [hcells]
    exact setCell_other _ _ _ _ fun h => hm h.1
  constructor
  · refine ⟨⟨fun π m hπ hm => ?_, hT.unshared.congr hpath, fun π m i hπ hm hlow => ?_,
      fun i hi => ?_⟩, fun π m hπ hm => (hpath π hπ).trans hm, ?_, hF.mono ?_, hfailed⟩
    · rw [hpath π hπ] at hm
      exact hF.owned (hT.owned π m hπ hm)
    · rw [hpath π hπ.le] at hm
      rw [hother m (habove π m hπ hm)]
      exact hT.noFrames π m i hπ hm hlow
    · rw [hother ρ (habove [] ρ (by decide) rfl)]
      exact hT.direct i hi
    · rintro m ⟨π, hπ, hm⟩
      exact Or.inl ⟨π, hπ, (hpath π hπ).symm.trans hm⟩
    · rintro m rfl
      exact ⟨_, le_refl 2, hn⟩
  · intro v'
    unfold leaf
    rw [hpath _ (le_refl 2)]
    by_cases hv : v' = v
    · subst hv
      rw [if_pos rfl, hn]
      simp only [hcells, setCell_same]
    · rw [if_neg hv]
      cases hm : tableAt k.mem ρ [v'.vpn0, v'.vpn1] with
      | none => rfl
      | some m =>
        simp only [hcells]
        refine setCell_other _ _ _ _ ?_
        rintro ⟨rfl, hi⟩
        -- the same table at the same index is the same page number
        have hvpn := hT.unshared _ _ m (le_refl 2) (le_refl 2) hm hn
        simp only [List.cons.injEq, and_true] at hvpn
        apply hv
        cases v'
        cases v
        simp_all

theorem childTable_of_invalid {e : Word} (h : mmuEntryValid e = false) : childTable e = none := by
  simp [childTable, h]

theorem childTable_of_valid {e : Word} (h : mmuEntryValid e = true)
    (hf : mmuEntryFrame e = false) : childTable e = some (entryPhys e / 4096) := by
  simp [childTable, h, hf]

theorem valid_zero : mmuEntryValid 0#64 = false := by decide

/-- **Linking a fresh table** below an invalid entry changes no leaf entry. -/
theorem Tree.link {L : Layout} (hL : L.WellFormed) {k k1 k' : Kernel} {ρ n c : Nat}
    (hT : Tree L k ρ) {π : List (Fin 512)} {i : Fin 512} (hπ : π.length < 2)
    (hn : tableAt k.mem ρ π = some n) (hlow : π = [] → i.val < 256)
    (hinvalid : mmuEntryValid (cells k.mem n i) = false) (hfresh : Fresh L k k1 c)
    (hcells : cells k'.mem = setCell (cells k1.mem) n i (tableEntry (4096 * c)))
    (hF : Frame L (· = n) k1 k') (hfailed : k'.failed = k1.failed) :
    Evolves L ρ k k' ∧ tableAt k'.mem ρ (π ++ [i]) = some c ∧
      ∀ v, leaf k'.mem ρ v = leaf k.mem ρ v := by
  obtain ⟨hvalid, hnoframe, hphys⟩ := tableEntry_spec (hfresh.owned.lt hL)
  -- the allocation itself touched no table
  have hW : ∀ m, IsTable k.mem ρ m → ¬ False := fun _ _ => id
  have hT1 := hT.frame hfresh.frame hW
  have hold := hT.frame_tableAt hfresh.frame hW
  have hn1 : tableAt k1.mem ρ π = some n := (hold π hπ.le).trans hn
  have hcn : c ≠ n := by
    rintro rfl
    exact (hT.owned π c hπ.le hn).not_free hfresh.free
  have hci : ∀ j, cells k1.mem c j = 0#64 := cells_of_zero hfresh.zero
  have hempty : childTable (cells k1.mem n i) = none := by
    rw [hT.frame_cells hfresh.frame hW ⟨π, hπ.le, hn⟩]
    exact childTable_of_invalid hinvalid
  have hlink : ∀ σ : List (Fin 512), σ.length ≤ 2 → tableAt k'.mem ρ σ =
      if σ = π ++ [i] then some c else tableAt k.mem ρ σ := by
    intro σ hσ
    rw [← hold σ hσ]
    unfold tableAt
    rw [hcells]
    refine nodeAt_link hT1.unshared hπ hn1 hempty ?_ hcn (fun j => ?_) σ hσ
    · rw [childTable_of_valid hvalid hnoframe, hphys, Nat.mul_div_cancel_left c (by decide),
        Nat.mul_comm c 4096, Nat.mul_div_cancel_left c (by decide)]
    · rw [hci j]
      exact childTable_of_invalid valid_zero
  have hnode : tableAt k'.mem ρ (π ++ [i]) = some c := by
    rw [hlink _ (by rw [List.length_append, List.length_singleton]; omega), if_pos rfl]
  have hnew : tableAt k.mem ρ (π ++ [i]) = none := by
    rw [tableAt_snoc, hn]
    exact childTable_of_invalid hinvalid
  have hnotTable : ∀ σ : List (Fin 512), σ.length ≤ 2 → tableAt k.mem ρ σ ≠ some c :=
    fun σ hσ hc => (hT.owned σ c hσ hc).not_free hfresh.free
  -- what the entries of the new state are
  have hzero : ∀ j, cells k'.mem c j = 0#64 := by
    intro j
    rw [hcells, setCell_other _ _ _ _ (fun h => hcn h.1), hci j]
  have hcell : ∀ m, IsTable k.mem ρ m → ∀ j, ¬ (m = n ∧ j = i) →
      cells k'.mem m j = cells k.mem m j := by
    intro m hm j hne
    rw [hcells, setCell_other _ _ _ _ hne, hT.frame_cells hfresh.frame hW hm]
  refine ⟨⟨⟨?_, ?_, ?_, ?_⟩, ?_, ?_, ?_, hfailed.trans hfresh.failed⟩, hnode, ?_⟩
  · intro σ m hσ hm
    rw [hlink σ hσ] at hm
    by_cases hσπ : σ = π ++ [i]
    · rw [if_pos hσπ, Option.some.injEq] at hm
      exact hm ▸ hF.owned hfresh.owned
    · rw [if_neg hσπ] at hm
      exact hF.owned (hfresh.frame.owned (hT.owned σ m hσ hm))
  · exact hT.unshared.link hlink hnotTable
  · intro σ m j hσ hm hlow' hv
    rw [hlink σ hσ.le] at hm
    by_cases hσπ : σ = π ++ [i]
    · rw [if_pos hσπ, Option.some.injEq] at hm
      rw [← hm, hzero j] at hv
      exact absurd hv (by decide)
    · rw [if_neg hσπ] at hm
      by_cases hmn : m = n ∧ j = i
      · obtain ⟨rfl, rfl⟩ := hmn
        rw [hcells, setCell_same]
        exact hnoframe
      · rw [hcell m ⟨σ, hσ.le, hm⟩ j hmn] at hv ⊢
        exact hT.noFrames σ m j hσ hm hlow' hv
  · intro j hj
    rw [hcell ρ (isTable_root _ _) j]
    · exact hT.direct j hj
    · rintro ⟨rfl, rfl⟩
      have := hT.unshared [] π ρ (by decide) hπ.le rfl hn
      exact absurd (hlow this.symm) (by omega)
  · intro σ m hσ hm
    rw [hlink σ hσ, if_neg, hm]
    rintro rfl
    rw [hnew] at hm
    exact nomatch hm
  · rintro m ⟨σ, hσ, hm⟩
    rw [hlink σ hσ] at hm
    by_cases hσπ : σ = π ++ [i]
    · rw [if_pos hσπ, Option.some.injEq] at hm
      exact Or.inr (hm ▸ hfresh.free)
    · rw [if_neg hσπ] at hm
      exact Or.inl ⟨σ, hσ, hm⟩
  · refine (hfresh.frame.mono fun _ h => h.elim).trans hF ?_
    rintro m rfl
    exact Or.inl ⟨π, hπ.le, hn⟩
  · intro v
    unfold leaf
    rw [hlink _ (le_refl 2)]
    by_cases hvπ : [v.vpn0, v.vpn1] = π ++ [i]
    · rw [if_pos hvπ, hvπ, hnew]
      exact hzero _
    · rw [if_neg hvπ]
      cases hm : tableAt k.mem ρ [v.vpn0, v.vpn1] with
      | none => rfl
      | some m =>
        refine hcell m ⟨_, le_refl 2, hm⟩ _ ?_
        rintro ⟨rfl, -⟩
        have := hT.unshared _ π m (le_refl 2) hπ.le hm hn
        rw [← this] at hπ
        exact absurd hπ (lt_irrefl 2)

end IloPali
