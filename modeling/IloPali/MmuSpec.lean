import IloPali.PageTree

/-!
# What the functions of `mmu.c` do to a table

One lemma for each function: how it changes the leaf entries, and that the tree
evolves over its own pages and free ones.  The lower half is where tables are
built; in the upper half every page is mapped already, by the direct map.
-/

namespace IloPali

open ByteMemory RadixTree

/-! ## 1. Pointers to entries -/

theorem Tree.addressable {L : Layout} (hL : L.WellFormed) {k : Kernel}
    {ρ n : Nat} (hT : Tree L k ρ) (h : IsTable k.mem ρ n) : Addressable k.mmu n :=
  (hT.isTable_owned h).addressable hL

theorem mmuRootGetAny_slot {k : Kernel} {ρ : Nat} (hρ : ρ ≠ 0) (i : Fin 512) :
    mmuRootGetAny k (4096 * ρ) i = slot k.mmu ρ i := by
  have hi := i.isLt
  rw [mmuRootGetAny, if_neg (by omega), if_neg (by rw [MMU_ENTRY_COUNT]; omega), slot]

theorem entryPhys_aligned (e : Word) : entryPhys e = entryPhys e / 4096 * 4096 := by
  have hlow : ∀ i, i < 12 → (entryPhys e).testBit i = false := by
    intro i hi
    simp only [entryPhys, BitVec.testBit_toNat, BitVec.getLsbD_shiftLeft, BitVec.getLsbD_and,
      BitVec.getLsbD_not, allBits_getLsbD]
    by_cases h : i < 2
    · simp [h]
    · simp [show i - 2 < 10 by omega]
  apply Nat.eq_of_testBit_eq
  intro i
  rw [show 4096 = 2 ^ 12 by decide, Nat.testBit_mul_two_pow, Nat.testBit_div_two_pow]
  by_cases h : 12 ≤ i
  · simp [h, Nat.sub_add_cancel h]
  · simp [h, hlow i (by omega)]

/-- The pointer that `mmu_entry_get_any` follows from an entry that links to `c`. -/
theorem mmuEntryGetAny_slot {k : Kernel} {e : Word} {c : Nat} (hvalid : mmuEntryValid e = true)
    (hframe : mmuEntryFrame e = false) (hphys : entryPhys e / 4096 = c)
    (hc : Addressable k.mmu c) (i : Fin 512) : mmuEntryGetAny k e i = slot k.mmu c i := by
  have hi := i.isLt
  have hn := hc.1
  have haddr : entryPhys e = 4096 * c := by
    rw [entryPhys_aligned, hphys]
    omega
  have hpos : 0 < 4096 * c := by omega
  rw [mmuEntryGetAny, if_neg (by simp [hvalid, hframe]), if_neg (by rw [MMU_ENTRY_COUNT]; omega),
    mmuEntryPhys, haddr, if_neg (phys2safe_pos hpos hc.2).ne', phys2safe_phys2safe hpos hc.2, slot]

@[simp] theorem mmuEntrySetFlags_satp (p : Nat) (flags : Word) (k : Kernel) :
    (mmuEntrySetFlags p flags k).satp = k.satp := by
  unfold mmuEntrySetFlags
  split
  · rfl
  · rfl

@[simp] theorem mmuEntrySetFlags_failed (p : Nat) (flags : Word) (k : Kernel) :
    (mmuEntrySetFlags p flags k).failed = k.failed := by
  unfold mmuEntrySetFlags
  split
  · rfl
  · rfl

@[simp] theorem mmuEntrySetPhys_satp (p phys : Nat) (k : Kernel) :
    (mmuEntrySetPhys p phys k).satp = k.satp := by
  unfold mmuEntrySetPhys
  split
  · rfl
  · rfl

@[simp] theorem mmuEntrySetPhys_failed (p phys : Nat) (k : Kernel) :
    (mmuEntrySetPhys p phys k).failed = k.failed := by
  unfold mmuEntrySetPhys
  split
  · rfl
  · rfl

/-- Setting the flags and then the address of an entry writes that cell once. -/
theorem setFlags_setPhys {L : Layout} (hL : L.WellFormed) {k : Kernel}
    {n : Nat} (hn : OwnedPage L k n) (i : Fin 512) (flags : Word) (phys : Nat) :
    let k' := mmuEntrySetPhys (slot k.mmu n i) phys (mmuEntrySetFlags (slot k.mmu n i) flags k)
    cells k'.mem = setCell (cells k.mem) n i (withPhys (withFlags 0#64 flags) phys) ∧
      Frame L (· = n) k k' := by
  have hA := hn.addressable hL
  have hp := slot_ne_zero hA i
  simp only [mmuEntrySetFlags, mmuEntrySetPhys, if_neg hp]
  rw [entry_slot hA]
  have hA' : Addressable (k.setEntry (slot k.mmu n i) (withFlags (cells k.mem n i) flags)).mmu n := hA
  have hF := setEntry_frame hL hn i (withFlags (cells k.mem n i) flags)
  have hread := entry_slot hA' i
  rw [cells_setEntry hA, setCell_same, setEntry_mmu] at hread
  rw [hread]
  constructor
  · have hwrite := cells_setEntry hA' i (withPhys (withFlags (cells k.mem n i) flags) phys)
    rw [cells_setEntry hA, setCell_setCell, withPhys_withFlags] at hwrite
    rw [withPhys_withFlags]
    exact hwrite
  · refine hF.trans (setEntry_frame hL (k := k.setEntry _ _) (hF.owned hn) i _) ?_
    exact fun m hm => Or.inl hm

/-- It writes no other page, the refcount table included. -/
theorem setFlags_setPhys_mem {k : Kernel} {n : Nat} (hA : Addressable k.mmu n) (i : Fin 512)
    (flags : Word) (phys : Nat) {x : Nat} (hx : x / 4096 ≠ n) :
    (mmuEntrySetPhys (slot k.mmu n i) phys (mmuEntrySetFlags (slot k.mmu n i) flags k)).mem x =
      k.mem x := by
  simp only [mmuEntrySetFlags, mmuEntrySetPhys, if_neg (slot_ne_zero hA i)]
  have hA' : Addressable (k.setEntry (slot k.mmu n i) (withFlags (k.entry (slot k.mmu n i)) flags)).mmu
      n := hA
  exact (setEntry_mem hA' i _ hx).trans (setEntry_mem hA i _ hx)

theorem setFlags_cell {L : Layout} (hL : L.WellFormed) {k : Kernel}
    {n : Nat} (hn : OwnedPage L k n) (i : Fin 512) (flags : Word) :
    cells (mmuEntrySetFlags (slot k.mmu n i) flags k).mem =
      setCell (cells k.mem) n i (withFlags (cells k.mem n i) flags) ∧
    Frame L (· = n) k (mmuEntrySetFlags (slot k.mmu n i) flags k) := by
  have hA := hn.addressable hL
  simp only [mmuEntrySetFlags, if_neg (slot_ne_zero hA i)]
  rw [entry_slot hA]
  exact ⟨cells_setEntry hA i _, setEntry_frame hL hn i _⟩

/-! ## 2. `mmu_walk_to_entry` -/

theorem mmuEntryGet_slot {k : Kernel} {e : Word} {c : Nat} (hvalid : mmuEntryValid e = true)
    (hframe : mmuEntryFrame e = false) (hphys : entryPhys e / 4096 = c)
    (hc : Addressable k.mmu c) (i : Fin 512) : mmuEntryGet k e i =
      if mmuEntryValid (cells k.mem c i) = true then slot k.mmu c i else 0 := by
  simp only [mmuEntryGet, mmuEntryGetAny_slot hvalid hframe hphys hc, entry_slot hc]
  by_cases hv : mmuEntryValid (cells k.mem c i) = true
  · rw [if_pos ⟨slot_ne_zero hc i, hv⟩, if_pos hv]
  · rw [if_neg fun h => hv h.2, if_neg hv]

theorem mmuRootGet_slot {k : Kernel} {ρ : Nat} (hρ : Addressable k.mmu ρ) (i : Fin 512) :
    mmuRootGet k (4096 * ρ) i =
      if mmuEntryValid (cells k.mem ρ i) = true then slot k.mmu ρ i else 0 := by
  simp only [mmuRootGet, mmuRootGetAny_slot hρ.1, entry_slot hρ]
  by_cases hv : mmuEntryValid (cells k.mem ρ i) = true
  · rw [if_pos ⟨slot_ne_zero hρ i, hv⟩, if_pos hv]
  · rw [if_neg fun h => hv h.2, if_neg hv]

theorem mmuWalkLoop_null (k : Kernel) (vpns : List (Fin 512)) : mmuWalkLoop k vpns 0 = 0 := by
  cases vpns with
  | nil => rfl
  | cons i vpns => simp [mmuWalkLoop]

section Walk

variable {L : Layout} (hL : L.WellFormed) {k : Kernel} {ρ : Nat}
  (hT : Tree L k ρ)

include hL hT

/-- One level of the walk, from an entry of the table at `π`. -/
theorem mmuWalkLoop_step {π : List (Fin 512)} {n : Nat} {i : Fin 512} (hπ : π.length < 2)
    (hn : tableAt k.mem ρ π = some n) (hlow : π = [] → i.val < 256) (j : Fin 512)
    (vpns : List (Fin 512)) :
    let start := fun m i => if mmuEntryValid (cells k.mem m i) = true then slot k.mmu m i else 0
    mmuWalkLoop k (j :: vpns) (start n i) =
      match tableAt k.mem ρ (π ++ [i]) with
      | some c => mmuWalkLoop k vpns (start c j)
      | none => 0 := by
  intro start
  have hA := hT.addressable hL ⟨π, hπ.le, hn⟩
  have hstep : tableAt k.mem ρ (π ++ [i]) = childTable (cells k.mem n i) := by
    rw [tableAt_snoc, hn]
    rfl
  by_cases hv : mmuEntryValid (cells k.mem n i) = true
  · have hf := hT.noFrames π n i hπ hn hlow hv
    have hc : tableAt k.mem ρ (π ++ [i]) = some (entryPhys (cells k.mem n i) / 4096) := by
      rw [hstep, childTable_of_valid hv hf]
    have hAc := hT.addressable hL
      ⟨π ++ [i], by rw [List.length_append, List.length_singleton]; omega, hc⟩
    rw [hc]
    simp only [start, if_pos hv, mmuWalkLoop, entry_slot hA]
    rw [if_neg (by simp [slot_ne_zero hA i, hf]), mmuEntryGet_slot hv hf rfl hAc]
  · have hnone : tableAt k.mem ρ (π ++ [i]) = none := by
      rw [hstep]
      exact childTable_of_invalid (by simpa using hv)
    rw [hnone]
    simp only [start, if_neg hv, mmuWalkLoop_null]

/-- In the lower half the walk ends at the leaf entry, when that is valid. -/
theorem mmuWalkToEntry_lower {virt : Nat} (hlow : (getVpns virt).vpn0.val < 256) :
    mmuWalkToEntry k (4096 * ρ) virt =
      match tableAt k.mem ρ [(getVpns virt).vpn0, (getVpns virt).vpn1] with
      | some n =>
        if mmuEntryValid (cells k.mem n (getVpns virt).vpn2) = true then
          slot k.mmu n (getVpns virt).vpn2
        else 0
      | none => 0 := by
  have hroot := hT.addressable hL (isTable_root k.mem ρ)
  simp only [mmuWalkToEntry]
  rw [mmuRootGet_slot hroot, mmuWalkLoop_step hL hT (π := []) (by decide) rfl (fun _ => hlow)]
  cases hc : tableAt k.mem ρ ([] ++ [(getVpns virt).vpn0]) with
  | none =>
    have : tableAt k.mem ρ [(getVpns virt).vpn0, (getVpns virt).vpn1] = none := by
      rw [show [(getVpns virt).vpn0, (getVpns virt).vpn1] =
        [(getVpns virt).vpn0] ++ [(getVpns virt).vpn1] from rfl, tableAt_snoc]
      rw [List.nil_append] at hc
      rw [hc]
      rfl
    rw [this]
  | some c =>
    dsimp only
    rw [mmuWalkLoop_step hL hT (π := [(getVpns virt).vpn0]) (Nat.lt_succ_self 1) hc (fun h => nomatch h)]
    rfl

/-- In the upper half the walk ends at the root. -/
theorem mmuWalkToEntry_upper {virt : Nat} (hhigh : 256 ≤ (getVpns virt).vpn0.val) :
    mmuWalkToEntry k (4096 * ρ) virt = slot k.mmu ρ (getVpns virt).vpn0 := by
  have hroot := hT.addressable hL (isTable_root k.mem ρ)
  obtain ⟨hv, hf, _⟩ := directMapEntry_spec _ hhigh
  rw [← hT.direct _ hhigh] at hv hf
  simp only [mmuWalkToEntry]
  rw [mmuRootGet_slot hroot, if_pos hv, mmuWalkLoop, if_pos (Or.inr (by rw [entry_slot hroot, hf]))]

end Walk

/-! ## 3. `mmu_map` -/

/-- One level of the loop of `mmu_map`: `none` where it returns `-1`, otherwise the pointer
    to the next entry. -/
def mmuMapNext (L : Layout) (i : Fin 512) (entry : Nat) (k : Kernel) : Option (Nat × Kernel) :=
  if entry = 0 ∨ (mmuEntryValid (k.entry entry) = true ∧ mmuEntryFrame (k.entry entry) = true) then
    none
  else if mmuEntryValid (k.entry entry) = true then
    some (mmuEntryGetAny k (k.entry entry) i, k)
  else
    let k' := mmuEntrySetPhys entry (allocPages L 1 k).1
      (mmuEntrySetFlags entry MMU_BIT_VALID (allocPages L 1 k).2)
    some (mmuEntryGetAny k' (k'.entry entry) i, k')

theorem mmuMapLoop_cons (L : Layout) (i : Fin 512) (vpns : List (Fin 512)) (entry : Nat)
    (k : Kernel) : mmuMapLoop L (i :: vpns) entry k =
      match mmuMapNext L i entry k with
      | none => (none, k)
      | some (next, k') => mmuMapLoop L vpns next k' := by
  rw [mmuMapLoop, mmuMapNext]
  split
  · rfl
  · split
    · rfl
    · rfl

theorem mmuMapNext_satp {L : Layout} {i : Fin 512} {entry next : Nat} {k k' : Kernel}
    (h : mmuMapNext L i entry k = some (next, k')) :
    k'.satp = k.satp ∧ k.failed ≤ k'.failed := by
  rw [mmuMapNext] at h
  split at h
  · exact nomatch h
  · split at h
    · obtain ⟨_, rfl⟩ := Prod.mk.inj (Option.some.inj h)
      exact ⟨rfl, le_refl _⟩
    · obtain ⟨_, rfl⟩ := Prod.mk.inj (Option.some.inj h)
      simp [allocPages_failed_le]

theorem mmuMapLoop_satp (L : Layout) (vpns : List (Fin 512)) (p : Nat) (k : Kernel) :
    (mmuMapLoop L vpns p k).2.satp = k.satp := by
  induction vpns generalizing p k with
  | nil => rfl
  | cons i vpns ih =>
    rw [mmuMapLoop_cons]
    cases hnext : mmuMapNext L i p k with
    | none => rfl
    | some q => exact (ih q.1 q.2).trans (mmuMapNext_satp hnext).1

theorem mmuMapLoop_failed_le (L : Layout) (vpns : List (Fin 512)) (p : Nat) (k : Kernel) :
    k.failed ≤ (mmuMapLoop L vpns p k).2.failed := by
  induction vpns generalizing p k with
  | nil => exact le_refl _
  | cons i vpns ih =>
    rw [mmuMapLoop_cons]
    cases hnext : mmuMapNext L i p k with
    | none => exact le_refl _
    | some q => exact (mmuMapNext_satp hnext).2.trans (ih q.1 q.2)

@[simp] theorem mmuMap_satp (L : Layout) (root virt phys : Nat) (flags : Word) (k : Kernel) :
    (mmuMap L root virt phys flags k).2.satp = k.satp := by
  have h := mmuMapLoop_satp L [(getVpns virt).vpn1, (getVpns virt).vpn2]
    (mmuRootGetAny k root (getVpns virt).vpn0) k
  unfold mmuMap
  dsimp only
  split
  · rename_i hloop
    rw [hloop] at h
    exact h
  · rename_i hloop
    rw [hloop] at h
    split
    · exact h
    · simpa using h

theorem mmuMap_failed_le (L : Layout) (root virt phys : Nat) (flags : Word) (k : Kernel) :
    k.failed ≤ (mmuMap L root virt phys flags k).2.failed := by
  have h := mmuMapLoop_failed_le L [(getVpns virt).vpn1, (getVpns virt).vpn2]
    (mmuRootGetAny k root (getVpns virt).vpn0) k
  unfold mmuMap
  dsimp only
  split
  · rename_i hloop
    rw [hloop] at h
    exact h
  · rename_i hloop
    rw [hloop] at h
    split
    · exact h
    · simpa using h

theorem mmuAlloc_eq (L : Layout) (root virt : Nat) (flags : Word) (k : Kernel) :
    mmuAlloc L root virt flags k =
      if (mmuMap L root virt (allocPages L 1 k).1 flags (allocPages L 1 k).2).1 ≠ 0 then
        (0, deallocPages L (allocPages L 1 k).1 1
          (mmuMap L root virt (allocPages L 1 k).1 flags (allocPages L 1 k).2).2)
      else ((allocPages L 1 k).1,
        (mmuMap L root virt (allocPages L 1 k).1 flags (allocPages L 1 k).2).2) := rfl

/-- The page is mapped: by the direct map, or by a valid leaf entry. -/
def Mapped (m : Mem) (ρ : Nat) (v : PageNumber) : Prop :=
  256 ≤ v.vpn0.val ∨ mmuEntryValid (leaf m ρ v) = true

/-- Page `p` was fresh and is now what page number `v` maps to. -/
structure Placed (L : Layout) (ρ : Nat) (v : PageNumber) (flags : Word) (p : Nat)
    (k k' : Kernel) : Prop where
  evolves : Evolves L ρ k k'
  leaf_eq : ∀ v', leaf k'.mem ρ v' = if v' = v then leafEntry (4096 * p) flags else leaf k.mem ρ v'
  free : FreePage L k p
  owned : OwnedPage L k' p
  zero : ∀ x, x / 4096 = p → k'.mem x = 0
  notTable : ¬ IsTable k'.mem ρ p

section Map

variable {L : Layout} (hL : L.WellFormed) {k : Kernel} {ρ : Nat}
  (hT : Tree L k ρ)

include hL hT

/-- One level of `mmu_map`, from entry `i` of the table at `π`: it ends at the
    next table, which it may have to link first. -/
theorem mmuMapNext_tree {π : List (Fin 512)} {n : Nat} {i : Fin 512} (hπ : π.length < 2)
    (hn : tableAt k.mem ρ π = some n) (hlow : π = [] → i.val < 256) (j : Fin 512)
    (hok : tableAt k.mem ρ (π ++ [i]) = none → (allocPages L 1 k).2.failed = k.failed) :
    ∃ k' c, mmuMapNext L j (slot k.mmu n i) k = some (slot k'.mmu c j, k') ∧
      Evolves L ρ k k' ∧ tableAt k'.mem ρ (π ++ [i]) = some c ∧
      (∀ v, leaf k'.mem ρ v = leaf k.mem ρ v) ∧
      (tableAt k.mem ρ (π ++ [i]) ≠ none → k' = k) ∧
      (tableAt k.mem ρ (π ++ [i]) = none → (∀ j, cells k'.mem c j = 0#64) ∧
        ∀ x, InTable L x → k'.mem x = (allocPages L 1 k).2.mem x) := by
  have hA := hT.addressable hL ⟨π, hπ.le, hn⟩
  have hstep : tableAt k.mem ρ (π ++ [i]) = childTable (cells k.mem n i) := by
    rw [tableAt_snoc, hn]
    rfl
  have hlen : (π ++ [i]).length ≤ 2 := by
    rw [List.length_append, List.length_singleton]
    omega
  rw [mmuMapNext, entry_slot hA]
  by_cases hv : mmuEntryValid (cells k.mem n i) = true
  · -- the table is there already
    have hf := hT.noFrames π n i hπ hn hlow hv
    have hc : tableAt k.mem ρ (π ++ [i]) = some (entryPhys (cells k.mem n i) / 4096) := by
      rw [hstep, childTable_of_valid hv hf]
    have hAc := hT.addressable hL ⟨π ++ [i], hlen, hc⟩
    rw [if_neg (by simp [slot_ne_zero hA i, hf]), if_pos hv, mmuEntryGetAny_slot hv hf rfl hAc]
    refine ⟨k, _, rfl, .refl hT, hc, fun _ => rfl, fun _ => rfl, fun hnone => ?_⟩
    rw [hc] at hnone
    exact nomatch hnone
  · -- link a fresh one
    have hnone : tableAt k.mem ρ (π ++ [i]) = none := by
      rw [hstep]
      exact childTable_of_invalid (by simpa using hv)
    rw [if_neg (by simp [slot_ne_zero hA i, hv]), if_neg hv]
    dsimp only
    obtain ⟨c, hpage, hfresh⟩ := allocPage_ok hL (hok hnone)
    rcases hcall : allocPages L 1 k with ⟨page, k1⟩
    rw [hcall] at hpage hfresh
    dsimp only at hpage hfresh ⊢
    subst hpage
    have hmmu := hfresh.frame.mmu
    have hn1 := hfresh.frame.owned (hT.owned π n hπ.le hn)
    obtain ⟨hcells, hF⟩ := setFlags_setPhys hL hn1 i MMU_BIT_VALID (4096 * c)
    rw [hmmu] at hcells hF
    generalize hk2 : mmuEntrySetPhys (slot k.mmu n i) (4096 * c)
      (mmuEntrySetFlags (slot k.mmu n i) MMU_BIT_VALID k1) = k2 at hcells hF ⊢
    have hfailed : k2.failed = k1.failed := by
      rw [← hk2]
      simp
    obtain ⟨hE, hnode, hleaf⟩ := hT.link hL hπ hn hlow (by simpa using hv) hfresh hcells hF hfailed
    have hmmu2 : k2.mmu = k.mmu := hF.mmu.trans hmmu
    obtain ⟨hvalid, hnoframe, hphys⟩ := tableEntry_spec (hfresh.owned.lt hL)
    have hcell : cells k2.mem n i = tableEntry (4096 * c) := by
      rw [hcells, setCell_same]
      rfl
    have hentry : k2.entry (slot k.mmu n i) = tableEntry (4096 * c) := by
      rw [← hmmu2, entry_slot (by rwa [hmmu2]), hcell]
    have hAc : Addressable k2.mmu c := by
      rw [hmmu2, ← hmmu]
      exact hfresh.owned.addressable hL
    rw [hentry, mmuEntryGetAny_slot hvalid hnoframe (by rw [hphys]; omega) hAc]
    refine ⟨k2, c, rfl, hE, hnode, hleaf, fun h => absurd hnone h, fun _ => ⟨fun j => ?_, ?_⟩⟩
    · have hcn : c ≠ n := by
        rintro rfl
        exact (hT.owned π c hπ.le hn).not_free hfresh.free
      rw [hcells, setCell_other _ _ _ _ fun h => hcn h.1]
      exact cells_of_zero hfresh.zero j
    · intro x hx
      rw [← hk2, ← hmmu]
      refine setFlags_setPhys_mem (hn1.addressable hL) i _ _ ?_
      rintro rfl
      exact hn1.not_inTable hx

/-- The same in a call none of whose allocations fails. -/
theorem mmuMapLoop_step {π : List (Fin 512)} {n : Nat} {i : Fin 512} (hπ : π.length < 2)
    (hn : tableAt k.mem ρ π = some n) (hlow : π = [] → i.val < 256) (j : Fin 512)
    (vpns : List (Fin 512))
    (hok : (mmuMapLoop L (j :: vpns) (slot k.mmu n i) k).2.failed = k.failed) :
    ∃ k' c, mmuMapLoop L (j :: vpns) (slot k.mmu n i) k = mmuMapLoop L vpns (slot k'.mmu c j) k' ∧
      Evolves L ρ k k' ∧ tableAt k'.mem ρ (π ++ [i]) = some c ∧
      (∀ v, leaf k'.mem ρ v = leaf k.mem ρ v) ∧ (tableAt k.mem ρ (π ++ [i]) ≠ none → k' = k) := by
  have halloc : tableAt k.mem ρ (π ++ [i]) = none → (allocPages L 1 k).2.failed = k.failed := by
    intro hnone
    have hA := hT.addressable hL ⟨π, hπ.le, hn⟩
    have hv : mmuEntryValid (cells k.mem n i) = false := by
      by_contra hv
      rw [Bool.not_eq_false] at hv
      rw [tableAt_snoc, hn, Option.bind_some,
        childTable_of_valid hv (hT.noFrames π n i hπ hn hlow hv)] at hnone
      exact nomatch hnone
    refine le_antisymm ?_ (allocPages_failed_le L 1 k)
    rw [mmuMapLoop_cons, mmuMapNext, entry_slot hA, if_neg (by simp [slot_ne_zero hA i, hv]),
      if_neg (by simp [hv])] at hok
    rw [← hok]
    refine le_trans ?_ (mmuMapLoop_failed_le L _ _ _)
    simp
  obtain ⟨k', c, hnext, hE, hc, hleaf, hsame, _⟩ := mmuMapNext_tree hL hT hπ hn hlow j halloc
  refine ⟨k', c, ?_, hE, hc, hleaf, hsame⟩
  rw [mmuMapLoop_cons, hnext]

/-- **`mmu_map` in the lower half**: a page that is mapped is left alone, any other
    gets exactly the entry asked for. -/
theorem mmuMap_lower {virt phys : Nat} {flags : Word} (hlow : (getVpns virt).vpn0.val < 256)
    (hok : (mmuMap L (4096 * ρ) virt phys flags k).2.failed = k.failed) :
    (mmuEntryValid (leaf k.mem ρ (getVpns virt)) = true ∧
      mmuMap L (4096 * ρ) virt phys flags k = (-1, k)) ∨
    (mmuEntryValid (leaf k.mem ρ (getVpns virt)) = false ∧
      (mmuMap L (4096 * ρ) virt phys flags k).1 = 0 ∧
      Evolves L ρ k (mmuMap L (4096 * ρ) virt phys flags k).2 ∧
      ∀ v, leaf (mmuMap L (4096 * ρ) virt phys flags k).2.mem ρ v =
        if v = getVpns virt then leafEntry phys flags else leaf k.mem ρ v) := by
  generalize hv : getVpns virt = v at hlow ⊢
  have hroot := (hT.addressable hL (isTable_root k.mem ρ)).1
  unfold mmuMap at hok ⊢
  dsimp only at hok ⊢
  rw [hv] at hok ⊢
  rw [mmuRootGetAny_slot hroot] at hok ⊢
  -- no call of the loop fails
  have hloop : (mmuMapLoop L [v.vpn1, v.vpn2] (slot k.mmu ρ v.vpn0) k).2.failed = k.failed := by
    refine le_antisymm ?_ (mmuMapLoop_failed_le L _ _ _)
    rw [← hok]
    split
    · rename_i h
      rw [h]
    · rename_i h
      rw [h]
      split
      · exact le_refl _
      · simp
  obtain ⟨k1, c1, heq1, hE1, hn1, hleaf1, hsame1⟩ :=
    mmuMapLoop_step hL hT (π := []) (by decide) rfl (fun _ => hlow) _ _ hloop
  rw [heq1] at hok hloop ⊢
  rw [← hE1.failed] at hloop
  obtain ⟨k2, c, heq2, hE2, hn2, hleaf2, hsame2⟩ :=
    mmuMapLoop_step hL hE1.tree (π := [v.vpn0]) (Nat.lt_succ_self 1) hn1 (fun h => nomatch h)
      _ _ hloop
  rw [heq2] at hok ⊢
  have hE := hE1.trans hE2
  have hleaf : ∀ v', leaf k2.mem ρ v' = leaf k.mem ρ v' := fun v' =>
    (hleaf2 v').trans (hleaf1 v')
  have hn : tableAt k2.mem ρ [v.vpn0, v.vpn1] = some c := hn2
  have hAc := hE.tree.addressable hL ⟨_, le_refl 2, hn⟩
  have hcell : leaf k2.mem ρ v = cells k2.mem c v.vpn2 := by
    unfold leaf
    rw [hn]
  simp only [mmuMapLoop, slot_ne_zero hAc, false_or, entry_slot hAc, ← hcell, hleaf]
  by_cases hvalid : mmuEntryValid (leaf k.mem ρ v) = true
  · -- the path was there, so nothing was linked on the way
    left
    have hpath : tableAt k.mem ρ [v.vpn0, v.vpn1] ≠ none := by
      intro hnone
      unfold leaf at hvalid
      rw [hnone] at hvalid
      exact absurd hvalid (by simp [valid_zero])
    have hk1 : k1 = k := by
      apply hsame1
      intro hnone
      apply hpath
      rw [show [v.vpn0, v.vpn1] = ([] ++ [v.vpn0]) ++ [v.vpn1] from rfl, tableAt_snoc, hnone]
      rfl
    subst hk1
    refine ⟨hvalid, ?_⟩
    rw [if_pos hvalid, hsame2 hpath]
  · right
    rw [if_neg hvalid]
    obtain ⟨hcells, hF⟩ := setFlags_setPhys hL (hE.tree.owned _ c (le_refl 2) hn) v.vpn2
      (leafFlags flags) phys
    obtain ⟨hE3, hleaf3⟩ := hE.tree.setLeaf hn hcells hF (by simp)
    refine ⟨by simpa using hvalid, rfl, hE.trans hE3, fun v' => ?_⟩
    rw [hleaf3 v', hleaf v']
    rfl

/-- **`mmu_map` in the upper half** always finds a frame in the root. -/
theorem mmuMap_upper {virt : Nat} (phys : Nat) (flags : Word)
    (hhigh : 256 ≤ (getVpns virt).vpn0.val) :
    mmuMap L (4096 * ρ) virt phys flags k = (-1, k) := by
  have hroot := hT.addressable hL (isTable_root k.mem ρ)
  obtain ⟨hv, hf, _⟩ := directMapEntry_spec _ hhigh
  rw [← hT.direct _ hhigh] at hv hf
  unfold mmuMap
  dsimp only
  rw [mmuRootGetAny_slot hroot.1, mmuMapLoop, if_pos (Or.inr (by rw [entry_slot hroot]; exact ⟨hv, hf⟩))]

/-- **`mmu_map`** in one statement: it fails exactly on a page that is mapped, and
    a failed call changes nothing. -/
theorem mmuMap_spec {virt phys : Nat} {flags : Word}
    (hok : (mmuMap L (4096 * ρ) virt phys flags k).2.failed = k.failed) :
    (Mapped k.mem ρ (getVpns virt) ∧ mmuMap L (4096 * ρ) virt phys flags k = (-1, k)) ∨
    (¬ Mapped k.mem ρ (getVpns virt) ∧ (mmuMap L (4096 * ρ) virt phys flags k).1 = 0 ∧
      Evolves L ρ k (mmuMap L (4096 * ρ) virt phys flags k).2 ∧
      ∀ v, leaf (mmuMap L (4096 * ρ) virt phys flags k).2.mem ρ v =
        if v = getVpns virt then leafEntry phys flags else leaf k.mem ρ v) := by
  by_cases hlow : (getVpns virt).vpn0.val < 256
  · rcases mmuMap_lower hL hT hlow hok with ⟨hv, h⟩ | ⟨hv, h⟩
    · exact Or.inl ⟨Or.inr hv, h⟩
    · refine Or.inr ⟨?_, h⟩
      rintro (hhigh | hv')
      · omega
      · rw [hv] at hv'
        exact absurd hv' (by decide)
  · exact Or.inl ⟨Or.inl (by omega), mmuMap_upper hL hT phys flags (by omega)⟩

/-! ## 4. `mmu_alloc` -/

/-- **`mmu_alloc`** returns `NULL` on a page that is mapped, having touched nothing
    that is owned, and otherwise puts a fresh page of zeros there. -/
theorem mmuAlloc_spec {virt : Nat} {flags : Word}
    (hok : (mmuAlloc L (4096 * ρ) virt flags k).2.failed = k.failed) :
    (Mapped k.mem ρ (getVpns virt) ∧ (mmuAlloc L (4096 * ρ) virt flags k).1 = 0 ∧
      Frame L (fun _ => False) k (mmuAlloc L (4096 * ρ) virt flags k).2) ∨
    (¬ Mapped k.mem ρ (getVpns virt) ∧ ∃ p, (mmuAlloc L (4096 * ρ) virt flags k).1 = 4096 * p ∧
      Placed L ρ (getVpns virt) flags p k (mmuAlloc L (4096 * ρ) virt flags k).2) := by
  rw [mmuAlloc_eq] at hok ⊢
  have hmono := mmuMap_failed_le L (4096 * ρ) virt (allocPages L 1 k).1 flags (allocPages L 1 k).2
  have hmono1 := allocPages_failed_le L 1 k
  have hboth : (mmuMap L (4096 * ρ) virt (allocPages L 1 k).1 flags (allocPages L 1 k).2).2.failed =
      k.failed := by
    rw [← hok]
    split
    · simp
    · rfl
  obtain ⟨p, hpage, hfresh⟩ := allocPage_ok (k := k) hL (by omega)
  rcases hcall : allocPages L 1 k with ⟨page, k1⟩
  rw [hcall] at hboth hpage hfresh
  dsimp only at hboth hpage hfresh ⊢
  subst hpage
  have hW : ∀ m, IsTable k.mem ρ m → ¬ False := fun _ _ => id
  have hT1 := hT.frame hfresh.frame hW
  have hmapped : Mapped k1.mem ρ (getVpns virt) ↔ Mapped k.mem ρ (getVpns virt) := by
    rw [Mapped, Mapped, hT.frame_leaf hfresh.frame hW]
  rw [← hfresh.failed] at hboth
  rcases mmuMap_spec hL hT1 hboth with ⟨hm, hfail⟩ | ⟨hm, hret, hE, hleaf⟩
  · left
    rw [hfail, if_pos (by simp)]
    exact ⟨hmapped.mp hm, rfl, deallocPage_frame hL hfresh.free hfresh.frame⟩
  · right
    rw [hret, if_neg (by simp)]
    refine ⟨fun h => hm (hmapped.mpr h), p, rfl, ?_⟩
    dsimp only
    generalize (mmuMap L (4096 * ρ) virt (4096 * p) flags k1).2 = k2 at hE hleaf hboth ⊢
    have hnot : ¬ IsTable k1.mem ρ p := by
      rw [hT.frame_isTable hfresh.frame hW]
      exact fun h => (hT.isTable_owned h).not_free hfresh.free
    refine ⟨⟨hE.tree, fun π n hπ hn => hE.paths π n hπ ?_, fun n hn => ?_,
      (hfresh.frame.mono fun _ h => h.elim).trans hE.frame ?_, hE.failed.trans hfresh.failed⟩,
      fun v => ?_, hfresh.free, hE.frame.owned hfresh.owned, fun x hx => ?_, fun h => ?_⟩
    · exact (hT.frame_tableAt hfresh.frame hW π hπ).trans hn
    · rcases hE.new n hn with h | h
      · exact Or.inl ((hT.frame_isTable hfresh.frame hW n).mp h)
      · exact Or.inr (hfresh.frame.free h)
    · exact fun n hn => Or.inl ((hT.frame_isTable hfresh.frame hW n).mp hn)
    · rw [hleaf v, hT.frame_leaf hfresh.frame hW]
    · rw [hE.frame.page hfresh.owned hnot hx]
      exact hfresh.zero x hx
    · rcases hE.new p h with h | h
      · exact hnot h
      · exact hfresh.owned.not_free h

/-! ## 5. `mmu_change_flags` and `mmu_remove` -/

/-- Setting the flags of the entry that the walk ends at. -/
theorem setFlags_walk {virt : Nat} (hlow : (getVpns virt).vpn0.val < 256) (flags : Word) :
    (mmuEntryValid (leaf k.mem ρ (getVpns virt)) = false ∧ mmuWalkToEntry k (4096 * ρ) virt = 0) ∨
    (mmuEntryValid (leaf k.mem ρ (getVpns virt)) = true ∧ mmuWalkToEntry k (4096 * ρ) virt ≠ 0 ∧
      k.entry (mmuWalkToEntry k (4096 * ρ) virt) = leaf k.mem ρ (getVpns virt) ∧
      Evolves L ρ k (mmuEntrySetFlags (mmuWalkToEntry k (4096 * ρ) virt) flags k) ∧
      ∀ v, leaf (mmuEntrySetFlags (mmuWalkToEntry k (4096 * ρ) virt) flags k).mem ρ v =
        if v = getVpns virt then withFlags (leaf k.mem ρ (getVpns virt)) flags
        else leaf k.mem ρ v) := by
  rw [mmuWalkToEntry_lower hL hT hlow]
  generalize getVpns virt = v at hlow ⊢
  cases hn : tableAt k.mem ρ [v.vpn0, v.vpn1] with
  | none =>
    left
    unfold leaf
    rw [hn]
    exact ⟨valid_zero, rfl⟩
  | some n =>
    have hcell : leaf k.mem ρ v = cells k.mem n v.vpn2 := by
      unfold leaf
      rw [hn]
    have hA := hT.addressable hL ⟨_, le_refl 2, hn⟩
    dsimp only
    rw [hcell]
    by_cases hv : mmuEntryValid (cells k.mem n v.vpn2) = true
    · right
      rw [if_pos hv]
      obtain ⟨hcells, hF⟩ := setFlags_cell hL (hT.owned _ n (le_refl 2) hn) v.vpn2 flags
      obtain ⟨hE, hleaf⟩ := hT.setLeaf hn hcells hF (by simp)
      exact ⟨hv, slot_ne_zero hA _, entry_slot hA _, hE, hleaf⟩
    · left
      rw [if_neg hv]
      exact ⟨by simpa using hv, rfl⟩

/-- **`mmu_change_flags` in the lower half.** -/
theorem mmuChangeFlags_lower {virt : Nat} (hlow : (getVpns virt).vpn0.val < 256) (flags : Word) :
    (mmuEntryValid (leaf k.mem ρ (getVpns virt)) = false ∧
      mmuChangeFlags (4096 * ρ) virt flags k = k) ∨
    (mmuEntryValid (leaf k.mem ρ (getVpns virt)) = true ∧
      Evolves L ρ k (mmuChangeFlags (4096 * ρ) virt flags k) ∧
      ∀ v, leaf (mmuChangeFlags (4096 * ρ) virt flags k).mem ρ v =
        if v = getVpns virt then withFlags (leaf k.mem ρ (getVpns virt)) (leafFlags flags)
        else leaf k.mem ρ v) := by
  unfold mmuChangeFlags
  rcases setFlags_walk hL hT hlow (leafFlags flags) with ⟨hv, hnull⟩ | ⟨hv, _, _, hE, hleaf⟩
  · rw [hnull]
    exact Or.inl ⟨hv, rfl⟩
  · exact Or.inr ⟨hv, hE, hleaf⟩

/-- **`mmu_remove` in the lower half.** -/
theorem mmuRemove_lower {virt : Nat} (hlow : (getVpns virt).vpn0.val < 256) :
    (mmuEntryValid (leaf k.mem ρ (getVpns virt)) = false ∧
      mmuRemove (4096 * ρ) virt k = (0, k)) ∨
    (mmuEntryValid (leaf k.mem ρ (getVpns virt)) = true ∧
      (mmuRemove (4096 * ρ) virt k).1 = mmuEntryPhys k.mmu (leaf k.mem ρ (getVpns virt)) ∧
      Evolves L ρ k (mmuRemove (4096 * ρ) virt k).2 ∧
      ∀ v, leaf (mmuRemove (4096 * ρ) virt k).2.mem ρ v =
        if v = getVpns virt then withFlags (leaf k.mem ρ (getVpns virt)) 0#64
        else leaf k.mem ρ v) := by
  unfold mmuRemove
  dsimp only
  rcases setFlags_walk hL hT hlow 0#64 with ⟨hv, hnull⟩ | ⟨hv, hne, hentry, hE, hleaf⟩
  · rw [if_pos hnull]
    exact Or.inl ⟨hv, rfl⟩
  · rw [if_neg hne, hentry]
    exact Or.inr ⟨hv, rfl, hE, hleaf⟩

end Map

/-! ## 6. `create_mmu_table` -/

/-- The pages `mmu_map_range_identity` visits, with the flags it maps them with. -/
def rangePages (start end_ : Nat) (flags : Word) : List (Nat × Word) :=
  (List.range ((end_ - start + (PAGE_SIZE - 1)) / PAGE_SIZE)).map fun i => (start + PAGE_SIZE * i, flags)

/-- The pages `identity_map_kernel` visits, in its order. -/
def Layout.identityPages (L : Layout) : List (Nat × Word) :=
  L.kernelRanges.flatMap fun r => rangePages r.1 r.2.1 r.2.2

theorem mapIdentityLoop_eq (L : Layout) (root : Nat) (flags : Word) (n p : Nat) (k : Kernel) :
    mapIdentityLoop L root flags n p k =
      ((List.range n).map fun i => (p + PAGE_SIZE * i, flags)).foldl
        (fun k q => (mmuMap L root q.1 q.1 q.2 k).2) k := by
  induction n generalizing p k with
  | zero => rfl
  | succ n ih =>
    rw [mapIdentityLoop, ih, List.range_succ_eq_map, List.map_cons, List.foldl_cons, List.map_map]
    congr 1
    refine List.map_congr_left fun i _ => ?_
    simp only [Function.comp_apply, Nat.succ_eq_add_one, Nat.mul_add, Nat.mul_one, Prod.mk.injEq,
      and_true]
    omega

theorem identityMapKernel_eq (L : Layout) (root : Nat) (k : Kernel) :
    identityMapKernel L root k =
      L.identityPages.foldl (fun k q => (mmuMap L root q.1 q.1 q.2 k).2) k := by
  have hranges : ∀ rs k, identityMapRanges L root rs k =
      (rs.flatMap fun r => rangePages r.1 r.2.1 r.2.2).foldl
        (fun k q => (mmuMap L root q.1 q.1 q.2 k).2) k := by
    intro rs
    induction rs with
    | nil => exact fun _ => rfl
    | cons r rs ih =>
      intro k
      rw [List.flatMap_cons, List.foldl_append, ← ih, identityMapRanges, mmuMapRangeIdentity,
        mapIdentityLoop_eq]
      rfl
  exact hranges L.kernelRanges k

/-- The kernel's own pages have physical addresses and are not for user code. -/
theorem identityPages_spec {L : Layout} (hL : L.WellFormed) {q : Nat × Word}
    (hq : q ∈ L.identityPages) :
    q.1 < 2 ^ 56 ∧ mmuEntryUser q.2 = false ∧ mmuEntryFrame q.2 = true := by
  obtain ⟨_, hb, hend, _⟩ := hL.bounds
  have himage := hL.image
  have hrange : ∀ r ∈ L.kernelRanges, r.2.1 ≤ L.heapBottom ∧ mmuEntryUser r.2.2 = false ∧
      mmuEntryFrame r.2.2 = true := by
    intro r hr
    simp only [Layout.kernelRanges, List.mem_cons, List.not_mem_nil, or_false] at hr
    rcases hr with rfl | rfl | rfl | rfl | rfl | rfl
    all_goals exact ⟨by dsimp only; omega, by dsimp only; decide, by dsimp only; decide⟩
  obtain ⟨r, hr, hq⟩ := List.mem_flatMap.mp hq
  obtain ⟨i, hi, rfl⟩ := List.mem_map.mp hq
  obtain ⟨hle, huser, hframe⟩ := hrange r hr
  rw [List.mem_range] at hi
  refine ⟨?_, huser, hframe⟩
  simp only [PAGE_SIZE] at hi ⊢
  omega

/-- **Loop rule for `identity_map_kernel`**: a relation that every successful
    `mmu_map` of the loop keeps, the whole loop keeps. -/
theorem identityMapKernel_rel {L : Layout} {A : Type} (root : Nat) {R : Kernel → A → Prop}
    {f : A → Nat × Word → A}
    (hstep : ∀ k a q, q ∈ L.identityPages → R k a →
      (mmuMap L root q.1 q.1 q.2 k).2.failed = k.failed →
        R (mmuMap L root q.1 q.1 q.2 k).2 (f a q))
    {k : Kernel} {a : A} (hR : R k a) (hok : (identityMapKernel L root k).failed = k.failed) :
    R (identityMapKernel L root k) (L.identityPages.foldl f a) := by
  rw [identityMapKernel_eq] at hok ⊢
  have hrel := List.foldl_rel (l := L.identityPages)
    (f := fun k q => (mmuMap L root q.1 q.1 q.2 k).2) (g := f) (a := k) (b := a)
    (r := fun k' a' => k.failed ≤ k'.failed ∧ (k'.failed = k.failed → R k' a'))
    ⟨le_refl _, fun _ => hR⟩ ?_
  · exact hrel.2 hok
  · rintro q hq k' a' ⟨hle, hk'⟩
    have hmono := mmuMap_failed_le L root q.1 q.1 q.2 k'
    refine ⟨by omega, fun h => ?_⟩
    exact hstep k' a' q hq (hk' (by omega)) (by omega)

theorem identityMapKernel_failed_le (L : Layout) (root : Nat) (k : Kernel) :
    k.failed ≤ (identityMapKernel L root k).failed := by
  rw [identityMapKernel_eq]
  induction L.identityPages generalizing k with
  | nil => exact le_refl _
  | cons q qs ih => exact le_trans (mmuMap_failed_le L root q.1 q.1 q.2 k) (ih _)

theorem fillTopHalf_failed (top n i : Nat) (k : Kernel) :
    (fillTopHalf top n i k).failed = k.failed := by
  induction n generalizing i k with
  | zero => rfl
  | succ n ih => exact ih (i + 1) _

theorem fillTopHalf_spec {L : Layout} (hL : L.WellFormed) {mmu : Bool}
    {ρ : Nat} (n : Nat) {i : Nat} (hi : i + n ≤ 512) {k : Kernel} (hmmu : k.mmu = mmu)
    (hn : OwnedPage L k ρ) :
    (∀ n' (j : Fin 512), cells (fillTopHalf (phys2safe mmu (4096 * ρ)) n i k).mem n' j =
      if n' = ρ ∧ i ≤ j.val ∧ j.val < i + n then directMapEntry j else cells k.mem n' j) ∧
    Frame L (· = ρ) k (fillTopHalf (phys2safe mmu (4096 * ρ)) n i k) := by
  induction n generalizing i k with
  | zero =>
    refine ⟨fun n' j => ?_, .refl L _ k⟩
    rw [if_neg (by omega), fillTopHalf]
  | succ n ih =>
    subst hmmu
    have hA := hn.addressable hL
    have hF := setEntry_frame hL hn ⟨i, by omega⟩ (directMapEntry i)
    obtain ⟨hcells, hF'⟩ := ih (i := i + 1) (by omega) hF.mmu (hF.owned hn)
    refine ⟨fun n' j => ?_, hF.trans hF' fun _ h => Or.inl h⟩
    unfold fillTopHalf
    rw [show phys2safe k.mmu (4096 * ρ) + 8 * i = slot k.mmu ρ ⟨i, by omega⟩ from rfl, hcells,
      cells_setEntry hA]
    by_cases hj : n' = ρ ∧ j = ⟨i, by omega⟩
    · obtain ⟨rfl, rfl⟩ := hj
      rw [if_neg (by simp), setCell_same, if_pos (by simp)]
    · rw [setCell_other _ _ _ _ hj]
      have hne : ¬ (n' = ρ ∧ j.val = i) := fun h => hj ⟨h.1, Fin.ext h.2⟩
      by_cases hin : n' = ρ ∧ i + 1 ≤ j.val ∧ j.val < i + 1 + n
      · rw [if_pos hin, if_pos (by omega)]
      · rw [if_neg hin, if_neg (by omega)]

/-- A root page that holds the direct map and nothing else. -/
theorem Tree.blank {L : Layout} {k : Kernel} {ρ : Nat} (hn : OwnedPage L k ρ)
    (hcells : ∀ j : Fin 512, cells k.mem ρ j = if 256 ≤ j.val then directMapEntry j else 0#64) :
    Tree L k ρ ∧ (∀ n, IsTable k.mem ρ n → n = ρ) ∧ ∀ v, leaf k.mem ρ v = 0#64 := by
  have hchild : ∀ j, childTable (cells k.mem ρ j) = none := by
    intro j
    rw [hcells j]
    split
    · rename_i hj
      obtain ⟨_, hf, _⟩ := directMapEntry_spec j hj
      simp [childTable, hf]
    · exact childTable_of_invalid valid_zero
  have hpath : ∀ π n, tableAt k.mem ρ π = some n → π = [] ∧ n = ρ := by
    intro π n h
    cases π with
    | nil => exact ⟨rfl, (Option.some.inj h).symm⟩
    | cons j π =>
      rw [tableAt, nodeAt, hchild j] at h
      cases h
  refine ⟨⟨fun π n _ h => ?_, fun π π' n _ _ h h' => ?_, fun π n i _ h hlow hv => ?_,
    fun i hi => ?_⟩, fun n hn' => ?_, fun v => ?_⟩
  · rw [(hpath π n h).2]
    exact hn
  · rw [(hpath π n h).1, (hpath π' n h').1]
  · obtain ⟨rfl, rfl⟩ := hpath π n h
    rw [hcells i, if_neg (by have := hlow rfl; omega)] at hv
    exact absurd hv (by decide)
  · rw [hcells i, if_pos hi]
  · obtain ⟨π, _, h⟩ := hn'
    exact (hpath π n h).2
  · unfold leaf
    cases h : tableAt k.mem ρ [v.vpn0, v.vpn1] with
    | none => rfl
    | some n => exact absurd (hpath _ n h).1 (by simp)

theorem createMmuTable_eq (L : Layout) (k : Kernel) :
    createMmuTable L k =
      let k1 := (allocPages L 1 k).2
      let top := phys2safe k1.mmu (allocPages L 1 k).1
      let k2 := fillTopHalf top 256 256 k1
      (safe2phys k2.mmu top, identityMapKernel L (safe2phys k2.mmu top) k2) := rfl

/-- `create_mmu_table` without the identity mapping: a fresh root page. -/
theorem createRoot_spec {L : Layout} (hL : L.WellFormed) {k : Kernel}
    (hok : (createMmuTable L k).2.failed = k.failed) :
    ∃ ρ k', (createMmuTable L k).1 = 4096 * ρ ∧
      (createMmuTable L k).2 = identityMapKernel L (4096 * ρ) k' ∧
      FreePage L k ρ ∧ Frame L (fun _ => False) k k' ∧ k'.failed = k.failed ∧
      Tree L k' ρ ∧ (∀ n, IsTable k'.mem ρ n → n = ρ) ∧ ∀ v, leaf k'.mem ρ v = 0#64 := by
  rw [createMmuTable_eq] at hok ⊢
  dsimp only at hok ⊢
  have hmono := identityMapKernel_failed_le L
    (safe2phys (fillTopHalf (phys2safe (allocPages L 1 k).2.mmu (allocPages L 1 k).1) 256 256
      (allocPages L 1 k).2).mmu (phys2safe (allocPages L 1 k).2.mmu (allocPages L 1 k).1))
    (fillTopHalf (phys2safe (allocPages L 1 k).2.mmu (allocPages L 1 k).1) 256 256
      (allocPages L 1 k).2)
  rw [hok, fillTopHalf_failed] at hmono
  obtain ⟨ρ, hpage, hfresh⟩ := allocPage_ok hL (le_antisymm hmono (allocPages_failed_le L 1 k))
  rcases hcall : allocPages L 1 k with ⟨page, k1⟩
  rw [hcall] at hpage hfresh
  dsimp only at hpage hfresh ⊢
  subst hpage
  have hA := hfresh.owned.addressable hL
  obtain ⟨hcells, hF⟩ := fillTopHalf_spec hL 256 (i := 256) (by decide) rfl hfresh.owned
  have hfailed := fillTopHalf_failed (phys2safe k1.mmu (4096 * ρ)) 256 256 k1
  generalize fillTopHalf (phys2safe k1.mmu (4096 * ρ)) 256 256 k1 = k2 at hcells hF hfailed ⊢
  have hroot : safe2phys k2.mmu (phys2safe k1.mmu (4096 * ρ)) = 4096 * ρ := by
    rw [hF.mmu]
    exact safe2phys_phys2safe hA.2
  rw [hroot]
  refine ⟨ρ, k2, rfl, rfl, hfresh.free, hfresh.frame.trans hF fun n hn => ?_,
    hfailed.trans hfresh.failed, Tree.blank (hF.owned hfresh.owned) fun j => ?_⟩
  · exact Or.inr (hn ▸ hfresh.free)
  · have hj := j.isLt
    rw [hcells, cells_of_zero hfresh.zero]
    by_cases h : 256 ≤ j.val
    · rw [if_pos ⟨rfl, h, hj⟩, if_pos h]
    · rw [if_neg (by omega), if_neg h]

/-- The tree below `ρ` is new, and maps nothing for user code. -/
structure Created (L : Layout) (ρ : Nat) (k k' : Kernel) : Prop where
  tree : Tree L k' ρ
  new : ∀ n, IsTable k'.mem ρ n → FreePage L k n
  frame : Frame L (fun _ => False) k k'
  noUser : ∀ v, mmuEntryUser (leaf k'.mem ρ v) = false
  failed : k'.failed = k.failed

/-- **`create_mmu_table`** builds a tree of fresh pages. -/
theorem createMmuTable_spec {L : Layout} (hL : L.WellFormed) {k : Kernel}
    (hok : (createMmuTable L k).2.failed = k.failed) :
    ∃ ρ, (createMmuTable L k).1 = 4096 * ρ ∧ Created L ρ k (createMmuTable L k).2 := by
  obtain ⟨ρ, k1, hroot, hmap, hfree, hF, hfailed, hT, htables, hleaf⟩ := createRoot_spec hL hok
  refine ⟨ρ, hroot, ?_⟩
  rw [hmap] at hok ⊢
  rw [← hfailed] at hok
  have hrel := identityMapKernel_rel (L := L) (4096 * ρ)
    (R := fun k' _ => Evolves L ρ k1 k' ∧ ∀ v, mmuEntryUser (leaf k'.mem ρ v) = false)
    (f := fun u _ => u) (k := k1) (a := ()) ?_ ⟨.refl hT, fun v => by rw [hleaf v]; rfl⟩ hok
  · obtain ⟨hE, huser⟩ := hrel
    have hnew : ∀ n, IsTable k1.mem ρ n → FreePage L k n := fun n hn => htables n hn ▸ hfree
    refine ⟨hE.tree, fun n hn => ?_, hF.trans hE.frame fun n hn => Or.inr (hnew n hn), huser,
      hE.failed.trans hfailed⟩
    rcases hE.new n hn with h | h
    · exact hnew n h
    · exact hF.free h
  · rintro k' _ q hq ⟨hE, huser⟩ hok'
    obtain ⟨hphys, hflags, _⟩ := identityPages_spec hL hq
    rcases mmuMap_spec hL hE.tree hok' with ⟨_, hfail⟩ | ⟨_, _, hE', hleaf'⟩
    · rw [hfail]
      exact ⟨hE, huser⟩
    · refine ⟨hE.trans hE', fun v => ?_⟩
      rw [hleaf' v]
      split
      · rw [user_leafEntry hphys, hflags]
      · exact huser v

end IloPali
