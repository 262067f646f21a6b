import IloPali.AddressSpace
import IloPali.FirstFit
import Mathlib.Data.Finset.Card

/-!
# `mmu_map` and `mmu_alloc` when pages run out

Neither checks what `alloc_pages` returns.  Where a table is missing and no page is left for
it, `mmu_map` links to page 0: the entry stays valid, and nothing can be mapped below it any
more.  Where the page itself is missing, `mmu_alloc` maps page 0 and returns `NULL`.  So the
two are all-or-nothing exactly when there are pages enough; and `mmu_alloc` on an address
that is taken already gives its page back, unless it is the first page of the heap.
-/

namespace IloPali

open ByteMemory RadixTree Transition

/-! ## 1. Free pages -/

/-- The pages that `alloc_pages` has left to hand out one by one. -/
def freePages (L : Layout) (k : Kernel) : Finset Nat :=
  (Finset.range (L.entryCount - 1)).filter fun i => rc L k i = 0

theorem mem_freePages {L : Layout} {k : Kernel} {i : Nat} :
    i ∈ freePages L k ↔ i + 1 < L.entryCount ∧ rc L k i = 0 := by
  simp only [freePages, Finset.mem_filter, Finset.mem_range]
  exact and_congr_left' (by omega)

theorem freePages_congr {L : Layout} (hL : L.WellFormed) {k k' : Kernel}
    (h : ∀ x, InTable L x → k'.mem x = k.mem x) : freePages L k' = freePages L k := by
  ext i
  rw [mem_freePages, mem_freePages]
  refine and_congr_right fun hi => ?_
  rw [rc_congr hL h (by omega)]

/-- **One page**: none is left, or the lowest one is handed out. -/
theorem allocPages_one {L : Layout} (hL : L.WellFormed) {k : Kernel} (hR : L.Reachable k.mmu) :
    (freePages L k = ∅ ∧ allocPages L 1 k = (0, k.fail)) ∨
    ∃ i ∈ freePages L k, (∀ j ∈ freePages L k, i ≤ j) ∧ (allocPages L 1 k).1 = L.pageAddr i ∧
      Grabbed L i 1 k (allocPages L 1 k).2 ∧
      freePages L (allocPages L 1 k).2 = (freePages L k).erase i := by
  obtain ⟨_, hb, _, _, hpage⟩ := hL.bounds
  have hone : ∀ j, RunFree L k 1 j ↔ rc L k j = 0 := by
    intro j
    constructor
    · intro h
      exact h j (le_refl j) (Nat.lt_succ_self j)
    · intro h i h1 h2
      rw [show i = j by omega]
      exact h
  rcases allocPages_spec hL hR (le_refl 1) (by omega) with ⟨hno, hcall⟩ | ⟨i, hcall, hg⟩
  · left
    refine ⟨?_, hcall⟩
    rw [Finset.eq_empty_iff_forall_notMem]
    intro j hj
    rw [mem_freePages] at hj
    exact hno j hj.1 ((hone j).mpr hj.2)
  · right
    refine ⟨i, mem_freePages.mpr ⟨hg.bound, (hone i).mp hg.free⟩, fun j hj => ?_, hcall, hg, ?_⟩
    · by_contra hlt
      exact hg.first j (by omega) ((hone j).mpr (mem_freePages.mp hj).2)
    · ext j
      rw [mem_freePages, Finset.mem_erase, mem_freePages]
      constructor
      · rintro ⟨hj, hz⟩
        rw [hg.rc_eq j (by omega)] at hz
        split at hz
        · exact absurd hz (by decide)
        · exact ⟨by omega, hj, hz⟩
      · rintro ⟨hne, hj, hz⟩
        refine ⟨hj, ?_⟩
        rw [hg.rc_eq j (by omega), if_neg (by omega)]
        exact hz

theorem allocPages_one_ok {L : Layout} (hL : L.WellFormed) {k : Kernel} (hR : L.Reachable k.mmu)
    (hcard : 1 ≤ (freePages L k).card) : (allocPages L 1 k).2.failed = k.failed ∧
      (freePages L (allocPages L 1 k).2).card + 1 = (freePages L k).card := by
  rcases allocPages_one hL hR with ⟨hempty, _⟩ | ⟨i, hi, _, _, hg, herase⟩
  · rw [hempty] at hcard
    exact absurd hcard (by decide)
  · rw [herase]
    exact ⟨hg.failed, Finset.card_erase_add_one hi⟩

/-! ## 2. Addresses that can be mapped -/

/-- The walk from page `n` ends at an entry that is not in use.  Page 0 is no table. -/
def vacant (m : Mem) : List (Fin 512) → Nat → Bool
  | [], _ => false
  | i :: vpns, n =>
    !mmuEntryValid (cells m n i) || (!mmuEntryFrame (cells m n i) && entryPhys (cells m n i) != 0 &&
      vacant m vpns (entryPhys (cells m n i) / 4096))

/-- The page number can still be mapped in the table at `ρ`. -/
def Vacant (m : Mem) (ρ : Nat) (v : PageNumber) : Prop :=
  vacant m [v.vpn0, v.vpn1, v.vpn2] ρ = true

instance (m : Mem) (ρ : Nat) (v : PageNumber) : Decidable (Vacant m ρ v) :=
  inferInstanceAs (Decidable (_ = true))

/-- The number of tables that have to be made before the page number can be mapped. -/
def missingTables (m : Mem) (ρ : Nat) (v : PageNumber) : Nat :=
  if tableAt m ρ [v.vpn0] = none then 2
  else if tableAt m ρ [v.vpn0, v.vpn1] = none then 1
  else 0

theorem vacant_invalid {m : Mem} {n : Nat} {i : Fin 512}
    (h : mmuEntryValid (cells m n i) = false) (vpns : List (Fin 512)) :
    vacant m (i :: vpns) n = true := by
  simp [vacant, h]

/-- Nothing can be mapped below a link to page 0. -/
theorem vacant_dead {m : Mem} {n : Nat} {i : Fin 512} (h : cells m n i = tableEntry 0)
    (vpns : List (Fin 512)) : vacant m (i :: vpns) n = false := by
  have hentry : mmuEntryValid (tableEntry 0) = true ∧ entryPhys (tableEntry 0) = 0 := by decide
  simp [vacant, h, hentry]

theorem vacant_link {m : Mem} {n c : Nat} {i : Fin 512}
    (hc : childTable (cells m n i) = some c) (hne : c ≠ 0) (vpns : List (Fin 512)) :
    vacant m (i :: vpns) n = vacant m vpns c := by
  unfold childTable at hc
  split at hc
  · rename_i h
    obtain rfl := Option.some.inj hc
    have hphys : entryPhys (cells m n i) ≠ 0 := by
      intro hzero
      rw [hzero] at hne
      exact hne rfl
    simp [vacant, h, hphys]
  · exact nomatch hc

section Vacancy

variable {L : Layout} (hL : L.WellFormed) {k : Kernel} {ρ : Nat} (hT : Tree L k ρ)
include hL hT

theorem Tree.vacant_step {π : List (Fin 512)} {n : Nat} {i : Fin 512} (hπ : π.length < 2)
    (hn : tableAt k.mem ρ π = some n) (hlow : π = [] → i.val < 256) (vpns : List (Fin 512)) :
    vacant k.mem (i :: vpns) n =
      match tableAt k.mem ρ (π ++ [i]) with
      | none => true
      | some c => vacant k.mem vpns c := by
  have hstep : tableAt k.mem ρ (π ++ [i]) = childTable (cells k.mem n i) := by
    rw [tableAt_snoc, hn]
    rfl
  cases hc : tableAt k.mem ρ (π ++ [i]) with
  | none =>
    apply vacant_invalid
    by_contra hv
    rw [Bool.not_eq_false] at hv
    rw [hstep, childTable_of_valid hv (hT.noFrames π n i hπ hn hlow hv)] at hc
    exact nomatch hc
  | some c =>
    have hA := hT.addressable hL
      ⟨π ++ [i], by rw [List.length_append, List.length_singleton]; omega, hc⟩
    exact vacant_link (hstep.symm.trans hc) hA.1 vpns

/-- In a table that is a tree, what can be mapped is what is not mapped. -/
theorem Tree.vacant_iff (v : PageNumber) : Vacant k.mem ρ v ↔ ¬ Mapped k.mem ρ v := by
  unfold Vacant Mapped
  by_cases hlow : v.vpn0.val < 256
  · have hhigh : ¬ 256 ≤ v.vpn0.val := by omega
    rw [hT.vacant_step hL (π := []) (by decide) rfl (fun _ => hlow)]
    unfold leaf
    rw [show [v.vpn0, v.vpn1] = ([] ++ [v.vpn0]) ++ [v.vpn1] from rfl]
    cases hc : tableAt k.mem ρ ([] ++ [v.vpn0]) with
    | none =>
      rw [tableAt_snoc, hc]
      simp [hhigh, valid_zero]
    | some c =>
      dsimp only
      rw [List.nil_append] at hc
      rw [hT.vacant_step hL (π := [v.vpn0]) (Nat.lt_succ_self 1) hc (fun h => nomatch h),
        List.nil_append]
      cases tableAt k.mem ρ ([v.vpn0] ++ [v.vpn1]) with
      | none => simp [hhigh, valid_zero]
      | some d => simp [vacant, hhigh]
  · obtain ⟨hv, hf, _⟩ := directMapEntry_spec v.vpn0 (by omega)
    rw [← hT.direct _ (by omega)] at hv hf
    simp [vacant, hv, hf, show 256 ≤ v.vpn0.val by omega]

end Vacancy

/-! ## 3. The pointers that `mmu_map` follows -/

/-- The pointers that the loop of `mmu_map` reads entries through. -/
def mapPointers (L : Layout) : List (Fin 512) → Nat → Kernel → List Nat
  | [], entry, _ => [entry]
  | i :: vpns, entry, k =>
    entry :: match mmuMapNext L i entry k with
      | none => []
      | some (next, k') => mapPointers L vpns next k'

theorem mem_mapPointers (L : Layout) (vpns : List (Fin 512)) (p : Nat) (k : Kernel) :
    p ∈ mapPointers L vpns p k := by
  cases vpns with
  | nil => exact List.mem_singleton_self p
  | cons i vpns => exact List.mem_cons_self

theorem mapPointers_cons {L : Layout} {i : Fin 512} {vpns : List (Fin 512)} {p q : Nat} {k k' : Kernel}
    (h : mmuMapNext L i p k = some (q, k')) :
    mapPointers L (i :: vpns) p k = p :: mapPointers L vpns q k' := by
  rw [mapPointers, h]

/-- The pointers of one call. -/
def mmuMapPointers (L : Layout) (root virtAddr : Nat) (k : Kernel) : List Nat :=
  mapPointers L [(getVpns virtAddr).vpn1, (getVpns virtAddr).vpn2]
    (mmuRootGetAny k root (getVpns virtAddr).vpn0) k

/-- A pointer into page 0: the address of a table that is `NULL`, plus an offset.  The pointer
    `NULL` itself is never followed. -/
def NullAccess (p : Nat) : Prop := p ≠ 0 ∧ p < PAGE_SIZE

theorem slot_ge {mmu : Bool} {n : Nat} (h : Addressable mmu n) (i : Fin 512) :
    PAGE_SIZE ≤ slot mmu n i := by
  have hn := h.1
  have hge : 4096 * n ≤ phys2safe mmu (4096 * n) := by
    cases mmu with
    | false => simp
    | true =>
      rw [phys2safe_on (h.2 rfl)]
      omega
  rw [PAGE_SIZE, slot]
  omega

section Enough

variable {L : Layout} (hL : L.WellFormed) {k : Kernel} {ρ : Nat} (hT : Tree L k ρ)
  (hR : L.Reachable k.mmu)
include hL hT hR

/-- One level of `mmu_map` with a page to spare: the next entry is one of a table, and a page
    is gone if the table is new. -/
theorem mmuMapNext_enough {π : List (Fin 512)} {n : Nat} {i : Fin 512} (hπ : π.length < 2)
    (hn : tableAt k.mem ρ π = some n) (hlow : π = [] → i.val < 256) (j : Fin 512)
    (hpages : tableAt k.mem ρ (π ++ [i]) = none → 1 ≤ (freePages L k).card) :
    ∃ k' c, mmuMapNext L j (slot k.mmu n i) k = some (slot k'.mmu c j, k') ∧
      Evolves L ρ k k' ∧ tableAt k'.mem ρ (π ++ [i]) = some c ∧
      (∀ v, leaf k'.mem ρ v = leaf k.mem ρ v) ∧
      ((tableAt k.mem ρ (π ++ [i]) ≠ none ∧ k' = k) ∨
        (tableAt k.mem ρ (π ++ [i]) = none ∧ (∀ j, cells k'.mem c j = 0#64) ∧
          (freePages L k').card + 1 = (freePages L k).card)) := by
  obtain ⟨k', c, hnext, hE, hc, hleaf, hsame, hnew⟩ := mmuMapNext_tree hL hT hπ hn hlow j
    fun hnone => (allocPages_one_ok hL hR (hpages hnone)).1
  refine ⟨k', c, hnext, hE, hc, hleaf, ?_⟩
  by_cases hnone : tableAt k.mem ρ (π ++ [i]) = none
  · right
    obtain ⟨hzero, htable⟩ := hnew hnone
    rw [freePages_congr hL htable]
    exact ⟨hnone, hzero, (allocPages_one_ok hL hR (hpages hnone)).2⟩
  · left
    exact ⟨hnone, hsame hnone⟩

/-- One level of `mmu_map` without a page: the entry becomes a link to page 0. -/
theorem mmuMapNext_exhausted {π : List (Fin 512)} {n : Nat} {i : Fin 512} (hπ : π.length < 2)
    (hn : tableAt k.mem ρ π = some n) (hlow : π = [] → i.val < 256) (j : Fin 512)
    (hnone : tableAt k.mem ρ (π ++ [i]) = none) (hempty : freePages L k = ∅) :
    ∃ p k', mmuMapNext L j (slot k.mmu n i) k = some (p, k') ∧ p < PAGE_SIZE ∧
      cells k'.mem = setCell (cells k.mem) n i (tableEntry 0) := by
  have hO := hT.owned π n hπ.le hn
  have hA := hO.addressable hL
  have hv : mmuEntryValid (cells k.mem n i) = false := by
    by_contra hv
    rw [Bool.not_eq_false] at hv
    rw [tableAt_snoc, hn, Option.bind_some,
      childTable_of_valid hv (hT.noFrames π n i hπ hn hlow hv)] at hnone
    exact nomatch hnone
  have halloc : allocPages L 1 k = (0, k.fail) := by
    rcases allocPages_one hL hR with ⟨_, hcall⟩ | ⟨i', hi', _⟩
    · exact hcall
    · rw [hempty] at hi'
      exact absurd hi' (Finset.notMem_empty i')
  rw [mmuMapNext, entry_slot hA, if_neg (by simp [slot_ne_zero hA i, hv]), if_neg (by simp [hv]),
    halloc]
  dsimp only
  have hOf : OwnedPage L k.fail n := hO
  obtain ⟨hcells, hF⟩ := setFlags_setPhys hL hOf i MMU_BIT_VALID 0
  have hmmuf : k.fail.mmu = k.mmu := rfl
  rw [hmmuf] at hcells hF
  generalize hk2 : mmuEntrySetPhys (slot k.mmu n i) 0
    (mmuEntrySetFlags (slot k.mmu n i) MMU_BIT_VALID k.fail) = k2 at hcells hF ⊢
  have hmmu2 : k2.mmu = k.mmu := hF.mmu
  have hentry : k2.entry (slot k.mmu n i) = tableEntry 0 := by
    rw [← hmmu2, entry_slot (by rwa [hmmu2]), hcells, setCell_same]
    rfl
  refine ⟨_, k2, rfl, ?_, hcells⟩
  rw [hentry]
  have hlink : mmuEntryValid (tableEntry 0) = true ∧ mmuEntryFrame (tableEntry 0) = false ∧
      entryPhys (tableEntry 0) = 0 := by decide
  have hj := j.isLt
  rw [mmuEntryGetAny, if_neg (by simp [hlink]), if_neg (by rw [MMU_ENTRY_COUNT]; omega), mmuEntryPhys,
    hlink.2.2]
  -- with the MMU on `phys2safe` takes the second look at a pointer of the direct map for an error
  cases k2.mmu with
  | false => simp [PAGE_SIZE]
  | true =>
    rw [if_neg (by decide), show phys2safe true (phys2safe true 0) = 0 by decide, PAGE_SIZE]
    omega

/-- **A call with pages enough** for the tables that are missing: no allocation fails, and no
    null pointer is followed. -/
theorem mmuMap_enough {virt : Nat} (phys : Nat) (flags : Word)
    (hlow : (getVpns virt).vpn0.val < 256)
    (hpages : missingTables k.mem ρ (getVpns virt) ≤ (freePages L k).card) :
    (mmuMap L (4096 * ρ) virt phys flags k).2.failed = k.failed ∧
      ∀ p ∈ mmuMapPointers L (4096 * ρ) virt k, ¬ NullAccess p := by
  have hroot := hT.addressable hL (isTable_root k.mem ρ)
  unfold mmuMap mmuMapPointers
  dsimp only
  generalize getVpns virt = v at hlow hpages ⊢
  rw [mmuRootGetAny_slot hroot.1]
  obtain ⟨k1, c1, hnext1, hE1, hn1, _, h1⟩ := mmuMapNext_enough hL hT hR (π := []) (by decide) rfl
    (fun _ => hlow) v.vpn1 fun hnone => by
      rw [List.nil_append] at hnone
      rw [missingTables, if_pos hnone] at hpages
      omega
  rw [List.nil_append] at hn1 h1
  have hR1 : L.Reachable k1.mmu := by rwa [hE1.frame.mmu]
  obtain ⟨k2, c2, hnext2, hE2, hn2, _, _⟩ := mmuMapNext_enough hL hE1.tree hR1 (π := [v.vpn0])
    (i := v.vpn1) (Nat.lt_succ_self 1) hn1 (fun h => nomatch h) v.vpn2 fun hnone => by
      -- the second table is the last one that can be missing
      unfold missingTables at hpages
      rw [show [v.vpn0] ++ [v.vpn1] = [v.vpn0, v.vpn1] from rfl] at hnone
      rcases h1 with ⟨hsome, hsame⟩ | ⟨hnone1, _, hcard⟩
      · rw [hsame] at hnone ⊢
        rw [if_neg hsome, if_pos hnone] at hpages
        exact hpages
      · rw [if_pos hnone1] at hpages
        omega
  have hE := hE1.trans hE2
  rw [mmuMapLoop_cons, hnext1, mapPointers_cons hnext1]
  dsimp only
  rw [mmuMapLoop_cons, hnext2, mapPointers_cons hnext2]
  dsimp only
  rw [mmuMapLoop, mapPointers]
  constructor
  · dsimp only
    split
    · exact hE.failed
    · simp [hE.failed]
  · have hA1 := hE1.tree.addressable hL ⟨[v.vpn0], Nat.le_succ 1, hn1⟩
    have hA2 := hE.tree.addressable hL ⟨_, le_refl 2, hn2⟩
    intro p hp hnull
    simp only [List.mem_cons, List.not_mem_nil, or_false] at hp
    rcases hp with rfl | rfl | rfl
    · exact absurd hnull.2 (Nat.not_lt.mpr (slot_ge hroot _))
    · exact absurd hnull.2 (Nat.not_lt.mpr (slot_ge hA1 _))
    · exact absurd hnull.2 (Nat.not_lt.mpr (slot_ge hA2 _))

/-- An address that is taken: nothing happens. -/
theorem mmuMap_taken {virt : Nat} (phys : Nat) (flags : Word) (hm : Mapped k.mem ρ (getVpns virt)) :
    mmuMap L (4096 * ρ) virt phys flags k = (-1, k) ∧
      ∀ p ∈ mmuMapPointers L (4096 * ρ) virt k, ¬ NullAccess p := by
  by_cases hlow : (getVpns virt).vpn0.val < 256
  · have hleaf : mmuEntryValid (leaf k.mem ρ (getVpns virt)) = true :=
      hm.resolve_left (Nat.not_le.mpr hlow)
    have hmissing : missingTables k.mem ρ (getVpns virt) = 0 := by
      have hpath : tableAt k.mem ρ [(getVpns virt).vpn0, (getVpns virt).vpn1] ≠ none := by
        intro hnone
        unfold leaf at hleaf
        rw [hnone] at hleaf
        exact absurd hleaf (by simp [valid_zero])
      have hpath0 : tableAt k.mem ρ [(getVpns virt).vpn0] ≠ none := by
        intro hnone
        apply hpath
        rw [show [(getVpns virt).vpn0, (getVpns virt).vpn1] =
          [(getVpns virt).vpn0] ++ [(getVpns virt).vpn1] from rfl, tableAt_snoc, hnone]
        rfl
      rw [missingTables, if_neg hpath0, if_neg hpath]
    obtain ⟨hok, hpointers⟩ := mmuMap_enough hL hT hR phys flags hlow (by rw [hmissing]; exact Nat.zero_le _)
    refine ⟨?_, hpointers⟩
    rcases mmuMap_spec hL hT hok with ⟨_, hcall⟩ | ⟨hno, _⟩
    · exact hcall
    · exact absurd hm hno
  · have hhigh : 256 ≤ (getVpns virt).vpn0.val := Nat.not_lt.mp hlow
    refine ⟨mmuMap_upper hL hT phys flags hhigh, fun p hp hnull => ?_⟩
    have hroot := hT.addressable hL (isTable_root k.mem ρ)
    obtain ⟨hv, hf, _⟩ := directMapEntry_spec _ hhigh
    rw [← hT.direct _ hhigh] at hv hf
    unfold mmuMapPointers at hp
    rw [mmuRootGetAny_slot hroot.1, mapPointers, mmuMapNext,
      if_pos (Or.inr (by rw [entry_slot hroot]; exact ⟨hv, hf⟩))] at hp
    obtain rfl := List.mem_singleton.mp hp
    exact absurd hnull.2 (Nat.not_lt.mpr (slot_ge hroot _))

/-- **A call without pages enough**: a null pointer is followed, or the call fails and the
    address can never be mapped again. -/
theorem mmuMap_short {virt : Nat} (phys : Nat) (flags : Word)
    (hvacant : Vacant k.mem ρ (getVpns virt))
    (hpages : (freePages L k).card < missingTables k.mem ρ (getVpns virt)) :
    ∃ p ∈ mmuMapPointers L (4096 * ρ) virt k, p < PAGE_SIZE ∧
      (p = 0 → (mmuMap L (4096 * ρ) virt phys flags k).1 = -1 ∧
        ∀ m : Mem, (∀ x, ¬ InTable L x → m x = (mmuMap L (4096 * ρ) virt phys flags k).2.mem x) →
          ¬ Vacant m ρ (getVpns virt)) := by
  have hlow : (getVpns virt).vpn0.val < 256 := by
    rw [hT.vacant_iff hL] at hvacant
    by_contra hhigh
    exact hvacant (Or.inl (Nat.not_lt.mp hhigh))
  have hroot := hT.addressable hL (isTable_root k.mem ρ)
  have hO := hT.isTable_owned (isTable_root k.mem ρ)
  unfold mmuMap mmuMapPointers Vacant
  dsimp only
  generalize getVpns virt = v at hlow hpages ⊢
  rw [mmuRootGetAny_slot hroot.1]
  -- the cells of an owned page do not depend on the refcount table
  have hcells : ∀ {k' : Kernel} {n : Nat}, OwnedPage L k' n → ∀ {m m' : Mem},
      (∀ x, ¬ InTable L x → m x = m' x) → ∀ i, cells m n i = cells m' n i := by
    intro k' n hn m m' hsame i
    refine cells_congr (fun x hx => hsame x ?_) i
    subst hx
    exact hn.not_inTable
  unfold missingTables at hpages
  by_cases hfirst : tableAt k.mem ρ [v.vpn0] = none ∧ freePages L k = ∅
  · -- no page for the first table
    obtain ⟨p, k', hnext, hp, hset⟩ := mmuMapNext_exhausted hL hT hR (π := []) (by decide) rfl
      (fun _ => hlow) v.vpn1 hfirst.1 hfirst.2
    rw [mapPointers_cons hnext, mmuMapLoop_cons, hnext]
    dsimp only
    refine ⟨p, List.mem_cons_of_mem _ (mem_mapPointers L _ p k'), hp, ?_⟩
    rintro rfl
    have hstop : mmuMapLoop L [v.vpn2] 0 k' = (none, k') := by
      rw [mmuMapLoop_cons, mmuMapNext, if_pos (Or.inl rfl)]
    rw [hstop]
    refine ⟨rfl, fun m hm => ?_⟩
    rw [vacant_dead]
    · simp
    · rw [hcells hO hm, hset, setCell_same]
  · -- the first table is there, or a page for it
    obtain ⟨k1, c1, hnext1, hE1, hn1, _, h1⟩ := mmuMapNext_enough hL hT hR (π := []) (by decide) rfl
      (fun _ => hlow) v.vpn1 fun hnone => by
        have hne : (freePages L k).Nonempty := by
          rw [Finset.nonempty_iff_ne_empty]
          exact fun hempty => hfirst ⟨hnone, hempty⟩
        exact hne.card_pos
    rw [List.nil_append] at hn1 h1
    have hR1 : L.Reachable k1.mmu := by rwa [hE1.frame.mmu]
    have hsecond : tableAt k1.mem ρ ([v.vpn0] ++ [v.vpn1]) = none ∧ freePages L k1 = ∅ := by
      rcases h1 with ⟨hsome, rfl⟩ | ⟨hnone, hzero, hcard⟩
      · rw [if_neg hsome] at hpages
        split at hpages
        · rename_i hnone
          exact ⟨hnone, Finset.card_eq_zero.mp (by omega)⟩
        · exact absurd hpages (Nat.not_lt_zero _)
      · rw [if_pos hnone] at hpages
        refine ⟨?_, Finset.card_eq_zero.mp (by omega)⟩
        rw [tableAt_snoc, hn1, Option.bind_some, hzero]
        exact childTable_of_invalid valid_zero
    obtain ⟨p, k', hnext, hp, hset⟩ := mmuMapNext_exhausted hL hE1.tree hR1 (π := [v.vpn0])
      (Nat.lt_succ_self 1) hn1 (fun h => absurd h (List.cons_ne_nil _ _)) v.vpn2 hsecond.1
      hsecond.2
    rw [mapPointers_cons hnext1, mmuMapLoop_cons, hnext1,
      mapPointers_cons hnext]
    dsimp only
    rw [mmuMapLoop_cons, hnext]
    dsimp only
    refine ⟨p, ?_, hp, ?_⟩
    · exact List.mem_cons_of_mem _ (List.mem_cons_of_mem _ (mem_mapPointers L _ p k'))
    · rintro rfl
      rw [mmuMapLoop]
      dsimp only
      rw [if_pos (Or.inl rfl)]
      refine ⟨rfl, fun m hm => ?_⟩
      have hO1 := hE1.tree.owned [v.vpn0] c1 (Nat.le_succ 1) hn1
      have hne : ρ ≠ c1 := by
        rintro rfl
        exact absurd (hE1.tree.unshared [] [v.vpn0] ρ (Nat.zero_le 2) (Nat.le_succ 1) rfl hn1) (by simp)
      have hlink : childTable (cells m ρ v.vpn0) = some c1 := by
        rw [hcells hO hm, hset, setCell_other _ _ _ _ fun h => hne h.1]
        have hchild := tableAt_snoc k1.mem ρ [] v.vpn0
        rw [List.nil_append, hn1] at hchild
        exact hchild.symm
      rw [vacant_link hlink (hO1.addressable hL).1, vacant_dead]
      · simp
      · rw [hcells hO1 hm, hset, setCell_same]

end Enough

/-! ## 4. All or nothing -/

/-- The translation of every address, and the set of addresses that can be mapped, are the
    same in both memories. -/
def SameSpace (ρ : Nat) (m m' : Mem) : Prop :=
  denote m' ρ = denote m ρ ∧ ∀ v, Vacant m' ρ v ↔ Vacant m ρ v

/-- `mmu_map` follows no null pointer, changes nothing if it returns `-1`, and has mapped the
    address to the given page if it returns 0. -/
structure MapAllOrNothing (L : Layout) (root virt phys : Nat) (flags : Word) (k : Kernel) :
    Prop where
  pointers : ∀ p ∈ mmuMapPointers L root virt k, ¬ NullAccess p
  failure : (mmuMap L root virt phys flags k).1 = -1 →
    SameSpace (root / PAGE_SIZE) k.mem (mmuMap L root virt phys flags k).2.mem
  success : (mmuMap L root virt phys flags k).1 = 0 →
    denote (mmuMap L root virt phys flags k).2.mem (root / PAGE_SIZE) (getVpns virt) =
      some (.installed phys flags)

/-- `mmu_alloc` follows no null pointer, changes neither the table nor a refcount if it returns
    `NULL`, and otherwise has mapped the address to the page it returns, a free page that
    `alloc_pages` handed out. -/
structure AllocAllOrNothing (L : Layout) (root virt : Nat) (flags : Word) (k : Kernel) :
    Prop where
  pointers : ∀ p ∈ mmuMapPointers L root virt (allocPages L 1 k).2, ¬ NullAccess p
  failure : (mmuAlloc L root virt flags k).1 = 0 →
    SameSpace (root / PAGE_SIZE) k.mem (mmuAlloc L root virt flags k).2.mem ∧
      ∀ i, i < L.entryCount → rc L (mmuAlloc L root virt flags k).2 i = rc L k i
  success : (mmuAlloc L root virt flags k).1 ≠ 0 →
    (mmuAlloc L root virt flags k).1 = (allocPages L 1 k).1 ∧
    (∃ i, i ∈ freePages L k ∧ (mmuAlloc L root virt flags k).1 = L.pageAddr i) ∧
    denote (mmuAlloc L root virt flags k).2.mem (root / PAGE_SIZE) (getVpns virt) =
      some (.installed (mmuAlloc L root virt flags k).1 flags)

/-- There are pages for the tables that are missing, if the address can be mapped at all. -/
def EnoughToMap (L : Layout) (root virt : Nat) (k : Kernel) : Prop :=
  Vacant k.mem (root / PAGE_SIZE) (getVpns virt) →
    missingTables k.mem (root / PAGE_SIZE) (getVpns virt) ≤ (freePages L k).card

/-- There is one page more than that; and if the address is taken, the page that is handed out
    and given back is not the first one of the heap. -/
def EnoughToAlloc (L : Layout) (root virt : Nat) (k : Kernel) : Prop :=
  if Vacant k.mem (root / PAGE_SIZE) (getVpns virt) then
    missingTables k.mem (root / PAGE_SIZE) (getVpns virt) + 1 ≤ (freePages L k).card
  else 0 ∉ freePages L k

/-- Two trees with the same leaf entries are the same address space. -/
theorem Tree.sameSpace {L : Layout} (hL : L.WellFormed) {k k' : Kernel} {ρ : Nat}
    (hT : Tree L k ρ) (hT' : Tree L k' ρ) (hleaf : ∀ v, leaf k'.mem ρ v = leaf k.mem ρ v) :
    SameSpace ρ k.mem k'.mem := by
  constructor
  · funext v
    by_cases hlow : v.vpn0.val < 256
    · rw [denote_lower hT' hlow, denote_lower hT hlow, hleaf]
    · rw [denote_upper hT' (Nat.not_lt.mp hlow), denote_upper hT (Nat.not_lt.mp hlow)]
  · intro v
    rw [hT'.vacant_iff hL, hT.vacant_iff hL, Mapped, Mapped, hleaf]

/-- A leaf entry that `mmu_map` wrote. -/
theorem Tree.denote_placed {L : Layout} {k : Kernel} {ρ : Nat} (hT : Tree L k ρ) {v : PageNumber}
    {phys : Nat} {flags : Word} (hlow : v.vpn0.val < 256) (hphys : phys < 2 ^ 56)
    (hflags : mmuEntryFrame flags = true) (hleaf : leaf k.mem ρ v = leafEntry phys flags) :
    denote k.mem ρ v = some (.installed phys flags) := by
  rw [denote_lower hT hlow, hleaf, mappingOf_leafEntry hphys hflags]

section Calls

variable {L : Layout} (hL : L.WellFormed) {k : Kernel} {ρ : Nat} (hT : Tree L k ρ)
  (hR : L.Reachable k.mmu)
include hL hT

theorem lower_of_vacant {v : PageNumber} (h : Vacant k.mem ρ v) : v.vpn0.val < 256 := by
  rw [hT.vacant_iff hL] at h
  by_contra hhigh
  exact h (Or.inl (Nat.not_lt.mp hhigh))

include hR

/-- **`mmu_map` with pages enough.** -/
theorem mmuMap_keeps {virt phys : Nat} {flags : Word}
    (henough : EnoughToMap L (4096 * ρ) virt k) :
    Tree L (mmuMap L (4096 * ρ) virt phys flags k).2 ρ ∧
      (∀ v, leaf (mmuMap L (4096 * ρ) virt phys flags k).2.mem ρ v = leaf k.mem ρ v ∨
        leaf (mmuMap L (4096 * ρ) virt phys flags k).2.mem ρ v = leafEntry phys flags) ∧
      (phys < 2 ^ 56 → mmuEntryFrame flags = true →
        MapAllOrNothing L (4096 * ρ) virt phys flags k) := by
  unfold EnoughToMap at henough
  rw [root_page] at henough
  by_cases hvacant : Vacant k.mem ρ (getVpns virt)
  · have hlow := lower_of_vacant hL hT hvacant
    obtain ⟨hok, hpointers⟩ := mmuMap_enough hL hT hR phys flags hlow (henough hvacant)
    rcases mmuMap_spec hL hT hok with ⟨hm, _⟩ | ⟨_, hret, hE, hleaf⟩
    · exact absurd hm ((hT.vacant_iff hL _).mp hvacant)
    · refine ⟨hE.tree, fun v => ?_, fun hphys hflags => ⟨hpointers, fun hfail => ?_, fun _ => ?_⟩⟩
      · rw [hleaf v]
        split
        · exact Or.inr rfl
        · exact Or.inl rfl
      · rw [hret] at hfail
        exact absurd hfail (by decide)
      · rw [root_page]
        apply hE.tree.denote_placed hlow hphys hflags
        rw [hleaf, if_pos rfl]
  · have hm : Mapped k.mem ρ (getVpns virt) := by
      by_contra hno
      exact hvacant ((hT.vacant_iff hL _).mpr hno)
    obtain ⟨hcall, hpointers⟩ := mmuMap_taken hL hT hR phys flags hm
    refine ⟨by rwa [hcall], fun v => ?_, fun _ _ => ?_⟩
    · rw [hcall]
      exact Or.inl rfl
    · refine ⟨hpointers, fun _ => ?_, fun hret => ?_⟩
      · rw [hcall]
        exact ⟨rfl, fun _ => Iff.rfl⟩
      · rw [hcall] at hret
        exact absurd hret (by dsimp only; decide)

/-- **`mmu_map` without** is not all-or-nothing. -/
theorem mmuMap_breaks {virt phys : Nat} {flags : Word}
    (hshort : ¬ EnoughToMap L (4096 * ρ) virt k) :
    ¬ MapAllOrNothing L (4096 * ρ) virt phys flags k := by
  intro h
  unfold EnoughToMap at hshort
  rw [root_page] at hshort
  obtain ⟨hvacant, hless⟩ := Classical.not_imp.mp hshort
  obtain ⟨p, hp, hlt, hdead⟩ := mmuMap_short hL hT hR phys flags hvacant (Nat.not_le.mp hless)
  have hnull : p = 0 := by
    by_contra hne
    exact h.pointers p hp ⟨hne, hlt⟩
  obtain ⟨hret, hno⟩ := hdead hnull
  have hsame := (h.failure hret).2 (getVpns virt)
  rw [root_page] at hsame
  exact hno _ (fun _ _ => rfl) (hsame.mpr hvacant)

/-- Taking a page, or failing to, leaves the table alone. -/
theorem allocPages_tree : Tree L (allocPages L 1 k).2 ρ ∧
    (allocPages L 1 k).2.mmu = k.mmu ∧
    (∀ v, leaf (allocPages L 1 k).2.mem ρ v = leaf k.mem ρ v) ∧
    ∀ v, missingTables (allocPages L 1 k).2.mem ρ v = missingTables k.mem ρ v := by
  have hW : ∀ n, IsTable k.mem ρ n → ¬ False := fun _ _ => id
  have hframe : Frame L (fun _ => False) k (allocPages L 1 k).2 := by
    rcases allocPages_one hL hR with ⟨_, hcall⟩ | ⟨_, _, _, _, hg, _⟩
    · rw [hcall]
      exact ⟨fun _ _ h => h, fun _ _ _ _ => rfl, rfl⟩
    · obtain ⟨p, _, hfresh⟩ := allocPage_ok hL hg.failed
      exact hfresh.frame
  refine ⟨hT.frame hframe hW, hframe.mmu, hT.frame_leaf hframe hW, fun v => ?_⟩
  have h1 := hT.frame_tableAt hframe hW [v.vpn0] (Nat.le_succ 1)
  have h2 := hT.frame_tableAt hframe hW [v.vpn0, v.vpn1] (le_refl 2)
  rw [missingTables, missingTables, h1, h2]

omit hT hR in
/-- Giving back what `alloc_pages` returned, a page or `NULL`, touches the refcount table only. -/
theorem deallocPages_outside {k' : Kernel} (hR : L.Reachable k.mmu) {x : Nat} (hx : ¬ InTable L x) :
    (deallocPages L (allocPages L 1 k).1 1 k').mem x = k'.mem x := by
  rcases allocPages_one hL hR with ⟨_, hcall⟩ | ⟨i, hi, _, hcall, _⟩
  · have hnull : deallocPages L 0 1 k' = k' := by
      rw [deallocPages, safe2phys_low _ (by decide), pageRefCount, if_neg (Nat.not_lt_zero _)]
      rfl
    rw [hcall, hnull]
  · have hbound := (mem_freePages.mp hi).1
    rw [hcall]
    exact (@deallocPages_spec L hL k' (L.pageAddr i) i 1 (by omega) (by omega) (Or.inl rfl)).frame x hx

omit hT hR in
/-- **Taking a page and giving it back** leaves all refcounts as they were iff the page is not
    the first one of the heap. -/
theorem deallocPages_undoes (hR : L.Reachable k.mmu) :
    (0 ∉ freePages L k → ∀ j, j < L.entryCount →
      rc L (deallocPages L (allocPages L 1 k).1 1 (allocPages L 1 k).2) j = rc L k j) ∧
    (0 ∈ freePages L k → 0 < L.entryCount ∧ rc L k 0 = 0 ∧
      rc L (deallocPages L (allocPages L 1 k).1 1 (allocPages L 1 k).2) 0 = 1) := by
  rcases allocPages_one hL hR with ⟨hempty, hcall⟩ | ⟨i, hi, hlowest, hcall, hg, _⟩
  · constructor
    · intro _ j _
      rw [hcall]
      dsimp only
      rw [deallocPages, safe2phys_low _ (by decide), pageRefCount, if_neg (Nat.not_lt_zero _)]
      rfl
    · intro h0
      rw [hempty] at h0
      exact absurd h0 (Finset.notMem_empty 0)
  · have hbound := mem_freePages.mp hi
    have hrel := @deallocPages_spec L hL (allocPages L 1 k).2 (L.pageAddr i) i 1 (by omega) (by omega)
      (Or.inl rfl)
    rw [hcall]
    constructor
    · intro h0 j hj
      have hi0 : i ≠ 0 := by
        rintro rfl
        exact h0 hi
      rw [hrel.rc_eq j hj, hg.rc_eq j hj]
      by_cases hin : i ≤ j ∧ j < i + 1
      · rw [if_pos ⟨hi0, hin⟩, if_pos hin, show j = i by omega, hbound.2]
      · rw [if_neg fun h => hin h.2, if_neg hin]
    · intro h0
      obtain rfl : i = 0 := Nat.le_zero.mp (hlowest 0 h0)
      refine ⟨by omega, hbound.2, ?_⟩
      rw [hrel.rc_eq 0 (by omega), if_neg fun h => h.1 rfl, hg.rc_eq 0 (by omega), if_pos (by omega)]

omit hL hT hR in
/-- `mmu_alloc` when its `mmu_map` fails. -/
theorem mmuAlloc_of_failure {root virt : Nat} {flags : Word}
    (h : (mmuMap L root virt (allocPages L 1 k).1 flags (allocPages L 1 k).2).1 = -1) :
    mmuAlloc L root virt flags k = (0, deallocPages L (allocPages L 1 k).1 1
      (mmuMap L root virt (allocPages L 1 k).1 flags (allocPages L 1 k).2).2) := by
  rw [mmuAlloc_eq, h, if_pos (by decide)]

/-- An address that is taken: the page that `mmu_alloc` took is given back. -/
theorem mmuAlloc_taken {virt : Nat} (flags : Word) (hm : Mapped k.mem ρ (getVpns virt)) :
    mmuAlloc L (4096 * ρ) virt flags k =
      (0, deallocPages L (allocPages L 1 k).1 1 (allocPages L 1 k).2) ∧
    Tree L (mmuAlloc L (4096 * ρ) virt flags k).2 ρ ∧
    (∀ v, leaf (mmuAlloc L (4096 * ρ) virt flags k).2.mem ρ v = leaf k.mem ρ v) ∧
    ∀ p ∈ mmuMapPointers L (4096 * ρ) virt (allocPages L 1 k).2, ¬ NullAccess p := by
  obtain ⟨hT1, hmmu1, hleaf1, _⟩ := allocPages_tree hL hT hR
  obtain ⟨hcall, hpointers⟩ := mmuMap_taken hL hT1 (by rwa [hmmu1] : L.Reachable _)
    (allocPages L 1 k).1 flags (by rwa [Mapped, hleaf1] : Mapped _ ρ (getVpns virt))
  have hreturn := mmuAlloc_of_failure (congrArg Prod.fst hcall)
  rw [hcall] at hreturn
  dsimp only at hreturn
  rw [hreturn]
  have hframe : Frame L (fun _ => False) k
      (deallocPages L (allocPages L 1 k).1 1 (allocPages L 1 k).2) := by
    rcases allocPages_one hL hR with ⟨_, hno⟩ | ⟨_, _, _, _, hg, _⟩
    · refine ⟨fun i hi hpos => ?_, fun x hx _ _ => ?_, by simp⟩
      · rw [rc_congr hL (fun x _ => ?_) hi]
        · exact hpos
        · rw [hno]
          dsimp only
          rw [deallocPages, safe2phys_low _ (by decide), pageRefCount, if_neg (Nat.not_lt_zero _)]
          rfl
      · rw [deallocPages_outside hL hR hx, hno]
        rfl
    · obtain ⟨p, hpage, hfresh⟩ := allocPage_ok hL hg.failed
      rw [hpage]
      exact deallocPage_frame hL hfresh.free hfresh.frame
  have hW : ∀ n, IsTable k.mem ρ n → ¬ False := fun _ _ => id
  exact ⟨rfl, hT.frame hframe hW, hT.frame_leaf hframe hW, hpointers⟩

/-- **`mmu_alloc` with pages enough.** -/
theorem mmuAlloc_keeps {virt : Nat} {flags : Word} (henough : EnoughToAlloc L (4096 * ρ) virt k) :
    Tree L (mmuAlloc L (4096 * ρ) virt flags k).2 ρ ∧
      (∀ v, leaf (mmuAlloc L (4096 * ρ) virt flags k).2.mem ρ v = leaf k.mem ρ v ∨
        ∃ p, 4096 * p < 2 ^ 56 ∧
          leaf (mmuAlloc L (4096 * ρ) virt flags k).2.mem ρ v = leafEntry (4096 * p) flags) ∧
      (mmuEntryFrame flags = true → AllocAllOrNothing L (4096 * ρ) virt flags k) := by
  obtain ⟨hT1, hmmu1, hleaf1, hmissing1⟩ := allocPages_tree hL hT hR
  have hR1 : L.Reachable (allocPages L 1 k).2.mmu := by rwa [hmmu1]
  unfold EnoughToAlloc at henough
  rw [root_page] at henough
  by_cases hvacant : Vacant k.mem ρ (getVpns virt)
  · rw [if_pos hvacant] at henough
    have hlow := lower_of_vacant hL hT hvacant
    obtain ⟨halloc, hcard⟩ := allocPages_one_ok hL hR (by omega)
    obtain ⟨i, hi, hpage⟩ : ∃ i ∈ freePages L k, (allocPages L 1 k).1 = L.pageAddr i := by
      rcases allocPages_one hL hR with ⟨hempty, _⟩ | ⟨i, hi, _, hpage, _⟩
      · rw [hempty] at hcard
        exact absurd hcard (Nat.succ_ne_zero _)
      · exact ⟨i, hi, hpage⟩
    obtain ⟨hok, hpointers⟩ := mmuMap_enough hL hT1 hR1 (allocPages L 1 k).1 flags hlow
      (by rw [hmissing1]; omega)
    have hboth : (mmuAlloc L (4096 * ρ) virt flags k).2.failed = k.failed := by
      rw [mmuAlloc_eq]
      split
      · simp [hok, halloc]
      · simp [hok, halloc]
    rcases mmuAlloc_spec hL hT hboth with ⟨hm, _⟩ | ⟨_, p, hret, hP⟩
    · exact absurd hm ((hT.vacant_iff hL _).mp hvacant)
    · -- what is returned is the page that `alloc_pages` returned
      have hp0 : 4096 * p ≠ 0 := by
        have := (hP.owned.addressable hL).1
        omega
      have hsame : (mmuAlloc L (4096 * ρ) virt flags k).1 = (allocPages L 1 k).1 := by
        rw [mmuAlloc_eq] at hret ⊢
        split at hret
        · exact absurd hret.symm hp0
        · rename_i hno
          rw [if_neg hno]
      refine ⟨hP.evolves.tree, fun v => ?_, fun hflags => ⟨hpointers, fun hfail => ?_, fun _ =>
        ⟨hsame, ⟨i, hi, hsame.trans hpage⟩, ?_⟩⟩⟩
      · rw [hP.leaf_eq v]
        split
        · exact Or.inr ⟨p, hP.owned.lt hL, rfl⟩
        · exact Or.inl rfl
      · exact absurd (hret.symm.trans hfail) hp0
      · rw [root_page, hret]
        apply hP.evolves.tree.denote_placed hlow (hP.owned.lt hL) hflags
        rw [hP.leaf_eq, if_pos rfl]
  · rw [if_neg hvacant] at henough
    have hm : Mapped k.mem ρ (getVpns virt) := by
      by_contra hno
      exact hvacant ((hT.vacant_iff hL _).mpr hno)
    obtain ⟨hcall, hT', hleaf', hpointers⟩ := mmuAlloc_taken hL hT hR flags hm
    refine ⟨hT', fun v => Or.inl (hleaf' v), fun _ => ⟨hpointers, fun _ => ⟨?_, ?_⟩, fun hret => ?_⟩⟩
    · rw [root_page]
      exact hT.sameSpace hL hT' hleaf'
    · rw [hcall]
      exact (deallocPages_undoes hL hR).1 henough
    · rw [hcall] at hret
      exact absurd rfl hret

/-- **`mmu_alloc` without** is not all-or-nothing. -/
theorem mmuAlloc_breaks {virt : Nat} {flags : Word}
    (hshort : ¬ EnoughToAlloc L (4096 * ρ) virt k) :
    ¬ AllocAllOrNothing L (4096 * ρ) virt flags k := by
  intro h
  obtain ⟨hT1, hmmu1, hleaf1, hmissing1⟩ := allocPages_tree hL hT hR
  have hR1 : L.Reachable (allocPages L 1 k).2.mmu := by rwa [hmmu1]
  have hfailure := h.failure
  rw [root_page] at hfailure
  unfold EnoughToAlloc at hshort
  rw [root_page] at hshort
  by_cases hvacant : Vacant k.mem ρ (getVpns virt)
  · rw [if_pos hvacant, Nat.not_le] at hshort
    have hvacant1 : Vacant (allocPages L 1 k).2.mem ρ (getVpns virt) := by
      rw [hT1.vacant_iff hL, Mapped, hleaf1, ← Mapped]
      exact (hT.vacant_iff hL _).mp hvacant
    by_cases hmissing : (freePages L (allocPages L 1 k).2).card <
        missingTables (allocPages L 1 k).2.mem ρ (getVpns virt)
    · -- no page for a table
      obtain ⟨p, hp, hlt, hdead⟩ := mmuMap_short hL hT1 hR1 (allocPages L 1 k).1 flags hvacant1
        hmissing
      have hnull : p = 0 := by
        by_contra hne
        exact h.pointers p hp ⟨hne, hlt⟩
      obtain ⟨hret, hno⟩ := hdead hnull
      rw [mmuAlloc_of_failure hret] at hfailure
      refine hno _ (fun x hx => ?_) (((hfailure rfl).1.2 _).mpr hvacant)
      exact deallocPages_outside hL hR hx
    · -- no page to map, but all the tables
      obtain ⟨hempty, halloc⟩ : freePages L k = ∅ ∧ allocPages L 1 k = (0, k.fail) := by
        rcases allocPages_one hL hR with hno | ⟨i, hi, _, _, _, herase⟩
        · exact hno
        · rw [herase, hmissing1] at hmissing
          have hcard := Finset.card_erase_add_one hi
          omega
      have hlow := lower_of_vacant hL hT1 hvacant1
      obtain ⟨hok, _⟩ := mmuMap_enough hL hT1 hR1 (allocPages L 1 k).1 flags hlow
        (Nat.not_lt.mp hmissing)
      rcases mmuMap_spec hL hT1 hok with ⟨hm, _⟩ | ⟨_, hret, hE, hleaf⟩
      · exact (hT1.vacant_iff hL _).mp hvacant1 hm
      · have hreturn : mmuAlloc L (4096 * ρ) virt flags k = ((allocPages L 1 k).1,
            (mmuMap L (4096 * ρ) virt (allocPages L 1 k).1 flags (allocPages L 1 k).2).2) := by
          rw [mmuAlloc_eq, hret, if_neg (by decide)]
        have hnull : (allocPages L 1 k).1 = 0 := by rw [halloc]
        rw [hreturn] at hfailure
        have hsame := ((hfailure hnull).1.2 (getVpns virt)).mpr hvacant
        rw [hE.tree.vacant_iff hL, Mapped, hleaf, if_pos rfl, hnull] at hsame
        exact hsame (Or.inr (valid_leafEntry (by decide) flags))
  · rw [if_neg hvacant, not_not] at hshort
    have hm : Mapped k.mem ρ (getVpns virt) := by
      by_contra hno
      exact hvacant ((hT.vacant_iff hL _).mpr hno)
    obtain ⟨hcall, _⟩ := mmuAlloc_taken hL hT hR flags hm
    obtain ⟨hpos, hzero, hone⟩ := (deallocPages_undoes hL hR).2 hshort
    rw [hcall] at hfailure
    have hsame := (hfailure rfl).2 0 hpos
    dsimp only at hsame
    rw [hone, hzero] at hsame
    exact absurd hsame (by decide)

end Calls

/-! ## 5. Tables that can be reached -/

/-- What can happen to a table after `create_mmu_table`.  `elsewhere` is everything else the
    machine does. -/
inductive TableCall where
  | map (virtAddr physical : Nat) (flags : Word)
  | alloc (virtAddr : Nat) (flags : Word)
  | changeFlags (virtAddr : Nat) (flags : Word)
  | remove (virtAddr : Nat)
  | elsewhere

/-- One step of the table at `root`.  Flags are changed and pages are removed in the lower half
    only; whatever happens elsewhere leaves the pages of the table alone, and may turn the MMU
    on or off and take all the pages that are left. -/
inductive TableStep (L : Layout) (root : Nat) : Kernel → TableCall → Kernel → Prop
  | map (k : Kernel) (virt phys : Nat) (flags : Word) :
      TableStep L root k (.map virt phys flags) (mmuMap L root virt phys flags k).2
  | alloc (k : Kernel) (virt : Nat) (flags : Word) :
      TableStep L root k (.alloc virt flags) (mmuAlloc L root virt flags k).2
  | changeFlags (k : Kernel) (virt : Nat) (flags : Word) (hlow : (getVpns virt).vpn0.val < 256) :
      TableStep L root k (.changeFlags virt flags) (mmuChangeFlags root virt flags k)
  | remove (k : Kernel) (virt : Nat) (hlow : (getVpns virt).vpn0.val < 256) :
      TableStep L root k (.remove virt) (mmuRemove root virt k).2
  | elsewhere (k k' : Kernel) (hR : L.Reachable k'.mmu)
      (hsame : ∀ n, IsTable k.mem (root / PAGE_SIZE) n →
        OwnedPage L k' n ∧ ∀ x, x / PAGE_SIZE = n → k'.mem x = k.mem x) :
      TableStep L root k .elsewhere k'

/-- There are pages enough for the call. -/
def EnoughPages (L : Layout) (root : Nat) (k : Kernel) : TableCall → Prop
  | .map virt _ _ => EnoughToMap L root virt k
  | .alloc virt _ => EnoughToAlloc L root virt k
  | _ => True

/-- A tree depends on its own pages only. -/
theorem Tree.elsewhere {L : Layout} {k k' : Kernel} {ρ : Nat} (hT : Tree L k ρ)
    (hsame : ∀ n, IsTable k.mem ρ n → OwnedPage L k' n ∧ ∀ x, x / 4096 = n → k'.mem x = k.mem x) :
    Tree L k' ρ ∧ ∀ v, leaf k'.mem ρ v = leaf k.mem ρ v := by
  have hcells : ∀ n, IsTable k.mem ρ n → ∀ i, cells k'.mem n i = cells k.mem n i :=
    fun n hn => cells_congr (hsame n hn).2
  have hpath : ∀ π : List (Fin 512), π.length ≤ 2 → tableAt k'.mem ρ π = tableAt k.mem ρ π := by
    intro π hπ
    refine nodeAt_congr (d := 2) (fun σ n i hσ hn => ?_) π hπ
    rw [hcells n ⟨σ, hσ.le, hn⟩]
  refine ⟨⟨fun π n hπ hn => ?_, hT.unshared.congr hpath, fun π n i hπ hn hlow => ?_, fun i hi => ?_⟩,
    fun v => ?_⟩
  · rw [hpath π hπ] at hn
    exact (hsame n ⟨π, hπ, hn⟩).1
  · rw [hpath π hπ.le] at hn
    rw [hcells n ⟨π, hπ.le, hn⟩]
    exact hT.noFrames π n i hπ hn hlow
  · rw [hcells ρ (isTable_root _ _)]
    exact hT.direct i hi
  · unfold leaf
    rw [hpath _ (le_refl 2)]
    cases hn : tableAt k.mem ρ [v.vpn0, v.vpn1] with
    | none => rfl
    | some n => exact hcells n ⟨_, le_refl 2, hn⟩ _

theorem mmuAlloc_satp (L : Layout) (root virt : Nat) (flags : Word) (k : Kernel) :
    (mmuAlloc L root virt flags k).2.satp = k.satp := by
  rw [mmuAlloc_eq]
  split
  · simp
  · simp

/-- **One step** with pages enough leaves a tree. -/
theorem TableStep.tree {L : Layout} (hL : L.WellFormed) {ρ : Nat} {k k' : Kernel}
    {call : TableCall} (hT : Tree L k ρ) (hR : L.Reachable k.mmu)
    (henough : EnoughPages L (4096 * ρ) k call) (hstep : TableStep L (4096 * ρ) k call k') :
    Tree L k' ρ ∧ L.Reachable k'.mmu := by
  cases hstep with
  | map virt phys flags =>
    refine ⟨(mmuMap_keeps hL hT hR henough).1, ?_⟩
    rwa [Kernel.mmu, mmuMap_satp, ← Kernel.mmu]
  | alloc virt flags =>
    refine ⟨(mmuAlloc_keeps hL hT hR henough).1, ?_⟩
    rwa [Kernel.mmu, mmuAlloc_satp, ← Kernel.mmu]
  | changeFlags virt flags hlow =>
    rcases mmuChangeFlags_lower hL hT hlow flags with ⟨_, hsame⟩ | ⟨_, hE, _⟩
    · rw [hsame]
      exact ⟨hT, hR⟩
    · exact ⟨hE.tree, by rwa [hE.frame.mmu]⟩
  | remove virt hlow =>
    rcases mmuRemove_lower hL hT hlow with ⟨_, hsame⟩ | ⟨_, _, hE, _⟩
    · rw [hsame]
      exact ⟨hT, hR⟩
    · exact ⟨hE.tree, by rwa [hE.frame.mmu]⟩
  | elsewhere _ hR' hsame =>
    rw [root_page] at hsame
    exact ⟨(hT.elsewhere hsame).1, hR'⟩

/-- **Every run** of such steps from a new table leaves a tree. -/
theorem reachable_tree {L : Layout} (hL : L.WellFormed) {k0 k s : Kernel} {root : Nat}
    (hR : L.Reachable k0.mmu) (hcreate : createMmuTable L k0 = (root, k))
    (hok : k.failed = k0.failed) {calls : List TableCall}
    (hrun : Run (guarded (EnoughPages L root) (TableStep L root)) k calls s) :
    ∃ ρ, root = 4096 * ρ ∧ Tree L s ρ ∧ L.Reachable s.mmu := by
  have hnew := createMmuTable_refines hL (by rw [hcreate]; exact hok)
  rw [hcreate] at hnew
  obtain ⟨ρ, hroot, hrefines, hmmu⟩ := hnew
  dsimp only at hroot hrefines hmmu
  subst hroot
  refine ⟨ρ, rfl, ?_⟩
  refine @Run.invariant _ _ _ (fun s => Tree L s ρ ∧ L.Reachable s.mmu) ?_ _ _ _ hrun
    ⟨hrefines.tree, by rwa [hmmu]⟩
  rintro s call t ⟨hT, hR'⟩ ⟨henough, hstep⟩
  exact hstep.tree hL hT hR' henough

/-- **When `mmu_map` and `mmu_alloc` are all-or-nothing**: if there are pages enough. -/
theorem map_all_or_nothing_iff (L : Layout) (hL : L.WellFormed) (k0 k s : Kernel) (root : Nat)
    (hR : L.Reachable k0.mmu) (hcreate : createMmuTable L k0 = (root, k))
    (hok : k.failed = k0.failed) (calls : List TableCall)
    (hrun : Run (guarded (EnoughPages L root) (TableStep L root)) k calls s)
    (virt phys : Nat) (flags : Word) (hphys : phys < 2 ^ 56) (hflags : mmuEntryFrame flags = true) :
    (MapAllOrNothing L root virt phys flags s ↔ EnoughToMap L root virt s) ∧
      (AllocAllOrNothing L root virt flags s ↔ EnoughToAlloc L root virt s) := by
  obtain ⟨ρ, rfl, hT, hR'⟩ := reachable_tree hL hR hcreate hok hrun
  constructor
  · constructor
    · intro h
      by_contra hshort
      exact mmuMap_breaks hL hT hR' hshort h
    · intro henough
      exact (mmuMap_keeps hL hT hR' henough).2.2 hphys hflags
  · constructor
    · intro h
      by_contra hshort
      exact mmuAlloc_breaks hL hT hR' hshort h
    · intro henough
      exact (mmuAlloc_keeps hL hT hR' henough).2.2 hflags

theorem map_all_or_nothing_small : ∃ s,
    (MapAllOrNothing .small 0x80201000 0x10000000 0x80600000 MMU_BIT_READ s ↔
      EnoughToMap .small 0x80201000 0x10000000 s) ∧
    (AllocAllOrNothing .small 0x80201000 0x10000000 MMU_BIT_READ s ↔
      EnoughToAlloc .small 0x80201000 0x10000000 s) := by
  have hroot : (createMmuTable .small .blank).1 = 0x80201000 := by decide +kernel
  have hok : (createMmuTable .small .blank).2.failed = 0 := by decide +kernel
  rcases hcreate : createMmuTable .small .blank with ⟨root, k⟩
  rw [hcreate] at hroot hok
  dsimp only at hroot hok
  subst hroot
  have hR : Layout.small.Reachable Kernel.blank.mmu := fun hon => absurd hon (by decide)
  exact ⟨k, map_all_or_nothing_iff .small Layout.small_wellFormed .blank k k 0x80201000 hR hcreate hok
    [] (.nil k) 0x10000000 0x80600000 MMU_BIT_READ (by decide) (by decide)⟩

/-- The state after all pages that were left have been taken, each more than once. -/
def Kernel.exhausted (L : Layout) (k : Kernel) : Kernel :=
  { k with mem := fun x => if L.pagesBottom ≤ x ∧ x < L.heapBottom then 1 else k.mem x }

theorem exhausted_elsewhere {L : Layout} (hL : L.WellFormed) {k : Kernel} {ρ : Nat}
    (hT : Tree L k ρ) (hR : L.Reachable k.mmu) :
    TableStep L (4096 * ρ) k .elsewhere (k.exhausted L) := by
  refine .elsewhere k (k.exhausted L) hR fun n hn => ?_
  rw [root_page] at hn
  have hO := hT.isTable_owned hn
  constructor
  · obtain ⟨⟨i, hi, hpage, _⟩, hon⟩ := hO
    refine ⟨⟨i, hi, hpage, ?_⟩, hon⟩
    have hb := hL.bounds
    have hbyte : ∀ x, L.pagesBottom ≤ x → x < L.heapBottom → (k.exhausted L).mem x = 1 :=
      fun x h1 h2 => if_pos ⟨h1, h2⟩
    simp only [rc, ByteMemory.load]
    rw [hbyte _ (by omega) (by omega)]
    simp
  · intro x hx
    exact if_neg fun hin => (hx ▸ hO : OwnedPage L k (x / 4096)).not_inTable hin

/-- No page is left.  `mmu_alloc` returns `NULL` and has mapped the address to page 0;
    `mmu_map` returns `-1`, and the address can never be mapped again. -/
theorem map_all_or_nothing_fails : ∃ k s, createMmuTable .small .blank = (0x80201000, k) ∧
    k.failed = 0 ∧ Run (TableStep .small 0x80201000) k [.elsewhere] s ∧
    (mmuAlloc .small 0x80201000 0x80300000 MMU_BIT_READ s).1 = 0 ∧
    denote s.mem 0x80201 (getVpns 0x80300000) = none ∧
    denote (mmuAlloc .small 0x80201000 0x80300000 MMU_BIT_READ s).2.mem 0x80201
      (getVpns 0x80300000) = some (.installed 0 MMU_BIT_READ) ∧
    (mmuMap .small 0x80201000 0x10000000 0x80600000 MMU_BIT_READ s).1 = -1 ∧
    Vacant s.mem 0x80201 (getVpns 0x10000000) ∧
    ¬ Vacant (mmuMap .small 0x80201000 0x10000000 0x80600000 MMU_BIT_READ s).2.mem 0x80201
      (getVpns 0x10000000) ∧
    ¬ AllocAllOrNothing .small 0x80201000 0x80300000 MMU_BIT_READ s ∧
    ¬ MapAllOrNothing .small 0x80201000 0x10000000 0x80600000 MMU_BIT_READ s := by
  have hroot : (createMmuTable .small .blank).1 = 0x80201000 := by decide +kernel
  have hok : (createMmuTable .small .blank).2.failed = 0 := by decide +kernel
  have hnull : (mmuAlloc .small 0x80201000 0x80300000 MMU_BIT_READ
      ((createMmuTable .small .blank).2.exhausted .small)).1 = 0 := by decide +kernel
  have hbefore : denote ((createMmuTable .small .blank).2.exhausted .small).mem 0x80201
      (getVpns 0x80300000) = none := by decide +kernel
  have hafter : denote (mmuAlloc .small 0x80201000 0x80300000 MMU_BIT_READ
      ((createMmuTable .small .blank).2.exhausted .small)).2.mem 0x80201 (getVpns 0x80300000) =
        some (.installed 0 MMU_BIT_READ) := by decide +kernel
  have hret : (mmuMap .small 0x80201000 0x10000000 0x80600000 MMU_BIT_READ
      ((createMmuTable .small .blank).2.exhausted .small)).1 = -1 := by decide +kernel
  have hopen : Vacant ((createMmuTable .small .blank).2.exhausted .small).mem 0x80201
      (getVpns 0x10000000) := by decide +kernel
  have hdead : ¬ Vacant (mmuMap .small 0x80201000 0x10000000 0x80600000 MMU_BIT_READ
      ((createMmuTable .small .blank).2.exhausted .small)).2.mem 0x80201 (getVpns 0x10000000) := by
    decide +kernel
  obtain ⟨ρ, hρ, hrefines, hmmu⟩ := createMmuTable_refines Layout.small_wellFormed
    (k := .blank) hok
  rcases hcreate : createMmuTable .small .blank with ⟨root, k⟩
  rw [hcreate] at hroot hok hnull hbefore hafter hret hopen hdead hρ hrefines hmmu
  dsimp only at hroot hok hnull hbefore hafter hret hopen hdead hρ hrefines hmmu
  subst hroot
  have hR : Layout.small.Reachable k.mmu := by
    rw [hmmu]
    exact fun hon => absurd hon (by decide)
  have hstep := exhausted_elsewhere Layout.small_wellFormed hrefines.tree hR
  rw [← hρ] at hstep
  have hpage : 0x80201000 / PAGE_SIZE = 0x80201 := by decide
  refine ⟨k, k.exhausted .small, rfl, hok, .cons hstep (.nil _), hnull, hbefore, hafter, hret, hopen,
    hdead, fun h => ?_, fun h => ?_⟩
  · have hsame := (h.failure hnull).1.1
    rw [hpage] at hsame
    rw [congrFun hsame, hbefore] at hafter
    exact nomatch hafter
  · have hsame := (h.failure hret).2 (getVpns 0x10000000)
    rw [hpage] at hsame
    exact hdead (hsame.mpr hopen)

end IloPali
