import IloPali.Mmu
import Mathlib.Order.Interval.Set.Basic
import Mathlib.Data.Set.Function

/-!
# Back and forth between physical addresses and the direct map

`phys2safe` takes the first address of the direct map for a physical address, since it
tests for `<=` where `safe2phys` tests for `>=`.  So physical page 0 has a kernel pointer that
`phys2safe` itself does not leave alone.
-/

namespace IloPali

/-! ## 1. Coherence -/

/-- The first address of the direct map is taken for a physical one. -/
theorem phys2safe_offset : phys2safe true KERNEL_SPACE_OFFSET = 0 := by decide

/-- `phys2safe` leaves every other address of the direct map alone. -/
theorem phys2safe_safe {a : Nat} (ha : KERNEL_SPACE_OFFSET < a) : phys2safe true a = a :=
  if_neg fun h => absurd h.2 (Nat.not_le.mpr ha)

theorem phys2safe_injOn : Set.InjOn (phys2safe true) (Set.Iio DIRECT_MAP_SIZE) := by
  intro p hp q hq heq
  rw [phys2safe_on hp, phys2safe_on hq] at heq
  exact Nat.add_left_cancel heq

theorem phys2safe_image : Set.image (phys2safe true) (Set.Iio DIRECT_MAP_SIZE) =
    Set.Ico KERNEL_SPACE_OFFSET (2 ^ 64) := by
  have hsum := KERNEL_SPACE_OFFSET_add
  ext a
  constructor
  · rintro ⟨p, hp, rfl⟩
    have hp' : p < DIRECT_MAP_SIZE := hp
    rw [phys2safe_on hp']
    exact ⟨Nat.le_add_right _ _, by omega⟩
  · rintro ⟨hlo, hhi⟩
    have hlt : a - KERNEL_SPACE_OFFSET < DIRECT_MAP_SIZE := by omega
    refine ⟨a - KERNEL_SPACE_OFFSET, hlt, ?_⟩
    rw [phys2safe_on hlt]
    exact Nat.add_sub_cancel' hlo

theorem phys2safe_twice_iff {mmu : Bool} {p : Nat} (hp : p < DIRECT_MAP_SIZE) :
    phys2safe mmu (phys2safe mmu p) = phys2safe mmu p ↔ ¬ (mmu = true ∧ p = 0) := by
  constructor
  · rintro htwice ⟨rfl, rfl⟩
    rw [phys2safe_on hp, Nat.add_zero, phys2safe_offset] at htwice
    exact absurd htwice (by decide)
  · intro hno
    cases mmu with
    | false => simp
    | true =>
      have hpos : 0 < p := Nat.pos_of_ne_zero fun hzero => hno ⟨rfl, hzero⟩
      exact phys2safe_phys2safe hpos fun _ => hp

/-- **The conversions agree** about every physical address, but for address 0 with the MMU on:
    there a second `phys2safe` takes the first address of the direct map to `NULL`. -/
theorem direct_map_coherent_iff (mmu : Bool) {p : Nat} (hp : p < DIRECT_MAP_SIZE) :
    safe2phys mmu (phys2safe mmu p) = p ∧
      (phys2safe mmu (phys2safe mmu p) = phys2safe mmu p ↔ ¬ (mmu = true ∧ p = 0)) ∧
      Set.InjOn (phys2safe true) (Set.Iio DIRECT_MAP_SIZE) ∧
      Set.image (phys2safe true) (Set.Iio DIRECT_MAP_SIZE) =
        Set.Ico KERNEL_SPACE_OFFSET (2 ^ 64) ∧
      ∀ a ∈ Set.Ico KERNEL_SPACE_OFFSET (2 ^ 64),
        (phys2safe true a = a ↔ a ≠ KERNEL_SPACE_OFFSET) := by
  refine ⟨safe2phys_phys2safe fun _ => hp, phys2safe_twice_iff hp, phys2safe_injOn,
    phys2safe_image, fun a ha => ⟨?_, fun hne => ?_⟩⟩
  · rintro heq rfl
    rw [phys2safe_offset] at heq
    exact absurd heq (by decide)
  · exact phys2safe_safe (Nat.lt_of_le_of_ne ha.1 hne.symm)

/-- The physical page after the first. -/
theorem direct_map_coherent_second : safe2phys true (phys2safe true 4096) = 4096 ∧
    phys2safe true (phys2safe true 4096) = phys2safe true 4096 := by
  obtain ⟨hback, htwice, _⟩ :=
    direct_map_coherent_iff true (show 4096 < DIRECT_MAP_SIZE by decide)
  exact ⟨hback, htwice.mpr (by decide)⟩

/-- Physical address 0, seen through the direct map. -/
theorem direct_map_not_coherent :
    phys2safe true (phys2safe true 0) ≠ phys2safe true 0 ∧
      KERNEL_SPACE_OFFSET ∈ Set.image (phys2safe true) (Set.Iio DIRECT_MAP_SIZE) ∧
      phys2safe true KERNEL_SPACE_OFFSET ≠ KERNEL_SPACE_OFFSET :=
  ⟨by decide, ⟨0, by decide, by decide⟩, by decide⟩

/-! ## 2. Following an entry -/

/-- An entry that links to physical page 0 is followed to a pointer near `NULL`. -/
theorem mmuEntryGetAny_page_zero {k : Kernel} {e : Word} {i : Nat} (hmmu : k.mmu = true)
    (hvalid : mmuEntryValid e = true) (hframe : mmuEntryFrame e = false)
    (hphys : entryPhys e = 0) (hi : i < MMU_ENTRY_COUNT) : mmuEntryGetAny k e i = 8 * i := by
  have hstart : phys2safe true 0 = KERNEL_SPACE_OFFSET := by decide
  have hne : KERNEL_SPACE_OFFSET ≠ 0 := by decide
  rw [mmuEntryGetAny, if_neg (by simp [hvalid, hframe]), if_neg (Nat.not_le.mpr hi)]
  simp only [mmuEntryPhys, hphys, hmmu, hstart, phys2safe_offset]
  rw [if_neg hne, Nat.zero_add]

end IloPali
