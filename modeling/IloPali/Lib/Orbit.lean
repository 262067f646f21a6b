import Mathlib.Data.Finset.Card
import Mathlib.Data.Nat.Find
import Mathlib.Logic.Function.Iterate

/-!
# Orbits that leave a finite set

A loop that follows the links `f` from `x` while it stays inside a finite set.  It leaves the set
if and only if no point is met twice before that, and then within as many steps as the set has
points.
-/

namespace Orbit

variable {α : Type} {f : α → α} {S : Finset α} {x : α}

/-- No point is met twice before the orbit of `x` leaves `S`. -/
def Simple (f : α → α) (S : Finset α) (x : α) : Prop :=
  ∀ i j, i < j → (∀ m, m ≤ j → f^[m] x ∈ S) → f^[i] x ≠ f^[j] x

theorem iterate_add_eq {i j : Nat} (h : f^[i] x = f^[j] x) (n : Nat) :
    f^[n + i] x = f^[n + j] x := by
  rw [Function.iterate_add_apply, Function.iterate_add_apply, h]

/-- An orbit that comes back before it leaves `S` never leaves it. -/
theorem mem_of_return {i j : Nat} (hij : i < j) (h : f^[i] x = f^[j] x)
    (hmem : ∀ m, m ≤ j → f^[m] x ∈ S) (n : Nat) : f^[n] x ∈ S := by
  induction n using Nat.strong_induction_on with
  | _ n ih =>
    by_cases hn : n ≤ j
    · exact hmem n hn
    · have hback := iterate_add_eq h (n - j)
      rw [Nat.sub_add_cancel (Nat.le_of_not_le hn)] at hback
      rw [← hback]
      exact ih _ (by omega)

theorem simple_of_exit {n : Nat} (h : f^[n] x ∉ S) : Simple f S x := by
  intro i j hij hmem heq
  exact h (mem_of_return hij heq hmem n)

/-- The pigeonhole principle, along the orbit. -/
theorem exit_of_simple (h : Simple f S x) : ∃ n, n ≤ S.card ∧ f^[n] x ∉ S := by
  by_contra hstay
  have hmem : ∀ n, n ≤ S.card → f^[n] x ∈ S := by
    intro n hn
    by_contra hout
    exact hstay ⟨n, hn, hout⟩
  have hcard : S.card < (Finset.range (S.card + 1)).card := by simp
  have hmaps : ∀ n ∈ Finset.range (S.card + 1), f^[n] x ∈ S := by
    intro n hn
    exact hmem n (Nat.le_of_lt_succ (Finset.mem_range.mp hn))
  obtain ⟨a, ha, b, hb, hne, heq⟩ := Finset.exists_ne_map_eq_of_card_lt_of_maps_to hcard hmaps
  have hle : ∀ n ∈ Finset.range (S.card + 1), ∀ m, m ≤ n → f^[m] x ∈ S := by
    intro n hn m hm
    exact hmem m (Nat.le_trans hm (Nat.le_of_lt_succ (Finset.mem_range.mp hn)))
  rcases Nat.lt_or_gt_of_ne hne with hab | hba
  · exact h a b hab (hle b hb) heq
  · exact h b a hba (hle a ha) heq.symm

/-- The first exit. -/
theorem first_exit (h : Simple f S x) :
    ∃ n, n ≤ S.card ∧ f^[n] x ∉ S ∧ ∀ m, m < n → f^[m] x ∈ S := by
  classical
  obtain ⟨n, hn, hout⟩ := exit_of_simple h
  have hex : ∃ n, f^[n] x ∉ S := ⟨n, hout⟩
  refine ⟨Nat.find hex, ?_, Nat.find_spec hex, ?_⟩
  · exact Nat.le_trans (Nat.find_min' hex hout) hn
  · intro m hm
    exact Decidable.not_not.mp (Nat.find_min hex hm)

end Orbit
