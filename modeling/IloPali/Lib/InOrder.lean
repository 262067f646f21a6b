import Mathlib.Data.List.Basic

/-!
# Finding the elements of a list in order

A search that takes the elements of `l` one after the other, each as soon as it meets
it, has met as many of them as any search can: after the elements `xs` it has met the
longest prefix of `l` that is a sublist of `xs`.  And a search that passes some of the
elements over still finds the first one unless that is one of them.
-/

namespace InOrder

variable {α : Type}

/-- A search for the elements of `l` has met the first `d` of them in `xs`, and no more
    could be met. -/
def Met (l xs : List α) (d : Nat) : Prop :=
  ∀ j, j ≤ l.length → ((l.take j).Sublist xs ↔ j ≤ d)

/-- One more element of `xs` can serve as the last one of a prefix of `l`. -/
theorem take_sublist_snoc {l xs : List α} {x : α} {j : Nat} (hj : j < l.length) :
    (l.take (j + 1)).Sublist (xs ++ [x]) ↔
      (l.take (j + 1)).Sublist xs ∨ (l[j] = x ∧ (l.take j).Sublist xs) := by
  have hsnoc : l.take (j + 1) = l.take j ++ [l[j]] := (List.take_append_getElem hj).symm
  constructor
  · intro h
    obtain ⟨l₁, l₂, heq, h₁, h₂⟩ := List.sublist_append_iff.mp h
    cases l₂ with
    | nil =>
      rw [List.append_nil] at heq
      rw [heq]
      exact Or.inl h₁
    | cons y l₂ =>
      obtain ⟨rfl, rfl⟩ : y = x ∧ l₂ = [] := by
        have hle := h₂.length_le
        rw [List.length_cons, List.length_singleton] at hle
        have hnil : l₂ = [] := List.eq_nil_of_length_eq_zero (by omega)
        subst hnil
        exact ⟨List.mem_singleton.mp (h₂.subset List.mem_cons_self), rfl⟩
      rw [hsnoc] at heq
      obtain ⟨rfl, hlast⟩ := List.append_inj' heq rfl
      exact Or.inr ⟨(List.cons.inj hlast).1, h₁⟩
  · rintro (h | ⟨rfl, h⟩)
    · exact h.trans (List.sublist_append_left xs [x])
    · rw [hsnoc]
      exact h.append (List.Sublist.refl _)

theorem Met.nil (l : List α) : Met l [] 0 := by
  intro j hj
  rw [List.sublist_nil, List.take_eq_nil_iff]
  constructor
  · rintro (h | rfl)
    · exact Nat.le_of_eq h
    · exact hj
  · exact fun h => Or.inl (Nat.le_zero.mp h)

/-- The element that is looked for is met. -/
theorem Met.hit {l xs : List α} {d : Nat} (h : Met l xs d) (hd : d < l.length) :
    Met l (xs ++ [l[d]]) (d + 1) := by
  intro j hj
  cases j with
  | zero => exact ⟨fun _ => Nat.zero_le _, fun _ => List.nil_sublist _⟩
  | succ j =>
    rw [take_sublist_snoc hj, h (j + 1) hj, h j (Nat.le_of_succ_le hj)]
    constructor
    · rintro (hle | ⟨_, hle⟩)
      · omega
      · omega
    · intro hle
      rcases Nat.lt_or_eq_of_le hle with hlt | heq
      · exact Or.inl (Nat.le_of_lt_succ hlt)
      · obtain rfl : j = d := Nat.succ.inj heq
        exact Or.inr ⟨rfl, Nat.le_refl j⟩

/-- Another element changes nothing. -/
theorem Met.miss {l xs : List α} {d : Nat} {x : α} (h : Met l xs d)
    (hne : ∀ hd : d < l.length, l[d] ≠ x) : Met l (xs ++ [x]) d := by
  intro j hj
  cases j with
  | zero => exact ⟨fun _ => Nat.zero_le _, fun _ => List.nil_sublist _⟩
  | succ j =>
    rw [take_sublist_snoc hj, h (j + 1) hj, h j (Nat.le_of_succ_le hj)]
    constructor
    · rintro (hle | ⟨heq, hle⟩)
      · exact hle
      · rcases Nat.lt_or_eq_of_le hle with hlt | rfl
        · exact hlt
        · exact absurd heq (hne hj)
    · exact Or.inl

/-- A search for `q` finds the first `p` of a sorted list exactly when each `p` that is no `q`
    has a `q` before it. -/
theorem find?_eq_find?_iff {r : α → α → Prop} (hasymm : ∀ x y, r x y → ¬ r y x) {p q : α → Bool}
    (himp : ∀ x, q x = true → p x = true) {l : List α} (hl : l.Pairwise r) :
    l.find? q = l.find? p ↔
      ∀ x ∈ l, p x = true → q x = false → ∃ y ∈ l, r y x ∧ q y = true := by
  induction l with
  | nil => simp
  | cons x l ih =>
    obtain ⟨hx, hl⟩ := List.pairwise_cons.mp hl
    cases hq : q x with
    | true =>
      rw [List.find?_cons_of_pos hq, List.find?_cons_of_pos (himp x hq)]
      refine ⟨fun _ z hz _ hqz => ⟨x, List.mem_cons_self, ?_, hq⟩, fun _ => rfl⟩
      rcases List.mem_cons.mp hz with rfl | hz
      · exact absurd hq (by simp [hqz])
      · exact hx z hz
    | false =>
      rw [List.find?_cons_of_neg (by simp [hq])]
      cases hp : p x with
      | true =>
        rw [List.find?_cons_of_pos hp]
        constructor
        · intro hfound
          exact absurd (List.find?_some hfound) (by simp [hq])
        · intro hall
          obtain ⟨y, hy, hbefore, hqy⟩ := hall x List.mem_cons_self hp hq
          rcases List.mem_cons.mp hy with rfl | hy
          · exact absurd hqy (by simp [hq])
          · exact absurd hbefore (hasymm x y (hx y hy))
      | false =>
        rw [List.find?_cons_of_neg (by simp [hp]), ih hl]
        constructor
        · intro hall z hz hpz hqz
          rcases List.mem_cons.mp hz with rfl | hz
          · exact absurd hpz (by simp [hp])
          · obtain ⟨y, hy, hyz⟩ := hall z hz hpz hqz
            exact ⟨y, List.mem_cons_of_mem x hy, hyz⟩
        · intro hall z hz hpz hqz
          obtain ⟨y, hy, hyz, hqy⟩ := hall z (List.mem_cons_of_mem x hz) hpz hqz
          rcases List.mem_cons.mp hy with rfl | hy
          · exact absurd hqy (by simp [hq])
          · exact ⟨y, hy, hyz, hqy⟩

end InOrder
