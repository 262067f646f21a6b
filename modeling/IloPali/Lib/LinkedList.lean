import Mathlib.Data.List.Nodup

/-!
# Intrusive linked lists

Nodes carry a link to the next node, and perhaps one back to the previous one.
`Chain` says which nodes a list is made of, by following its links until the null
node; `Back` says that the links back are the inverse of those.  A chain has no
choice and no cycle.  Pushing a node on and taking one out are stated by what they do
to the links of the nodes of the list and to no others, so they can be used whatever
holds the links.
-/

namespace LinkedList

variable {α : Type} {null : α} {next next' prev prev' : α → α}

/-- Following `next` from `a` leads through the nodes `xs`, and then to `null`. -/
def Chain (null : α) (next : α → α) : α → List α → Prop
  | a, [] => a = null
  | a, x :: xs => a = x ∧ x ≠ null ∧ Chain null next (next x) xs

/-- The nodes link back in the opposite order, and the first one to `p`. -/
def Back (prev : α → α) : α → List α → Prop
  | _, [] => True
  | p, x :: xs => prev x = p ∧ Back prev x xs

/-! ## 1. Chains -/

theorem Chain.congr {a : α} {xs : List α} (h : Chain null next a xs)
    (hsame : ∀ x ∈ xs, next' x = next x) : Chain null next' a xs := by
  induction xs generalizing a with
  | nil => exact h
  | cons x xs ih =>
    obtain ⟨ha, hx, hrest⟩ := h
    refine ⟨ha, hx, ?_⟩
    rw [hsame x List.mem_cons_self]
    exact ih hrest fun y hy => hsame y (List.mem_cons_of_mem x hy)

theorem Chain.unique {a : α} {xs ys : List α} (hx : Chain null next a xs)
    (hy : Chain null next a ys) : xs = ys := by
  induction xs generalizing a ys with
  | nil =>
    cases ys with
    | nil => rfl
    | cons y ys => exact absurd (hy.1.symm.trans hx) hy.2.1
  | cons x xs ih =>
    cases ys with
    | nil => exact absurd (hx.1.symm.trans hy) hx.2.1
    | cons y ys =>
      obtain rfl : x = y := hx.1.symm.trans hy.1
      rw [ih hx.2.2 hy.2.2]

theorem Chain.ne_null {a : α} {xs : List α} (h : Chain null next a xs) : ∀ x ∈ xs, x ≠ null := by
  induction xs generalizing a with
  | nil => exact fun _ hmem => (nomatch hmem)
  | cons x xs ih =>
    intro y hy
    rcases List.mem_cons.mp hy with rfl | hy
    · exact h.2.1
    · exact ih h.2.2 y hy

theorem Chain.suffix {a b : α} {xs ys : List α} (h : Chain null next a (xs ++ b :: ys)) :
    Chain null next b (b :: ys) := by
  induction xs generalizing a with
  | nil => exact h.1 ▸ h
  | cons x xs ih => exact ih h.2.2

/-- A chain that ends has no cycle. -/
theorem Chain.nodup {a : α} {xs : List α} (h : Chain null next a xs) : xs.Nodup := by
  induction xs generalizing a with
  | nil => exact List.nodup_nil
  | cons x xs ih =>
    refine List.nodup_cons.mpr ⟨fun hmem => ?_, ih h.2.2⟩
    obtain ⟨pre, post, rfl⟩ := List.append_of_mem hmem
    -- from `x` one cannot be led both through all of the list and through its end only
    have hlong : Chain null next x (x :: (pre ++ x :: post)) := ⟨rfl, h.2.1, h.2.2⟩
    have hlen := congrArg List.length (hlong.unique h.2.2.suffix)
    simp only [List.length_cons, List.length_append] at hlen
    omega

/-- The first node of a chain that is not empty. -/
theorem Chain.exists_cons {a : α} {xs : List α} (h : Chain null next a xs) (ha : a ≠ null) :
    ∃ ys, xs = a :: ys ∧ Chain null next (next a) ys := by
  cases xs with
  | nil => exact absurd h ha
  | cons x ys =>
    obtain ⟨rfl, _, hrest⟩ := h
    exact ⟨ys, rfl, hrest⟩

/-- A node becomes the head of a chain when it links to the old head. -/
theorem Chain.push {a b : α} {xs : List α} (h : Chain null next a xs) (hb : b ≠ null)
    (hlink : next' b = a) (hsame : ∀ x ∈ xs, next' x = next x) :
    Chain null next' b (b :: xs) := by
  refine ⟨rfl, hb, ?_⟩
  rw [hlink]
  exact h.congr hsame

/-- Nodes that are linked one to the next and the last one to nothing. -/
theorem chain_range' {s : Nat → α} {n i m : Nat} (him : i + m = n)
    (hlink : ∀ j, j < n → next (s j) = s (j + 1)) (hlast : next (s n) = null)
    (hne : ∀ j, j ≤ n → s j ≠ null) : Chain null next (s i) ((List.range' i (m + 1)).map s) := by
  induction m generalizing i with
  | zero =>
    obtain rfl : i = n := him
    exact ⟨rfl, hne i (Nat.le_refl i), hlast⟩
  | succ m ih =>
    rw [List.range'_succ, List.map_cons]
    refine ⟨rfl, hne i (by omega), ?_⟩
    rw [hlink i (by omega)]
    exact ih (by omega)

theorem chain_range {s : Nat → α} {n : Nat} (hlink : ∀ j, j < n → next (s j) = s (j + 1))
    (hlast : next (s n) = null) (hne : ∀ j, j ≤ n → s j ≠ null) :
    Chain null next (s 0) ((List.range (n + 1)).map s) := by
  rw [List.range_eq_range']
  exact chain_range' (Nat.zero_add n) hlink hlast hne

/-! ## 2. Links back -/

theorem Back.congr {p : α} {xs : List α} (h : Back prev p xs)
    (hsame : ∀ x ∈ xs, prev' x = prev x) : Back prev' p xs := by
  induction xs generalizing p with
  | nil => trivial
  | cons x xs ih =>
    obtain ⟨hx, hrest⟩ := h
    exact ⟨(hsame x List.mem_cons_self).trans hx,
      ih hrest fun y hy => hsame y (List.mem_cons_of_mem x hy)⟩

/-- Nodes that are linked back one to the other. -/
theorem back_range' {s : Nat → α} {p : α} {n i m : Nat} (him : i + m = n) (hfirst : prev (s i) = p)
    (hlink : ∀ j, j < n → prev (s (j + 1)) = s j) : Back prev p ((List.range' i (m + 1)).map s) := by
  induction m generalizing i p with
  | zero => exact ⟨hfirst, trivial⟩
  | succ m ih =>
    rw [List.range'_succ, List.map_cons]
    exact ⟨hfirst, ih (by omega) (hlink i (by omega))⟩

theorem back_range {s : Nat → α} {p : α} {n : Nat} (hfirst : prev (s 0) = p)
    (hlink : ∀ j, j < n → prev (s (j + 1)) = s j) : Back prev p ((List.range (n + 1)).map s) := by
  rw [List.range_eq_range']
  exact back_range' (Nat.zero_add n) hfirst hlink

/-- Pushing a node sets the link back of the old head. -/
theorem Back.push {a b p q : α} {xs : List α} (hchain : Chain null next a xs)
    (h : Back prev p xs) (hlink : prev' b = q) (hhead : a ≠ null → prev' a = b)
    (hsame : ∀ x ∈ xs, x ≠ a → prev' x = prev x) : Back prev' q (b :: xs) := by
  refine ⟨hlink, ?_⟩
  have hnodup := hchain.nodup
  cases xs with
  | nil => trivial
  | cons x xs =>
    obtain ⟨rfl, hx, _⟩ := hchain
    refine ⟨hhead hx, h.2.congr fun y hy => hsame y (List.mem_cons_of_mem a hy) ?_⟩
    rintro rfl
    exact (List.nodup_cons.mp hnodup).1 hy

/-- The node before `b` in the list is the one `b` links back to. -/
theorem Back.prev_mem {p b : α} {xs ys : List α} (h : Back prev p (xs ++ b :: ys)) :
    (xs = [] ∧ prev b = p) ∨ (xs ≠ [] ∧ prev b ∈ xs) := by
  induction xs generalizing p with
  | nil => exact Or.inl ⟨rfl, h.1⟩
  | cons x xs ih =>
    right
    refine ⟨List.cons_ne_nil x xs, ?_⟩
    rcases ih h.2 with ⟨_, hp⟩ | ⟨_, hmem⟩
    · rw [hp]
      exact List.mem_cons_self
    · exact List.mem_cons_of_mem x hmem

/-! ## 3. Taking a node out -/

/-- The node after `b` in the list is the one `b` links to. -/
theorem Chain.next_mem {a b : α} {xs ys : List α} (h : Chain null next a (xs ++ b :: ys)) :
    next b = null ∨ next b ∈ ys := by
  obtain ⟨_, _, hrest⟩ := h.suffix
  cases ys with
  | nil => exact Or.inl hrest
  | cons y ys =>
    right
    rw [hrest.1]
    exact List.mem_cons_self

/-- **Unlinking, forwards.**  The node before `b` is linked to the one after `b`. -/
theorem Chain.unlink [DecidableEq α] {p a b : α} {xs ys : List α} (h : Chain null next a (xs ++ b :: ys))
    (hback : Back prev p (xs ++ b :: ys)) (hp : p ∉ xs ++ b :: ys)
    (hprev : ∀ x ∈ xs ++ ys, x = prev b → next' x = next b)
    (hsame : ∀ x ∈ xs ++ ys, x ≠ prev b → next' x = next x) :
    Chain null next' (if b = a then next b else a) (xs ++ ys) := by
  have hnodup := h.nodup
  induction xs generalizing p a with
  | nil =>
    obtain ⟨rfl, _, hrest⟩ := h
    rw [if_pos rfl]
    refine hrest.congr fun x hx => hsame x hx ?_
    rintro rfl
    exact hp (List.mem_cons_of_mem a (hback.1 ▸ hx))
  | cons x xs ih =>
    rw [List.cons_append, List.nodup_cons] at hnodup
    obtain ⟨rfl, hne, hrest⟩ := h
    have hab : b ≠ a := by
      rintro rfl
      exact hnodup.1 (List.mem_append_right xs List.mem_cons_self)
    rw [if_neg hab]
    refine ⟨rfl, hne, ?_⟩
    have hnext := ih hrest hback.2 hnodup.1 (fun y hy => hprev y (List.mem_cons_of_mem a hy))
      (fun y hy => hsame y (List.mem_cons_of_mem a hy)) hnodup.2
    rcases hback.2.prev_mem with ⟨rfl, hpb⟩ | ⟨hxs, hmem⟩
    · -- `a` is the node before `b`
      obtain rfl : next a = b := hrest.1
      rw [if_pos rfl] at hnext
      rw [hprev a List.mem_cons_self hpb.symm]
      exact hnext
    · have hapart : a ≠ prev b := by
        rintro rfl
        exact hnodup.1 (List.mem_append_left _ hmem)
      rw [hsame a List.mem_cons_self hapart]
      rwa [if_neg] at hnext
      intro hcon
      obtain ⟨y, xs, rfl⟩ := List.exists_cons_of_ne_nil hxs
      obtain rfl : next a = y := hrest.1
      rw [List.cons_append, List.nodup_cons] at hnodup
      apply hnodup.2.1
      rw [← hcon]
      exact List.mem_append_right xs List.mem_cons_self

/-- **Unlinking, backwards.**  The node after `b` is linked back to the one before `b`. -/
theorem Back.unlink {p a b : α} {xs ys : List α} (hchain : Chain null next a (xs ++ b :: ys))
    (h : Back prev p (xs ++ b :: ys)) (hnext : ∀ x ∈ xs ++ ys, x = next b → prev' x = prev b)
    (hsame : ∀ x ∈ xs ++ ys, x ≠ next b → prev' x = prev x) : Back prev' p (xs ++ ys) := by
  have hnodup := hchain.nodup
  induction xs generalizing p a with
  | nil =>
    obtain ⟨rfl, _, hrest⟩ := hchain
    obtain ⟨rfl, hback⟩ := h
    cases ys with
    | nil => trivial
    | cons y ys =>
      obtain ⟨heq, _, _⟩ := hrest
      refine ⟨hnext y List.mem_cons_self heq.symm, hback.2.congr fun z hz => ?_⟩
      refine hsame z (List.mem_cons_of_mem y hz) ?_
      rintro rfl
      rw [heq] at hz
      exact (List.nodup_cons.mp (List.nodup_cons.mp hnodup).2).1 hz
  | cons x xs ih =>
    obtain ⟨rfl, _, hrest⟩ := hchain
    obtain ⟨hp, hback⟩ := h
    rw [List.cons_append, List.nodup_cons] at hnodup
    have hne : a ≠ next b := by
      rintro heq
      rcases hrest.next_mem with hnull | hmem
      · exact absurd (heq.trans hnull) ‹a ≠ null›
      · apply hnodup.1
        rw [heq]
        exact List.mem_append_right xs (List.mem_cons_of_mem b hmem)
    exact ⟨(hsame a List.mem_cons_self hne).trans hp,
      ih hrest hback (fun y hy => hnext y (List.mem_cons_of_mem a hy))
        (fun y hy => hsame y (List.mem_cons_of_mem a hy)) hnodup.2⟩

end LinkedList
