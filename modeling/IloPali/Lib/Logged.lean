import Mathlib.Data.List.Basic

/-!
# Loops that keep a log

The body of such a loop returns the next state and what it did on the way.  The state of the
loop is that of a plain fold, and the log is what the body did at each element, in the state
that the elements before it lead to.
-/

namespace Logged

variable {σ τ α β γ : Type}

/-- A loop over the elements of a list. -/
def loop (step : σ → α → σ × List β) : List α → σ → σ × List β
  | [], s => (s, [])
  | x :: l, s => ((loop step l (step s x).1).1, (step s x).2 ++ (loop step l (step s x).1).2)

/-- The state after a loop. -/
def after (step : σ → α → σ × List β) (l : List α) (s : σ) : σ :=
  l.foldl (fun s x => (step s x).1) s

variable {step : σ → α → σ × List β}

theorem loop_fst (l : List α) (s : σ) : (loop step l s).1 = after step l s := by
  induction l generalizing s with
  | nil => rfl
  | cons x l ih => exact ih (step s x).1

/-- What is in the log was done at one of the elements. -/
theorem mem_loop_snd {l : List α} {s : σ} {y : β} : y ∈ (loop step l s).2 ↔
    ∃ front x back, l = front ++ x :: back ∧ y ∈ (step (after step front s) x).2 := by
  induction l generalizing s with
  | nil => simp [loop]
  | cons x l ih =>
    rw [loop, List.mem_append, ih]
    constructor
    · rintro (hy | ⟨front, z, back, rfl, hy⟩)
      · exact ⟨[], x, l, rfl, hy⟩
      · exact ⟨x :: front, z, back, rfl, hy⟩
    · rintro ⟨front, z, back, hsplit, hy⟩
      cases front with
      | nil =>
        obtain ⟨rfl, rfl⟩ := List.cons.inj hsplit
        exact Or.inl hy
      | cons x' front =>
        obtain ⟨rfl, rfl⟩ := List.cons.inj hsplit
        exact Or.inr ⟨front, z, back, rfl, hy⟩

theorem loop_append (l l' : List α) (s : σ) : loop step (l ++ l') s =
    ((loop step l' (loop step l s).1).1,
      (loop step l s).2 ++ (loop step l' (loop step l s).1).2) := by
  induction l generalizing s with
  | nil => rfl
  | cons x l ih => simp [loop, ih]

/-- Two nested loops are one loop. -/
theorem loop_flatMap (f : γ → List α) (l : List γ) (s : σ) :
    loop (fun s x => loop step (f x) s) l s = loop step (l.flatMap f) s := by
  induction l generalizing s with
  | nil => rfl
  | cons x l ih => rw [List.flatMap_cons, loop_append, loop, ih]

/-- A loop under an abstraction of its states, where the states keep an invariant. -/
theorem after_hom {abs : σ → τ} {Inv : σ → Prop} {g : τ → α → τ} {l : List α}
    (hstep : ∀ s, Inv s → ∀ x ∈ l, Inv (step s x).1 ∧ abs (step s x).1 = g (abs s) x)
    {s : σ} (hs : Inv s) : Inv (after step l s) ∧ abs (after step l s) = l.foldl g (abs s) := by
  induction l generalizing s with
  | nil => exact ⟨hs, rfl⟩
  | cons x l ih =>
    obtain ⟨hinv, habs⟩ := hstep s hs x List.mem_cons_self
    obtain ⟨hend, heq⟩ := ih (fun s hs y hy => hstep s hs y (List.mem_cons_of_mem x hy)) hinv
    refine ⟨hend, heq.trans ?_⟩
    rw [List.foldl_cons, habs]

end Logged
