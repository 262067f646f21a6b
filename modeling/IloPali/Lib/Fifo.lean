import IloPali.Lib.Transition
import Mathlib.Data.List.Forall2

/-!
# First in, first out

What a queue is for, over any type of items: a list that grows at its end and is
taken from at its front.  A consumer may look at what it takes or throw it away.
-/

namespace Fifo

open Transition

variable {α : Type}

inductive Event (α : Type) where
  | enqueue (x : α)
  /-- An item was taken; `seen` is what the consumer was shown of it, if anything. -/
  | dequeue (seen : Option α)
  /-- Nothing was there to take. -/
  | empty

inductive Step : List α → Event α → List α → Prop
  | enqueue (xs : List α) (x : α) : Step xs (.enqueue x) (xs ++ [x])
  | dequeue (x : α) (xs : List α) {seen : Option α} (h : ∀ y ∈ seen, y = x) :
      Step (x :: xs) (.dequeue seen) xs
  | empty : Step [] .empty []

/-- The items put in, in order. -/
def enqueued : List (Event α) → List α
  | [] => []
  | .enqueue x :: es => x :: enqueued es
  | .dequeue _ :: es => enqueued es
  | .empty :: es => enqueued es

/-- What was shown of the items taken out, in order. -/
def dequeued : List (Event α) → List (Option α)
  | [] => []
  | .enqueue _ :: es => dequeued es
  | .dequeue seen :: es => seen :: dequeued es
  | .empty :: es => dequeued es

/-- What a consumer was shown of an item, if anything, is the item. -/
def Shows (seen : Option α) (x : α) : Prop := ∀ y ∈ seen, y = x

/-- **First in, first out.**  The items taken out in a run, followed by those still
    inside, are the items that were inside before it and those put in, in order. -/
theorem Run.order {xs ys : List α} {es : List (Event α)} (h : Run Step xs es ys) :
    ∃ out, xs ++ enqueued es = out ++ ys ∧ List.Forall₂ Shows (dequeued es) out := by
  induction h with
  | nil xs => exact ⟨[], by rw [enqueued, List.append_nil, List.nil_append], .nil⟩
  | cons hstep _ ih =>
    obtain ⟨out, heq, hshows⟩ := ih
    cases hstep with
    | enqueue xs x =>
      refine ⟨out, ?_, hshows⟩
      rw [← heq, enqueued, List.append_assoc, List.singleton_append]
    | dequeue x xs hseen =>
      refine ⟨x :: out, ?_, .cons hseen hshows⟩
      rw [List.cons_append, List.cons_append, ← heq, enqueued]
    | empty => exact ⟨out, heq, hshows⟩

/-- What is inside is what was put in and not taken out. -/
theorem Run.length {ys : List α} {es : List (Event α)} (h : Run Step [] es ys) :
    ys.length + (dequeued es).length = (enqueued es).length := by
  obtain ⟨out, heq, hshows⟩ := Run.order h
  rw [List.nil_append] at heq
  rw [heq, List.length_append, hshows.length_eq, Nat.add_comm]

end Fifo
