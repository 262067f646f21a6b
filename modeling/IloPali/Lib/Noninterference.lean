import IloPali.Lib.Transition

/-!
# Noninterference

An observer sees some of the events of a run, and cannot tell some of the states apart.  What it does
not see does not matter to it if two conditions on single steps hold: a step that is not seen leads to
a state that looks the same, and the same step seen in two states that look the same leads to two such
states again.  Runs that look the same then end in states that look the same.
-/

namespace Noninterference

open Transition

variable {σ ε : Type} {step : σ → ε → σ → Prop}

/-- A run in which something is seen, cut after the first such event. -/
theorem run_first {seen : ε → Bool} {s t : σ} {es rest : List ε} {e : ε} (hrun : Run step s es t)
    (hes : es.filter seen = e :: rest) :
    ∃ front back u v, (∀ f ∈ front, seen f = false) ∧ Run step s front u ∧ step u e v ∧
      Run step v back t ∧ back.filter seen = rest := by
  induction hrun with
  | nil s => exact nomatch hes
  | @cons s u t f es hstep hrun ih =>
    by_cases hf : seen f = true
    · rw [List.filter_cons_of_pos hf] at hes
      obtain ⟨rfl, rfl⟩ := List.cons.inj hes
      exact ⟨[], es, s, u, by simp, .nil s, hstep, hrun, rfl⟩
    · rw [List.filter_cons_of_neg hf] at hes
      obtain ⟨front, back, v, w, hfront, hrun1, hstep', hrun2, hback⟩ := ih hes
      refine ⟨f :: front, back, v, w, fun g hg => ?_, .cons hstep hrun1, hstep', hrun2, hback⟩
      rcases List.mem_cons.mp hg with rfl | hg
      · simpa using hf
      · exact hfront g hg

/-- What is kept by the steps of the system, and what the observer makes of its states and events. -/
structure Unwinds (step : σ → ε → σ → Prop) (Inv : σ → Prop) (Same : σ → σ → Prop)
    (seen : ε → Bool) : Prop where
  keeps : ∀ s e t, Inv s → step s e t → Inv t
  symm : ∀ s t, Same s t → Same t s
  trans : ∀ s t u, Same s t → Same t u → Same s u
  unseen : ∀ s e t, Inv s → step s e t → seen e = false → Same s t
  seen : ∀ s s' e t t', Inv s → Inv s' → Same s s' → seen e = true → step s e t → step s' e t' →
    Same t t'

variable {Inv : σ → Prop} {Same : σ → σ → Prop} {seen : ε → Bool}

/-- Nothing seen, nothing changed. -/
theorem Unwinds.silent (hu : Unwinds step Inv Same seen) {s t : σ} {es : List ε}
    (hrun : Run step s es t) (hs : Inv s) (hsame : Same s s) (hes : ∀ e ∈ es, seen e = false) :
    Same s t := by
  induction hrun with
  | nil s => exact hsame
  | @cons s u t e es hstep _ ih =>
    have hsu := hu.unseen s e u hs hstep (hes e List.mem_cons_self)
    have huu := hu.trans _ _ _ (hu.symm _ _ hsu) hsu
    exact hu.trans _ _ _ hsu
      (ih (hu.keeps _ _ _ hs hstep) huu fun f hf => hes f (List.mem_cons_of_mem e hf))

/-- **Unwinding.**  Two runs in which the observer sees the same events, from states it cannot tell
    apart, end in states it cannot tell apart. -/
theorem Unwinds.run (hu : Unwinds step Inv Same seen) {s s' t t' : σ} {es es' : List ε}
    (hrun : Run step s es t) (hrun' : Run step s' es' t') (hs : Inv s) (hs' : Inv s')
    (hsame : Same s s') (hes : es.filter seen = es'.filter seen) : Same t t' := by
  induction hrun generalizing s' es' with
  | nil s =>
    have hsilent : ∀ e ∈ es', seen e = false := by
      intro e he
      by_contra hne
      have hmem : e ∈ es'.filter seen := List.mem_filter.mpr ⟨he, by simpa using hne⟩
      rw [← hes] at hmem
      exact nomatch hmem
    have hself := hu.trans _ _ _ (hu.symm _ _ hsame) hsame
    exact hu.trans _ _ _ hsame (hu.silent hrun' hs' hself hsilent)
  | @cons s u t e es hstep hrun ih =>
    have hu' := hu.keeps _ _ _ hs hstep
    by_cases he : seen e = true
    · rw [List.filter_cons_of_pos he] at hes
      obtain ⟨front, back, v, w, hfront, hrun1, hstep', hrun2, hback⟩ := run_first hrun' hes.symm
      have hv : Inv v := hrun1.invariant hu.keeps hs'
      have hself := hu.trans _ _ _ (hu.symm _ _ hsame) hsame
      have hsv := hu.trans _ _ _ hsame (hu.silent hrun1 hs' hself hfront)
      exact ih hrun2 hu' (hu.keeps _ _ _ hv hstep') (hu.seen _ _ _ _ _ hs hv hsv he hstep hstep')
        hback.symm
    · rw [List.filter_cons_of_neg he] at hes
      have hsu := hu.unseen s e u hs hstep (by simpa using he)
      exact ih hrun' hu' hs' (hu.trans _ _ _ (hu.symm _ _ hsu) hsame) hes

end Noninterference
