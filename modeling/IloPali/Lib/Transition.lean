import Mathlib.Tactic.Common

/-!
# Finite runs of a transition relation

`Run step s es t` says that the events `es`, in order, take the state `s` to
`t`.  The rules below are all a development needs from it: an invariant of
one step is an invariant of every run, a run splits wherever its list of events
does, and a step-by-step simulation lifts to runs, also where it has steps of
its own.
-/

namespace Transition

variable {σ τ ε : Type}

/-- The events `es` lead from the first state to the last, one step each. -/
inductive Run (step : σ → ε → σ → Prop) : σ → List ε → σ → Prop
  | nil (s : σ) : Run step s [] s
  | cons {s t u : σ} {e : ε} {es : List ε} :
      step s e t → Run step t es u → Run step s (e :: es) u

/-- A step taken only where `cond` holds of the state before it and its event. -/
def guarded (cond : σ → ε → Prop) (step : σ → ε → σ → Prop) : σ → ε → σ → Prop :=
  fun s e t => cond s e ∧ step s e t

variable {step : σ → ε → σ → Prop}

/-- **Invariant rule.**  What every step preserves, every run preserves. -/
theorem Run.invariant {Inv : σ → Prop}
    (hstep : ∀ s e t, Inv s → step s e t → Inv t)
    {s t : σ} {es : List ε} (hrun : Run step s es t) (hs : Inv s) : Inv t := by
  induction hrun with
  | nil s => exact hs
  | cons h _ ih => exact ih (hstep _ _ _ hs h)

theorem Run.append {s t u : σ} {es fs : List ε}
    (h1 : Run step s es t) (h2 : Run step t fs u) : Run step s (es ++ fs) u := by
  induction h1 with
  | nil s => exact h2
  | cons h _ ih => exact .cons h (ih h2)

/-- A run of `es ++ fs` passes through a state reached by `es` alone. -/
theorem Run.split {s u : σ} {es fs : List ε} (h : Run step s (es ++ fs) u) :
    ∃ t, Run step s es t ∧ Run step t fs u := by
  induction es generalizing s with
  | nil => exact ⟨s, .nil s, h⟩
  | cons e es ih =>
    cases h with
    | cons hstep hrest =>
      obtain ⟨t, h1, h2⟩ := ih hrest
      exact ⟨t, .cons hstep h1, h2⟩

/-- Where each step has one outcome, so has each run. -/
theorem Run.deterministic (hdet : ∀ s e t t', step s e t → step s e t' → t = t')
    {s t t' : σ} {es : List ε} (h : Run step s es t) (h' : Run step s es t') : t = t' := by
  induction h with
  | nil s =>
    cases h'
    rfl
  | cons hstep _ ih =>
    cases h' with
    | cons hstep' hrest' =>
      rw [← hdet _ _ _ _ hstep hstep'] at hrest'
      exact ih hrest'

/-- A run under a stronger step relation is a run under a weaker one. -/
theorem Run.mono {step' : σ → ε → σ → Prop}
    (himp : ∀ s e t, step s e t → step' s e t)
    {s t : σ} {es : List ε} (h : Run step s es t) : Run step' s es t := by
  induction h with
  | nil s => exact .nil s
  | cons h _ ih => exact .cons (himp _ _ _ h) ih

/-- Where a step is good exactly under a condition, all steps of a run are good exactly if it can
    be made under the condition. -/
theorem Run.guarded_iff {Inv : σ → Prop} {good : ε → Prop} {cond : σ → ε → Prop}
    (hstep : ∀ s e t, Inv s → step s e t → Inv t)
    (hgood : ∀ s e t, Inv s → step s e t → (good e ↔ cond s e))
    {s t : σ} {es : List ε} (hrun : Run step s es t) (hs : Inv s) :
    (∀ e ∈ es, good e) ↔ Run (guarded cond step) s es t := by
  constructor
  · intro hall
    induction hrun with
    | nil s => exact .nil s
    | @cons s t u e es h _ ih =>
      refine .cons ⟨(hgood s e t hs h).mp (hall e List.mem_cons_self), h⟩ ?_
      exact ih (hstep s e t hs h) fun e' he' => hall e' (List.mem_cons_of_mem e he')
  · intro hguarded
    induction hguarded with
    | nil s => exact fun _ he => nomatch he
    | @cons s t u e es h hrest ih =>
      intro e' he'
      rcases List.mem_cons.mp he' with rfl | he'
      · exact (hgood s _ t hs h.2).mpr h.1
      · exact ih (hrest.mono fun _ _ _ h => h.2) (hstep s e t hs h.2) e' he'

/-- Two step relations that agree where an invariant of both holds, on the events of a run. -/
theorem Run.congr {Inv : σ → Prop} {step' : σ → ε → σ → Prop} {s t : σ} {es : List ε}
    (hstep : ∀ s e t, e ∈ es → Inv s → (step s e t ↔ step' s e t))
    (hkeep : ∀ s e t, e ∈ es → Inv s → step s e t → Inv t) (hs : Inv s) :
    Run step s es t ↔ Run step' s es t := by
  induction es generalizing s with
  | nil =>
    constructor
    · intro h
      cases h
      exact .nil _
    · intro h
      cases h
      exact .nil _
  | cons e es ih =>
    have htail := fun {u : σ} (hu : Inv u) =>
      ih (fun s f t hf => hstep s f t (List.mem_cons_of_mem e hf))
        (fun s f t hf => hkeep s f t (List.mem_cons_of_mem e hf)) hu
    constructor
    · intro h
      cases h with
      | cons h hrest =>
        exact .cons ((hstep _ _ _ List.mem_cons_self hs).mp h)
          ((htail (hkeep _ _ _ List.mem_cons_self hs h)).mp hrest)
    · intro h
      cases h with
      | cons h hrest =>
        have h' := (hstep _ _ _ List.mem_cons_self hs).mpr h
        exact .cons h' ((htail (hkeep _ _ _ List.mem_cons_self hs h')).mpr hrest)

/-- **Simulation rule.**  If every concrete step from a related pair is matched
    by an abstract step to a related pair, so is every run. -/
theorem Run.simulates {stepA : τ → ε → τ → Prop} {R : σ → τ → Prop}
    (hsim : ∀ s e t a, R s a → step s e t → ∃ b, stepA a e b ∧ R t b)
    {s t : σ} {es : List ε} (hrun : Run step s es t) :
    ∀ a, R s a → ∃ b, Run stepA a es b ∧ R t b := by
  induction hrun with
  | nil s => exact fun a ha => ⟨a, .nil a, ha⟩
  | cons h _ ih =>
    intro a ha
    obtain ⟨b, hb, hR⟩ := hsim _ _ _ a ha h
    obtain ⟨c, hc, hR'⟩ := ih b hR
    exact ⟨c, .cons hb hc, hR'⟩

/-- **Stuttering simulation.**  Some of the concrete steps are not seen, and change nothing that the
    relation tells apart. -/
theorem Run.stutters {ε' : Type} {seen : ε → Option ε'} {stepA : τ → ε' → τ → Prop}
    {R : σ → τ → Prop}
    (hsim : ∀ s e t a, R s a → step s e t → (seen e = none ∧ R t a) ∨
      ∃ e' b, seen e = some e' ∧ stepA a e' b ∧ R t b)
    {s t : σ} {es : List ε} (hrun : Run step s es t) :
    ∀ a, R s a → ∃ b, Run stepA a (es.filterMap seen) b ∧ R t b := by
  induction hrun with
  | nil s => exact fun a ha => ⟨a, .nil a, ha⟩
  | @cons s t u e es h _ ih =>
    intro a ha
    rcases hsim s e t a ha h with ⟨hnone, hR⟩ | ⟨e', b, hsome, hb, hR⟩
    · obtain ⟨c, hc, hR'⟩ := ih a hR
      refine ⟨c, ?_, hR'⟩
      simpa [hnone] using hc
    · obtain ⟨c, hc, hR'⟩ := ih b hR
      refine ⟨c, ?_, hR'⟩
      simpa [hsome] using Run.cons hb hc

/-- An abstract run that each of whose steps can be made concretely, perhaps with steps that are not
    seen. -/
theorem Run.realised {ε' : Type} {seen : ε → Option ε'} {stepA : τ → ε' → τ → Prop}
    {R : σ → τ → Prop}
    (hreal : ∀ s a e b, R s a → stepA a e b →
      ∃ fs t, Run step s fs t ∧ fs.filterMap seen = [e] ∧ R t b)
    {a b : τ} {es : List ε'} (hrun : Run stepA a es b) :
    ∀ s, R s a → ∃ fs t, Run step s fs t ∧ fs.filterMap seen = es ∧ R t b := by
  induction hrun with
  | nil a => exact fun s hs => ⟨[], s, .nil s, rfl, hs⟩
  | @cons a b c e es h _ ih =>
    intro s hs
    obtain ⟨fs, t, hfs, hseen, hR⟩ := hreal s a e b hs h
    obtain ⟨gs, u, hgs, hseen', hR'⟩ := ih t hR
    refine ⟨fs ++ gs, u, hfs.append hgs, ?_, hR'⟩
    rw [List.filterMap_append, hseen, hseen', List.singleton_append]

end Transition
