import IloPali.Lib.Transition
import Mathlib.Logic.Function.Basic

/-!
# Critical sections

Parties share a state.  What a party does to it is a program of atomic steps, and a lock admits one
party at a time.  However the steps of the parties interleave, the programs then take effect one after
the other, in the order in which they end, and no party is kept out for good.
-/

namespace CriticalSection

open Transition

variable {σ ρ τ κ π : Type}

/-! ## 1. Programs -/

/-- A program that ends with a result.  A step changes the shared state, and what follows it may depend
    on the state the step found. -/
inductive Prog (σ ρ : Type)
  | ret (r : ρ)
  | act (f : σ → σ) (next : σ → Prog σ ρ)

namespace Prog

/-- The program where nobody interferes. -/
def run : Prog σ ρ → σ → ρ × σ
  | ret r, s => (r, s)
  | act f next, s => (next s).run (f s)

def read (f : σ → τ) (next : τ → Prog σ ρ) : Prog σ ρ := act id fun s => next (f s)

def write (f : σ → σ) (next : Prog σ ρ) : Prog σ ρ := act f fun _ => next

def bind : Prog σ ρ → (ρ → Prog σ τ) → Prog σ τ
  | ret r, g => g r
  | act f next, g => act f fun s => (next s).bind g

@[simp] theorem run_ret (r : ρ) (s : σ) : (ret r).run s = (r, s) := rfl

@[simp] theorem run_act (f : σ → σ) (next : σ → Prog σ ρ) (s : σ) :
    (act f next).run s = (next s).run (f s) := rfl

@[simp] theorem run_read (f : σ → τ) (next : τ → Prog σ ρ) (s : σ) :
    (read f next).run s = (next (f s)).run s := rfl

@[simp] theorem run_write (f : σ → σ) (next : Prog σ ρ) (s : σ) :
    (write f next).run s = next.run (f s) := rfl

@[simp] theorem run_bind (p : Prog σ ρ) (g : ρ → Prog σ τ) (s : σ) :
    (p.bind g).run s = (g (p.run s).1).run (p.run s).2 := by
  induction p generalizing s with
  | ret r => rfl
  | act f next ih => exact ih s (f s)

end Prog

/-! ## 2. The lock -/

/-- Where a party is in a call. -/
inductive Phase (σ κ ρ : Type)
  | idle
  | waiting (c : κ)
  | inside (c : κ) (p : Prog σ ρ)

/-- The lock with the party that holds it, the shared state, the parties, and the calls that have
    ended with their results. -/
structure State (π σ κ ρ : Type) where
  holder : Option π
  shared : σ
  phase : π → Phase σ κ ρ
  done : List (π × κ × ρ)

inductive Event (π κ ρ : Type)
  | call (h : π) (c : κ)
  | enter (h : π)
  | act (h : π)
  | leave (h : π) (c : κ) (r : ρ)

variable [DecidableEq π]

/-- A step of one party; `body` is what is run under the lock. -/
inductive Step (body : κ → Prog σ ρ) : State π σ κ ρ → Event π κ ρ → State π σ κ ρ → Prop
  | call {s : State π σ κ ρ} {h : π} (c : κ) (hidle : s.phase h = .idle) :
      Step body s (.call h c) { s with phase := Function.update s.phase h (.waiting c) }
  | enter {s : State π σ κ ρ} {h : π} {c : κ} (hwait : s.phase h = .waiting c)
      (hfree : s.holder = none) :
      Step body s (.enter h) { s with
        holder := some h
        phase := Function.update s.phase h (.inside c (body c)) }
  | act {s : State π σ κ ρ} {h : π} {c : κ} {f : σ → σ} {next : σ → Prog σ ρ}
      (hin : s.phase h = .inside c (.act f next)) :
      Step body s (.act h) { s with
        shared := f s.shared
        phase := Function.update s.phase h (.inside c (next s.shared)) }
  | leave {s : State π σ κ ρ} {h : π} {c : κ} {r : ρ} (hin : s.phase h = .inside c (.ret r)) :
      Step body s (.leave h c r) { s with
        holder := none
        phase := Function.update s.phase h .idle
        done := s.done ++ [(h, c, r)] }

theorem Step.deterministic {body : κ → Prog σ ρ} {s t t' : State π σ κ ρ} {e : Event π κ ρ}
    (h : Step body s e t) (h' : Step body s e t') : t = t' := by
  cases h with
  | call c _ =>
    cases h'
    rfl
  | enter hwait _ =>
    cases h' with
    | enter hwait' _ =>
      obtain rfl := Phase.waiting.inj (hwait.symm.trans hwait')
      rfl
  | act hin =>
    cases h' with
    | act hin' =>
      obtain ⟨rfl, hact⟩ := Phase.inside.inj (hin.symm.trans hin')
      obtain ⟨rfl, rfl⟩ := Prog.act.inj hact
      rfl
  | leave _ =>
    cases h'
    rfl

/-- Nobody has called yet. -/
structure Initial (s : State π σ κ ρ) : Prop where
  free : s.holder = none
  idle : ∀ h, s.phase h = .idle
  done : s.done = []

omit [DecidableEq π] in
/-- A call that takes effect at once. -/
def Atomic (body : κ → Prog σ ρ) (s : σ) (e : π × κ × ρ) (t : σ) : Prop :=
  (body e.2.1).run s = (e.2.2, t)

/-! ## 3. The invariant -/

/-- The holder is the one party inside.  The calls that have ended took effect one after the other,
    and what the holder still has to do completes its own from there. -/
structure Inv (body : κ → Prog σ ρ) (s0 : σ) (s : State π σ κ ρ) : Prop where
  held : ∀ h, s.holder = some h ↔ ∃ c p, s.phase h = .inside c p
  serial : ∃ base, Run (Atomic body) s0 s.done base ∧ (s.holder = none → s.shared = base) ∧
    ∀ h c p, s.phase h = .inside c p → p.run s.shared = (body c).run base

variable {body : κ → Prog σ ρ} {s0 : σ} {s t : State π σ κ ρ} {es : List (Event π κ ρ)}

omit [DecidableEq π] in
theorem Initial.inv (h0 : Initial s) : Inv body s.shared s := by
  constructor
  · intro h
    simp [h0.free, h0.idle h]
  · refine ⟨s.shared, ?_, fun _ => rfl, fun h c p hin => ?_⟩
    · rw [h0.done]
      exact .nil _
    · rw [h0.idle h] at hin
      exact nomatch hin

omit [DecidableEq π] in
/-- **Exclusion.** -/
theorem Inv.exclusive (hi : Inv body s0 s) {h h' : π} {c c' : κ} {p p' : Prog σ ρ}
    (hin : s.phase h = .inside c p) (hin' : s.phase h' = .inside c' p') : h = h' := by
  have hh := (hi.held h).mpr ⟨c, p, hin⟩
  have hh' := (hi.held h').mpr ⟨c', p', hin'⟩
  exact Option.some.inj (hh.symm.trans hh')

omit [DecidableEq π] in
theorem Inv.not_inside (hi : Inv body s0 s) (hfree : s.holder = none) {h : π} {c : κ}
    {p : Prog σ ρ} : s.phase h ≠ .inside c p := by
  intro hin
  have hh := (hi.held h).mpr ⟨c, p, hin⟩
  rw [hfree] at hh
  exact nomatch hh

/-- **Every step** keeps the invariant. -/
theorem Inv.step (hi : Inv body s0 s) {e : Event π κ ρ} (hstep : Step body s e t) :
    Inv body s0 t := by
  obtain ⟨base, hrun, hbase, hrest⟩ := hi.serial
  cases hstep with
  | @call h c hidle =>
    constructor
    · intro h'
      by_cases hh : h' = h
      · subst hh
        have hnone := hi.held h'
        simp [hidle] at hnone
        simp [hnone]
      · simpa [Function.update_of_ne hh] using hi.held h'
    · refine ⟨base, hrun, hbase, fun h' c' p hin => ?_⟩
      by_cases hh : h' = h
      · subst hh
        simp at hin
      · exact hrest h' c' p (by simpa [Function.update_of_ne hh] using hin)
  | @enter h c hwait hfree =>
    constructor
    · intro h'
      by_cases hh : h' = h
      · subst hh
        simp
      · have hno : ∀ c p, s.phase h' ≠ .inside c p := fun c p => hi.not_inside hfree
        simp [Function.update_of_ne hh, hno, Ne.symm hh]
    · refine ⟨base, hrun, fun hn => (nomatch hn), fun h' c' p hin => ?_⟩
      by_cases hh : h' = h
      · subst hh
        simp only [Function.update_self, Phase.inside.injEq] at hin
        obtain ⟨rfl, rfl⟩ := hin
        rw [hbase hfree]
      · simp only [Function.update_of_ne hh] at hin
        exact absurd hin (hi.not_inside hfree)
  | @act h c f next hin =>
    constructor
    · intro h'
      by_cases hh : h' = h
      · subst hh
        simp [(hi.held h').mpr ⟨_, _, hin⟩]
      · simpa [Function.update_of_ne hh] using hi.held h'
    · refine ⟨base, hrun, fun hn => ?_, fun h' c' p hin' => ?_⟩
      · exact absurd hin (hi.not_inside hn)
      · by_cases hh : h' = h
        · subst hh
          simp only [Function.update_self, Phase.inside.injEq] at hin'
          obtain ⟨rfl, rfl⟩ := hin'
          exact hrest h' c (.act f next) hin
        · simp only [Function.update_of_ne hh] at hin'
          exact absurd (hi.exclusive hin' hin) hh
  | @leave h c r hin =>
    have hdone := hrest h c (.ret r) hin
    constructor
    · intro h'
      by_cases hh : h' = h
      · subst hh
        simp
      · have hno : ∀ c p, s.phase h' ≠ .inside c p := fun c p hin' => hh (hi.exclusive hin' hin)
        simp [Function.update_of_ne hh, hno]
    · refine ⟨s.shared, hrun.append (.cons hdone.symm (.nil _)), fun _ => rfl,
        fun h' c' p hin' => ?_⟩
      by_cases hh : h' = h
      · subst hh
        simp at hin'
      · simp only [Function.update_of_ne hh] at hin'
        exact absurd (hi.exclusive hin' hin) hh

/-- **The calls take effect one after the other.** -/
theorem Inv.run (h0 : Initial s) (hrun : Run (Step body) s es t) : Inv body s.shared t :=
  hrun.invariant (fun _ _ _ hi hstep => hi.step hstep) h0.inv

/-! ## 4. Nobody is kept out -/

/-- The party inside can end its call by steps of its own. -/
theorem finish {h : π} {c : κ} {p : Prog σ ρ} (hin : s.phase h = .inside c p) :
    ∃ es, (∀ e ∈ es, ∀ h' c', e ≠ .call h' c') ∧
      Run (Step body) s es
        ⟨none, (p.run s.shared).2, Function.update s.phase h .idle,
          s.done ++ [(h, c, (p.run s.shared).1)]⟩ := by
  induction p generalizing s with
  | ret r =>
    refine ⟨[.leave h c r], ?_, .cons (.leave hin) (.nil _)⟩
    simp
  | act f next ih =>
    obtain ⟨es, hes, hrun⟩ := @ih s.shared { s with
      shared := f s.shared
      phase := Function.update s.phase h (.inside c (next s.shared)) } (Function.update_self _ _ _)
    refine ⟨.act h :: es, ?_, .cons (.act hin) ?_⟩
    · simpa using hes
    · simpa using hrun

/-- **A party that waits** can always be let in, without any further call. -/
theorem Inv.admits (hi : Inv body s0 s) {h : π} {c : κ} (hwait : s.phase h = .waiting c) :
    ∃ es t p, (∀ e ∈ es, ∀ h' c', e ≠ .call h' c') ∧ Run (Step body) s es t ∧
      t.phase h = .inside c p := by
  cases hh : s.holder with
  | none =>
    refine ⟨[.enter h], _, _, ?_, .cons (.enter hwait hh) (.nil _), Function.update_self _ _ _⟩
    simp
  | some h' =>
    obtain ⟨c', p, hin⟩ := (hi.held h').mp hh
    obtain ⟨es, hes, hrun⟩ := @finish _ _ _ _ _ body _ _ _ _ hin
    have hne : h ≠ h' := by
      rintro rfl
      rw [hin] at hwait
      exact nomatch hwait
    refine ⟨es ++ [.enter h], _, _, ?_, hrun.append (.cons (.enter ?_ rfl) (.nil _)),
      Function.update_self _ _ _⟩
    · simp only [List.mem_append, List.mem_singleton]
      rintro e (he | rfl)
      · exact hes e he
      · simp
    · simpa [Function.update_of_ne hne] using hwait

end CriticalSection
