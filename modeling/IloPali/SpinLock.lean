import IloPali.Lib.CriticalSection

/-!
# Spin locks (`sync.c`)

`spin_lock` is a loop around a weak compare-and-exchange: the exchange may fail although the lock is
free, and where it fails it overwrites `expected`, which the body of the loop sets back.  The same
loop stands in `malloc`, in `free` and in the handler of external interrupts.  The harts execute it
one atomic instruction at a time, in any order; that they are kept apart all the same is that the loop
refines the lock of `CriticalSection`.
-/

namespace IloPali

open Transition CriticalSection

variable {σ κ ρ : Type}

/-! ## 1. The code -/

/-- Where a hart is: before `spin_lock` or after `spin_unlock`, about to compare and exchange, in the
    body of the loop, or between the two calls. -/
inductive SpinPhase (σ κ ρ : Type)
  | outside
  | exchange (c : κ) (expected : Bool)
  | body (c : κ) (expected : Bool)
  | inside (c : κ) (p : Prog σ ρ)

/-- A lock of type `spin_t`, what it protects, the harts, and the calls that have returned. -/
structure Spin (σ κ ρ : Type) where
  lock : Bool
  shared : σ
  harts : Nat → SpinPhase σ κ ρ
  done : List (Nat × κ × ρ)

inductive SpinEvent (κ ρ : Type)
  | call (h : Nat) (c : κ)
  | exchanged (h : Nat)
  | failed (h : Nat)
  | reset (h : Nat)
  | act (h : Nat)
  | unlock (h : Nat) (c : κ) (r : ρ)

/-- One instruction of one hart.  `work` is what a call does between `spin_lock` and `spin_unlock`. -/
inductive SpinStep (work : κ → Prog σ ρ) : Spin σ κ ρ → SpinEvent κ ρ → Spin σ κ ρ → Prop
  -- bool expected = false;
  | call {s : Spin σ κ ρ} {h : Nat} (c : κ) (hout : s.harts h = .outside) :
      SpinStep work s (.call h c)
        { s with harts := Function.update s.harts h (.exchange c false) }
  -- atomic_compare_exchange_weak(lock, &expected, true)
  | exchanged {s : Spin σ κ ρ} {h : Nat} {c : κ} {expected : Bool}
      (hat : s.harts h = .exchange c expected) (heq : s.lock = expected) :
      SpinStep work s (.exchanged h) { s with
        lock := true
        harts := Function.update s.harts h (.inside c (work c)) }
  | failed {s : Spin σ κ ρ} {h : Nat} {c : κ} {expected : Bool}
      (hat : s.harts h = .exchange c expected) :
      SpinStep work s (.failed h)
        { s with harts := Function.update s.harts h (.body c s.lock) }
  -- expected = false;
  | reset {s : Spin σ κ ρ} {h : Nat} {c : κ} {expected : Bool}
      (hat : s.harts h = .body c expected) :
      SpinStep work s (.reset h)
        { s with harts := Function.update s.harts h (.exchange c false) }
  | act {s : Spin σ κ ρ} {h : Nat} {c : κ} {f : σ → σ} {next : σ → Prog σ ρ}
      (hin : s.harts h = .inside c (.act f next)) :
      SpinStep work s (.act h) { s with
        shared := f s.shared
        harts := Function.update s.harts h (.inside c (next s.shared)) }
  -- atomic_exchange(lock, false)
  | unlock {s : Spin σ κ ρ} {h : Nat} {c : κ} {r : ρ} (hin : s.harts h = .inside c (.ret r)) :
      SpinStep work s (.unlock h c r) { s with
        lock := false
        harts := Function.update s.harts h .outside
        done := s.done ++ [(h, c, r)] }

/-- `DEFINE_SPINLOCK`: the lock is free, and no hart has called yet. -/
structure Spin.Initial (s : Spin σ κ ρ) : Prop where
  lock : s.lock = false
  outside : ∀ h, s.harts h = .outside
  done : s.done = []

/-! ## 2. The loop as a lock -/

/-- What of the phases matters: a hart in the loop waits. -/
def SpinPhase.abs : SpinPhase σ κ ρ → Phase σ κ ρ
  | .outside => .idle
  | .exchange c _ => .waiting c
  | .body c _ => .waiting c
  | .inside c p => .inside c p

/-- Failed exchanges and their repair are not seen. -/
def SpinEvent.abs : SpinEvent κ ρ → Option (Event Nat κ ρ)
  | .call h c => some (.call h c)
  | .exchanged h => some (.enter h)
  | .failed _ => none
  | .reset _ => none
  | .act h => some (.act h)
  | .unlock h c r => some (.leave h c r)

/-- The lock is taken where somebody holds it, and a hart never expects it to be. -/
structure Spin.Refines (s : Spin σ κ ρ) (a : State Nat σ κ ρ) : Prop where
  lock : s.lock = a.holder.isSome
  shared : s.shared = a.shared
  phase : ∀ h, a.phase h = (s.harts h).abs
  done : s.done = a.done
  expected : ∀ h c e, s.harts h = .exchange c e → e = false

/-- The lock that the harts see as free. -/
def Spin.unlocked (s : Spin σ κ ρ) : State Nat σ κ ρ :=
  ⟨none, s.shared, fun h => (s.harts h).abs, s.done⟩

variable {work : κ → Prog σ ρ} {s t : Spin σ κ ρ} {a b : State Nat σ κ ρ}

theorem Spin.Initial.refines (h0 : s.Initial) : s.Refines s.unlocked := by
  refine ⟨h0.lock, rfl, fun _ => rfl, rfl, fun h c e hat => ?_⟩
  rw [h0.outside h] at hat
  exact nomatch hat

theorem Spin.Initial.unlocked (h0 : s.Initial) : CriticalSection.Initial s.unlocked := by
  refine ⟨rfl, fun h => ?_, h0.done⟩
  show (s.harts h).abs = .idle
  rw [h0.outside h]
  rfl

theorem Spin.Refines.update (hr : s.Refines a) (h : Nat) (p : SpinPhase σ κ ρ)
    (hp : ∀ c e, p = .exchange c e → e = false) :
    (∀ h', Function.update a.phase h p.abs h' = (Function.update s.harts h p h').abs) ∧
      ∀ h' c e, Function.update s.harts h p h' = .exchange c e → e = false := by
  constructor
  · intro h'
    by_cases hh : h' = h
    · subst hh
      simp
    · simp [Function.update_of_ne hh, hr.phase h']
  · intro h' c e hat
    by_cases hh : h' = h
    · subst hh
      exact hp c e (by simpa using hat)
    · exact hr.expected h' c e (by simpa [Function.update_of_ne hh] using hat)

/-- A hart goes from one place in the loop to the other. -/
theorem Spin.Refines.loops (hr : s.Refines a) {h : Nat} {p : SpinPhase σ κ ρ}
    (habs : p.abs = (s.harts h).abs) (hp : ∀ c e, p = .exchange c e → e = false) :
    Spin.Refines { s with harts := Function.update s.harts h p } a := by
  obtain ⟨hphase, hexp⟩ := hr.update h p hp
  refine ⟨hr.lock, hr.shared, fun h' => ?_, hr.done, hexp⟩
  rw [← hphase h', habs, ← hr.phase h, Function.update_eq_self]

/-- **Each instruction** of the loop is a step of the lock, or not seen. -/
theorem Spin.Refines.step (hr : s.Refines a) {e : SpinEvent κ ρ}
    (hstep : SpinStep work s e t) : (e.abs = none ∧ t.Refines a) ∨
      ∃ e' b, e.abs = some e' ∧ Step work a e' b ∧ t.Refines b := by
  cases hstep with
  | @call h c hout =>
    right
    obtain ⟨hphase, hexp⟩ := hr.update h (.exchange c false) (by simp)
    exact ⟨_, _, rfl, .call c (by rw [hr.phase h, hout]; rfl),
      hr.lock, hr.shared, hphase, hr.done, hexp⟩
  | @exchanged h c e hat heq =>
    right
    -- the exchange succeeds against `false` only
    have hfree : a.holder = none := by
      rw [hr.expected h c e hat, hr.lock] at heq
      exact Option.isSome_eq_false_iff.mp heq |> Option.isNone_iff_eq_none.mp
    obtain ⟨hphase, hexp⟩ := hr.update h (.inside c (work c)) (by simp)
    exact ⟨_, _, rfl, .enter (by rw [hr.phase h, hat]; rfl) hfree,
      rfl, hr.shared, hphase, hr.done, hexp⟩
  | @failed h c e hat =>
    left
    refine ⟨rfl, hr.loops ?_ (by simp)⟩
    rw [hat]
    rfl
  | @reset h c e hat =>
    left
    refine ⟨rfl, hr.loops ?_ (by simp)⟩
    rw [hat]
    rfl
  | @act h c f next hin =>
    right
    obtain ⟨hphase, hexp⟩ := hr.update h (.inside c (next s.shared)) (by simp)
    have hinside : a.phase h = .inside c (.act f next) := by
      rw [hr.phase h, hin]
      rfl
    refine ⟨_, _, rfl, .act hinside, hr.lock, ?_, ?_, hr.done, hexp⟩
    · simp [hr.shared]
    · intro h'
      rw [← hphase h', ← hr.shared]
      rfl
  | @unlock h c r hin =>
    right
    obtain ⟨hphase, hexp⟩ := hr.update h .outside (by simp)
    refine ⟨_, _, rfl, .leave (by rw [hr.phase h, hin]; rfl), rfl, hr.shared, hphase, ?_, hexp⟩
    simp [hr.done]

theorem SpinPhase.abs_waiting {p : SpinPhase σ κ ρ} {c : κ} (h : p.abs = .waiting c) :
    (∃ e, p = .exchange c e) ∨ ∃ e, p = .body c e := by
  cases p with
  | outside => exact nomatch h
  | exchange c' e =>
    obtain rfl := Phase.waiting.inj h
    exact Or.inl ⟨e, rfl⟩
  | body c' e =>
    obtain rfl := Phase.waiting.inj h
    exact Or.inr ⟨e, rfl⟩
  | inside c' p => exact nomatch h

theorem SpinPhase.abs_inside {p : SpinPhase σ κ ρ} {c : κ} {q : Prog σ ρ}
    (h : p.abs = .inside c q) : p = .inside c q := by
  cases p with
  | outside => exact nomatch h
  | exchange c' e => exact nomatch h
  | body c' e => exact nomatch h
  | inside c' p =>
    obtain ⟨rfl, rfl⟩ := Phase.inside.inj h
    rfl

theorem SpinPhase.abs_idle {p : SpinPhase σ κ ρ} (h : p.abs = .idle) : p = .outside := by
  cases p with
  | outside => rfl
  | exchange c' e => exact nomatch h
  | body c' e => exact nomatch h
  | inside c' p => exact nomatch h

/-- An instruction that is seen takes the lock where it goes. -/
theorem Spin.Refines.seen (hr : s.Refines a) {e : Event Nat κ ρ} {f : SpinEvent κ ρ}
    (hf : f.abs = some e) (hstep : SpinStep work s f t) (hb : Step work a e b) : t.Refines b := by
  rcases hr.step hstep with ⟨hnone, _⟩ | ⟨e', b', he', hb', ht⟩
  · rw [hf] at hnone
    exact nomatch hnone
  · obtain rfl := Option.some.inj (hf.symm.trans he')
    rw [hb.deterministic hb']
    exact ht

/-- **Each step** of the lock can be made by instructions of the loop. -/
theorem Spin.Refines.realises (hr : s.Refines a) {e : Event Nat κ ρ} (hstep : Step work a e b) :
    ∃ fs t, Run (SpinStep work) s fs t ∧ fs.filterMap SpinEvent.abs = [e] ∧ t.Refines b := by
  have hb := hstep
  cases hstep with
  | @call h c hidle =>
    have hgo : SpinStep work s (.call h c) _ :=
      .call c (SpinPhase.abs_idle ((hr.phase h).symm.trans hidle))
    exact ⟨[.call h c], _, .cons hgo (.nil _), rfl, hr.seen rfl hgo hb⟩
  | @enter h c hwait hfree =>
    have hlock : s.lock = false := by
      rw [hr.lock, hfree]
      rfl
    rcases SpinPhase.abs_waiting ((hr.phase h).symm.trans hwait) with ⟨e, hat⟩ | ⟨e, hat⟩
    · obtain rfl := hr.expected h c e hat
      have hgo : SpinStep work s (.exchanged h) _ := .exchanged hat hlock
      exact ⟨[.exchanged h], _, .cons hgo (.nil _), rfl, hr.seen rfl hgo hb⟩
    · -- the last exchange has failed, so `expected` is set back first
      have hback : SpinStep work s (.reset h) _ := .reset hat
      have hr' : Spin.Refines { s with harts := Function.update s.harts h (.exchange c false) } a := by
        refine hr.loops ?_ (by simp)
        rw [hat]
        rfl
      have hgo : SpinStep work { s with harts := Function.update s.harts h (.exchange c false) }
          (.exchanged h) _ := .exchanged (Function.update_self _ _ _) hlock
      exact ⟨[.reset h, .exchanged h], _, .cons hback (.cons hgo (.nil _)), rfl,
        hr'.seen rfl hgo hb⟩
  | @act h c f next hin =>
    have hgo : SpinStep work s (.act h) _ :=
      .act (SpinPhase.abs_inside ((hr.phase h).symm.trans hin))
    exact ⟨[.act h], _, .cons hgo (.nil _), rfl, hr.seen rfl hgo hb⟩
  | @leave h c r hin =>
    have hgo : SpinStep work s (.unlock h c r) _ :=
      .unlock (SpinPhase.abs_inside ((hr.phase h).symm.trans hin))
    exact ⟨[.unlock h c r], _, .cons hgo (.nil _), rfl, hr.seen rfl hgo hb⟩

/-! ## 3. Every interleaving -/

/-- The harts, with the lock they refine. -/
theorem Spin.reached {es : List (SpinEvent κ ρ)} (h0 : s.Initial)
    (hrun : Run (SpinStep work) s es t) :
    ∃ a, t.Refines a ∧ CriticalSection.Inv work s.shared a := by
  obtain ⟨a, harun, ha⟩ := hrun.stutters (fun _ _ _ _ hr hstep => hr.step hstep) _ h0.refines
  exact ⟨a, ha, Inv.run h0.unlocked harun⟩

/-- **One hart at a time.**  However the instructions of any number of harts interleave, and however
    often an exchange fails, at most one hart is between `spin_lock` and `spin_unlock`, and the lock
    reads `true` exactly then.  The calls that have returned took effect one after the other, each on
    the state that the one before it left; what the hart inside still has to do completes its own. -/
theorem spin_lock_serial (work : κ → Prog σ ρ) (s : Spin σ κ ρ) (h0 : s.Initial)
    (es : List (SpinEvent κ ρ)) (t : Spin σ κ ρ) (hrun : Run (SpinStep work) s es t) :
    (∀ h h' c c' p p', t.harts h = .inside c p → t.harts h' = .inside c' p' → h = h') ∧
    (t.lock = true ↔ ∃ h c p, t.harts h = .inside c p) ∧
    ∃ base, Run (Atomic work) s.shared t.done base ∧ (t.lock = false → t.shared = base) ∧
      ∀ h c p, t.harts h = .inside c p → p.run t.shared = (work c).run base := by
  obtain ⟨a, hr, hi⟩ := Spin.reached h0 hrun
  have hin : ∀ h c p, t.harts h = .inside c p → a.phase h = .inside c p := by
    intro h c p hat
    rw [hr.phase h, hat]
    rfl
  refine ⟨fun h h' c c' p p' h1 h2 => hi.exclusive (hin h c p h1) (hin h' c' p' h2), ?_, ?_⟩
  · rw [hr.lock]
    constructor
    · intro hsome
      obtain ⟨h, hh⟩ := Option.isSome_iff_exists.mp hsome
      obtain ⟨c, p, hat⟩ := (hi.held h).mp hh
      exact ⟨h, c, p, SpinPhase.abs_inside ((hr.phase h).symm.trans hat)⟩
    · rintro ⟨h, c, p, hat⟩
      rw [(hi.held h).mpr ⟨c, p, hin h c p hat⟩]
      rfl
  · obtain ⟨base, hbase, hfree, hrest⟩ := hi.serial
    refine ⟨base, ?_, fun hlock => ?_, fun h c p hat => ?_⟩
    · rw [hr.done]
      exact hbase
    · rw [hr.shared]
      apply hfree
      rw [hr.lock] at hlock
      exact Option.isNone_iff_eq_none.mp (Option.isSome_eq_false_iff.mp hlock)
    · rw [hr.shared]
      exact hrest h c p (hin h c p hat)

/-- A counter that is read and then written. -/
def increment : Unit → Prog Nat Nat := fun _ => .read id fun n => .write (fun _ => n + 1) (.ret n)

def Spin.counter : Spin Nat Unit Nat := ⟨false, 0, fun _ => .outside, []⟩

/-- One hart is about to count, and the exchange of another has just failed. -/
def Spin.counting : Spin Nat Unit Nat where
  lock := true
  shared := 0
  harts := Function.update (Function.update (Function.update (Function.update
    (fun _ => .outside) 0 (.exchange () false)) 1 (.exchange () false))
    0 (.inside () (increment ()))) 1 (.body () true)
  done := []

theorem Spin.counter_run : Run (SpinStep increment) .counter
    [.call 0 (), .call 1 (), .exchanged 0, .failed 1] .counting := by
  refine .cons (SpinStep.call () rfl) ?_
  refine .cons (SpinStep.call () rfl) ?_
  refine .cons (SpinStep.exchanged (c := ()) rfl rfl) ?_
  refine .cons (SpinStep.failed (c := ()) rfl) ?_
  exact .nil _

theorem spin_lock_serial_counter :
    (∀ h h' c c' p p', Spin.counting.harts h = .inside c p →
      Spin.counting.harts h' = .inside c' p' → h = h') ∧
    (Spin.counting.lock = true ↔ ∃ h c p, Spin.counting.harts h = .inside c p) ∧
    ∃ base, Run (Atomic increment) 0 Spin.counting.done base ∧
      (Spin.counting.lock = false → 0 = base) ∧
      ∀ h c p, Spin.counting.harts h = .inside c p → p.run 0 = (increment c).run base :=
  spin_lock_serial increment .counter ⟨rfl, fun _ => rfl, rfl⟩ _ _ Spin.counter_run

/-- **No deadlock.**  In every state the harts reach, each hart that spins can be let in by finitely
    many instructions, without a further call of any hart. -/
theorem spin_lock_admits (work : κ → Prog σ ρ) (s : Spin σ κ ρ) (h0 : s.Initial)
    (es : List (SpinEvent κ ρ)) (t : Spin σ κ ρ) (hrun : Run (SpinStep work) s es t)
    (h : Nat) (c : κ) (e : Bool) (hspin : t.harts h = .exchange c e ∨ t.harts h = .body c e) :
    ∃ fs u p, (∀ f ∈ fs, ∀ h' c', f ≠ .call h' c') ∧ Run (SpinStep work) t fs u ∧
      u.harts h = .inside c p := by
  obtain ⟨a, hr, hi⟩ := Spin.reached h0 hrun
  have hwait : a.phase h = .waiting c := by
    rw [hr.phase h]
    rcases hspin with hat | hat
    · rw [hat]
      rfl
    · rw [hat]
      rfl
  obtain ⟨gs, b, p, hcalls, hgs, hin⟩ := hi.admits hwait
  obtain ⟨fs, u, hfs, hseen, hr'⟩ :=
    hgs.realised (fun _ _ _ _ hr hstep => hr.realises hstep) t hr
  refine ⟨fs, u, p, fun f hf h' c' hcall => ?_, hfs,
    SpinPhase.abs_inside ((hr'.phase h).symm.trans hin)⟩
  have hmem : Event.call h' c' ∈ gs := by
    rw [← hseen, List.mem_filterMap]
    exact ⟨f, hf, by rw [hcall]; rfl⟩
  exact hcalls _ hmem h' c' rfl

theorem spin_lock_admits_counter : ∃ fs u p, (∀ f ∈ fs, ∀ h' c', f ≠ .call h' c') ∧
    Run (SpinStep increment) .counting fs u ∧ u.harts 1 = .inside () p :=
  spin_lock_admits increment .counter ⟨rfl, fun _ => rfl, rfl⟩ _ _ Spin.counter_run 1 () true
    (Or.inr rfl)

end IloPali
