import IloPali.Lib.CriticalSection

/-!
# Lock order

Parties run programs that take locks and release them.  Where every program takes its locks in the
order of a rank, and has released all of them when it ends, no interleaving is a deadlock: from every
state that is reached, every call that is in progress can still return.
-/

namespace LockOrder

open Transition

variable {Λ σ ρ τ κ π : Type}

/-! ## 1. Programs -/

/-- A program that takes and releases locks between its steps. -/
inductive Code (Λ σ ρ : Type)
  | ret (r : ρ)
  | act (f : σ → σ) (next : σ → Code Λ σ ρ)
  | lock (l : Λ) (next : Code Λ σ ρ)
  | unlock (l : Λ) (next : Code Λ σ ρ)

namespace Code

/-- The program where nobody interferes. -/
def run : Code Λ σ ρ → σ → ρ × σ
  | ret r, s => (r, s)
  | act f next, s => (next s).run (f s)
  | lock _ next, s => next.run s
  | unlock _ next, s => next.run s

def read (f : σ → τ) (next : τ → Code Λ σ ρ) : Code Λ σ ρ := act id fun s => next (f s)

def write (f : σ → σ) (next : Code Λ σ ρ) : Code Λ σ ρ := act f fun _ => next

def bind : Code Λ σ ρ → (ρ → Code Λ σ τ) → Code Λ σ τ
  | ret r, g => g r
  | act f next, g => act f fun s => (next s).bind g
  | lock l next, g => lock l (next.bind g)
  | unlock l next, g => unlock l (next.bind g)

/-- The steps of a program on a part of the state. -/
def on (get : σ → τ) (set : τ → σ → σ) : CriticalSection.Prog τ ρ → Code Λ σ ρ
  | .ret r => ret r
  | .act f next => act (fun s => set (f (get s)) s) fun s => on get set (next (get s))

@[simp] theorem run_ret (r : ρ) (s : σ) : (ret r : Code Λ σ ρ).run s = (r, s) := rfl

@[simp] theorem run_act (f : σ → σ) (next : σ → Code Λ σ ρ) (s : σ) :
    (act f next).run s = (next s).run (f s) := rfl

@[simp] theorem run_lock (l : Λ) (next : Code Λ σ ρ) (s : σ) :
    (lock l next).run s = next.run s := rfl

@[simp] theorem run_unlock (l : Λ) (next : Code Λ σ ρ) (s : σ) :
    (unlock l next).run s = next.run s := rfl

@[simp] theorem run_read (f : σ → τ) (next : τ → Code Λ σ ρ) (s : σ) :
    (read f next).run s = (next (f s)).run s := rfl

@[simp] theorem run_write (f : σ → σ) (next : Code Λ σ ρ) (s : σ) :
    (write f next).run s = next.run (f s) := rfl

@[simp] theorem run_bind (p : Code Λ σ ρ) (g : ρ → Code Λ σ τ) (s : σ) :
    (p.bind g).run s = (g (p.run s).1).run (p.run s).2 := by
  induction p generalizing s with
  | ret r => rfl
  | act f next ih => exact ih s (f s)
  | lock l next ih => exact ih s
  | unlock l next ih => exact ih s

/-- The steps on a part of the state do there what they do on their own. -/
theorem run_on {get : σ → τ} {set : τ → σ → σ} (hget : ∀ x s, get (set x s) = x)
    (hset : ∀ x y s, set x (set y s) = set x s) (hself : ∀ s, set (get s) s = s)
    (p : CriticalSection.Prog τ ρ) (s : σ) :
    (on get set p : Code Λ σ ρ).run s = ((p.run (get s)).1, set (p.run (get s)).2 s) := by
  induction p generalizing s with
  | ret r =>
    rw [on, run_ret, CriticalSection.Prog.run_ret, hself]
  | act f next ih =>
    rw [on, run_act, ih, CriticalSection.Prog.run_act, hget, hset]

end Code

/-! ## 2. Order -/

section Order

variable [DecidableEq Λ]

/-- With the locks `held`, the program takes locks only above those that it has then, releases only
    what it has, and ends with locks and a result as `Q` says. -/
def Orderly (rank : Λ → Nat) (Q : List Λ → ρ → Prop) : List Λ → Code Λ σ ρ → Prop
  | held, .ret r => Q held r
  | held, .act _ next => ∀ s, Orderly rank Q held (next s)
  | held, .lock l next => (∀ k ∈ held, rank k < rank l) ∧ Orderly rank Q (l :: held) next
  | held, .unlock l next => l ∈ held ∧ Orderly rank Q (held.erase l) next

variable {rank : Λ → Nat} {Q : List Λ → ρ → Prop} {held : List Λ}

theorem Orderly.ret {r : ρ} (h : Q held r) :
    Orderly rank Q held (.ret r : Code Λ σ ρ) := h

theorem Orderly.lock {l : Λ} {next : Code Λ σ ρ} (hl : ∀ k ∈ held, rank k < rank l)
    (h : Orderly rank Q (l :: held) next) : Orderly rank Q held (.lock l next) := ⟨hl, h⟩

/-- The lock that was taken last is released. -/
theorem Orderly.unlock {l : Λ} {next : Code Λ σ ρ} (h : Orderly rank Q held next) :
    Orderly rank Q (l :: held) (.unlock l next) := by
  refine ⟨List.mem_cons_self, ?_⟩
  rwa [List.erase_cons_head]

theorem Orderly.read {f : σ → τ} {next : τ → Code Λ σ ρ}
    (h : ∀ x, Orderly rank Q held (next x)) : Orderly rank Q held (.read f next) :=
  fun s => h (f s)

theorem Orderly.write {f : σ → σ} {next : Code Λ σ ρ} (h : Orderly rank Q held next) :
    Orderly rank Q held (.write f next) := fun _ => h

theorem Orderly.bind {Q' : List Λ → τ → Prop} {p : Code Λ σ ρ} {g : ρ → Code Λ σ τ}
    (h : Orderly rank (fun held r => Orderly rank Q' held (g r)) held p) :
    Orderly rank Q' held (p.bind g) := by
  induction p generalizing held with
  | ret r => exact h
  | act f next ih => exact fun s => ih s (h s)
  | lock l next ih => exact ⟨h.1, ih h.2⟩
  | unlock l next ih => exact ⟨h.1, ih h.2⟩

/-- Steps on a part of the state take no lock. -/
theorem Orderly.on {get : σ → τ} {set : τ → σ → σ} (p : CriticalSection.Prog τ ρ)
    (h : ∀ r, Q held r) : Orderly rank Q held (.on get set p) := by
  induction p with
  | ret r => exact h r
  | act f next ih => exact fun s => ih (get s)

end Order

/-! ## 3. The system -/

/-- Who has each lock, the shared state, and what each party has still to do in its call. -/
structure State (π Λ σ κ ρ : Type) where
  owner : Λ → Option π
  shared : σ
  phase : π → Option (κ × Code Λ σ ρ)

inductive Event (π Λ κ ρ : Type)
  | call (h : π) (c : κ)
  | act (h : π)
  | lock (h : π) (l : Λ)
  | unlock (h : π) (l : Λ)
  | ret (h : π) (c : κ) (r : ρ)

/-- The party that an event is about. -/
def Event.party : Event π Λ κ ρ → π
  | .call h _ => h
  | .act h => h
  | .lock h _ => h
  | .unlock h _ => h
  | .ret h _ _ => h

/-- No lock is taken and nobody is in a call. -/
structure Initial (s : State π Λ σ κ ρ) : Prop where
  owner : ∀ l, s.owner l = none
  phase : ∀ h, s.phase h = none

/-- The party `h` has exactly the locks `held`. -/
def Holds (s : State π Λ σ κ ρ) (h : π) (held : List Λ) : Prop :=
  held.Nodup ∧ ∀ l, l ∈ held ↔ s.owner l = some h

/-- A party for which neither its place nor its locks changed. -/
structure Untouched (s t : State π Λ σ κ ρ) (h : π) : Prop where
  phase : t.phase h = s.phase h
  owner : ∀ l, t.owner l = some h ↔ s.owner l = some h

theorem Untouched.refl (s : State π Λ σ κ ρ) (h : π) : Untouched s s h := ⟨rfl, fun _ => Iff.rfl⟩

theorem Untouched.trans {s t u : State π Λ σ κ ρ} {h : π} (h1 : Untouched s t h)
    (h2 : Untouched t u h) : Untouched s u h :=
  ⟨h2.phase.trans h1.phase, fun l => (h2.owner l).trans (h1.owner l)⟩

theorem Untouched.holds {s t : State π Λ σ κ ρ} {h : π} {held : List Λ} (hu : Untouched s t h)
    (hh : Holds s h held) : Holds t h held :=
  ⟨hh.1, fun l => (hh.2 l).trans (hu.owner l).symm⟩

section Steps

variable [DecidableEq Λ]

/-- Every party has the locks that the rest of its program expects. -/
def Inv (rank : Λ → Nat) (s : State π Λ σ κ ρ) : Prop :=
  ∀ h, match s.phase h with
    | none => Holds s h []
    | some (_, p) => ∃ held, Holds s h held ∧ Orderly rank (fun held _ => held = []) held p

variable {rank : Λ → Nat} {s t : State π Λ σ κ ρ}

theorem Initial.inv (h0 : Initial s) : Inv rank s := by
  intro h
  rw [h0.phase h]
  refine ⟨List.nodup_nil, fun l => ?_⟩
  rw [h0.owner l]
  simp

theorem Inv.busy (hi : Inv rank s) {h : π} {c : κ} {p : Code Λ σ ρ} (hat : s.phase h = some (c, p)) :
    ∃ held, Holds s h held ∧ Orderly rank (fun held _ => held = []) held p := by
  have := hi h
  rw [hat] at this
  exact this

theorem Inv.idle (hi : Inv rank s) {h : π} (hat : s.phase h = none) : Holds s h [] := by
  have := hi h
  rw [hat] at this
  exact this

/-- A state in which one party is as it should be and the others are as before. -/
theorem Inv.of_untouched (hi : Inv rank s) {h : π} (hother : ∀ g, g ≠ h → Untouched s t g)
    (hself : match t.phase h with
      | none => Holds t h []
      | some (_, p) => ∃ held, Holds t h held ∧ Orderly rank (fun held _ => held = []) held p) :
    Inv rank t := by
  intro g
  by_cases hg : g = h
  · subst hg
    exact hself
  · have hu := hother g hg
    rw [hu.phase]
    cases hat : s.phase g with
    | none => exact hu.holds (hi.idle hat)
    | some x =>
      obtain ⟨held, hh, ho⟩ := hi.busy hat
      exact ⟨held, hu.holds hh, ho⟩

variable [DecidableEq π]

inductive Step (body : κ → Code Λ σ ρ) : State π Λ σ κ ρ → Event π Λ κ ρ → State π Λ σ κ ρ → Prop
  | call {s : State π Λ σ κ ρ} {h : π} (c : κ) (hidle : s.phase h = none) :
      Step body s (.call h c) { s with phase := Function.update s.phase h (some (c, body c)) }
  | act {s : State π Λ σ κ ρ} {h : π} {c : κ} {f : σ → σ} {next : σ → Code Λ σ ρ}
      (hat : s.phase h = some (c, .act f next)) :
      Step body s (.act h) { s with
        shared := f s.shared
        phase := Function.update s.phase h (some (c, next s.shared)) }
  | lock {s : State π Λ σ κ ρ} {h : π} {c : κ} {l : Λ} {next : Code Λ σ ρ}
      (hat : s.phase h = some (c, .lock l next)) (hfree : s.owner l = none) :
      Step body s (.lock h l) { s with
        owner := Function.update s.owner l (some h)
        phase := Function.update s.phase h (some (c, next)) }
  | unlock {s : State π Λ σ κ ρ} {h : π} {c : κ} {l : Λ} {next : Code Λ σ ρ}
      (hat : s.phase h = some (c, .unlock l next)) :
      Step body s (.unlock h l) { s with
        owner := Function.update s.owner l none
        phase := Function.update s.phase h (some (c, next)) }
  | ret {s : State π Λ σ κ ρ} {h : π} {c : κ} {r : ρ} (hat : s.phase h = some (c, .ret r)) :
      Step body s (.ret h c r) { s with phase := Function.update s.phase h none }

variable {body : κ → Code Λ σ ρ}

/-- A step is about one party. -/
theorem Inv.untouched (hi : Inv rank s) {e : Event π Λ κ ρ} (hstep : Step body s e t) {g : π}
    (hg : g ≠ e.party) : Untouched s t g := by
  cases hstep with
  | call c hidle => exact ⟨Function.update_of_ne hg _ _, fun _ => Iff.rfl⟩
  | act hat => exact ⟨Function.update_of_ne hg _ _, fun _ => Iff.rfl⟩
  | ret hat => exact ⟨Function.update_of_ne hg _ _, fun _ => Iff.rfl⟩
  | @lock h c l next hat hfree =>
    refine ⟨Function.update_of_ne hg _ _, fun k => ?_⟩
    by_cases hk : k = l
    · subst hk
      have hne : h ≠ g := Ne.symm hg
      simp [hfree, hne]
    · simp [Function.update_of_ne hk]
  | @unlock h c l next hat =>
    obtain ⟨held, hh, hmem, _⟩ := hi.busy hat
    have howner := (hh.2 l).mp hmem
    refine ⟨Function.update_of_ne hg _ _, fun k => ?_⟩
    by_cases hk : k = l
    · subst hk
      have hne : h ≠ g := Ne.symm hg
      simp [howner, hne]
    · simp [Function.update_of_ne hk]

/-- **Every step** leaves the parties with the locks that they expect. -/
theorem Inv.step (hi : Inv rank s)
    (hbody : ∀ c, Orderly rank (fun held _ => held = []) [] (body c)) {e : Event π Λ κ ρ}
    (hstep : Step body s e t) : Inv rank t := by
  refine hi.of_untouched (fun g hg => hi.untouched hstep hg) ?_
  cases hstep with
  | @call h c hidle =>
    simp only [Event.party, Function.update_self]
    exact ⟨[], hi.idle hidle, hbody c⟩
  | @act h c f next hat =>
    simp only [Event.party, Function.update_self]
    obtain ⟨held, hh, ho⟩ := hi.busy hat
    exact ⟨held, hh, ho s.shared⟩
  | @lock h c l next hat hfree =>
    simp only [Event.party, Function.update_self]
    obtain ⟨held, hh, hrank, ho⟩ := hi.busy hat
    have hnew : l ∉ held := fun hmem => Nat.lt_irrefl _ (hrank l hmem)
    refine ⟨l :: held, ⟨List.nodup_cons.mpr ⟨hnew, hh.1⟩, fun k => ?_⟩, ho⟩
    by_cases hk : k = l
    · subst hk
      simp
    · simp [hk, hh.2 k]
  | @unlock h c l next hat =>
    simp only [Event.party, Function.update_self]
    obtain ⟨held, hh, hmem, ho⟩ := hi.busy hat
    refine ⟨held.erase l, ⟨hh.1.erase l, fun k => ?_⟩, ho⟩
    rw [hh.1.mem_erase_iff, hh.2 k]
    by_cases hk : k = l
    · subst hk
      simp
    · simp [hk]
  | @ret h c r hat =>
    simp only [Event.party, Function.update_self]
    obtain ⟨held, hh, rfl⟩ := hi.busy hat
    exact hh

theorem Inv.run (hi : Inv rank s)
    (hbody : ∀ c, Orderly rank (fun held _ => held = []) [] (body c)) {es : List (Event π Λ κ ρ)}
    (hrun : Run (Step body) s es t) : Inv rank t :=
  @Run.invariant _ _ _ (Inv rank) (fun _ _ _ h hstep => h.step hbody hstep) _ _ _ hrun hi

/-! ## 4. Progress -/

/-- Nobody makes a call. -/
def Quiet (es : List (Event π Λ κ ρ)) : Prop := ∀ e ∈ es, ∀ h c, e ≠ .call h c

/-- The state `t` is reached without a call. -/
def Reaches (body : κ → Code Λ σ ρ) (s t : State π Λ σ κ ρ) : Prop :=
  ∃ es, Quiet es ∧ Run (Step body) s es t

theorem Reaches.refl (s : State π Λ σ κ ρ) : Reaches body s s := ⟨[], by simp [Quiet], .nil s⟩

theorem Reaches.trans {u : State π Λ σ κ ρ} (h1 : Reaches body s t) (h2 : Reaches body t u) :
    Reaches body s u := by
  obtain ⟨es, hes, hrun⟩ := h1
  obtain ⟨fs, hfs, hrun'⟩ := h2
  refine ⟨es ++ fs, fun e he => ?_, hrun.append hrun'⟩
  rcases List.mem_append.mp he with he | he
  · exact hes e he
  · exact hfs e he

theorem Reaches.single {e : Event π Λ κ ρ} (hquiet : ∀ h c, e ≠ .call h c)
    (hstep : Step body s e t) : Reaches body s t :=
  ⟨[e], by simpa [Quiet] using hquiet, .cons hstep (.nil t)⟩

/-- From `s` to `t` without a call, and without a step of those who have only locks below rank `n`. -/
structure Settles (body : κ → Code Λ σ ρ) (rank : Λ → Nat) (n : Nat) (s t : State π Λ σ κ ρ) :
    Prop where
  reaches : Reaches body s t
  below : ∀ g, (∀ k, s.owner k = some g → rank k < n) → Untouched s t g

theorem Settles.trans {n m : Nat} {u : State π Λ σ κ ρ} (h1 : Settles body rank n s t)
    (h2 : Settles body rank m t u) (hnm : n ≤ m) : Settles body rank n s u := by
  refine ⟨h1.reaches.trans h2.reaches, fun g hg => ?_⟩
  have hu := h1.below g hg
  refine hu.trans (h2.below g fun k hk => ?_)
  exact Nat.lt_of_lt_of_le (hg k ((hu.owner k).mp hk)) hnm

/-- One step of a party that has a lock of rank `n` or more. -/
theorem Inv.settles (hi : Inv rank s) {e : Event π Λ κ ρ} (hquiet : ∀ h c, e ≠ .call h c)
    (hstep : Step body s e t) {n : Nat} {l : Λ} (hl : s.owner l = some e.party) (hn : n ≤ rank l) :
    Settles body rank n s t := by
  refine ⟨.single hquiet hstep, fun g hg => hi.untouched hstep ?_⟩
  rintro rfl
  exact absurd (hg l hl) (Nat.not_lt.mpr hn)

/-- **A lock comes free** without a step of those who have only locks of lower rank. -/
theorem Inv.frees (hbody : ∀ c, Orderly rank (fun held _ => held = []) [] (body c)) {N : Nat}
    (hN : ∀ l, rank l < N) (l : Λ) (hi : Inv rank s) {h : π} (hl : s.owner l = some h) :
    ∃ t, Settles body rank (rank l) s t ∧ t.owner l = none := by
  -- on the number of ranks above that of the lock
  induction hgap : N - rank l using Nat.strongRecOn generalizing l s h with
  | ind gap ihgap =>
    subst hgap
    obtain ⟨c, p, hat⟩ : ∃ c p, s.phase h = some (c, p) := by
      cases hp : s.phase h with
      | none => exact absurd (((hi.idle hp).2 l).mpr hl) (List.not_mem_nil)
      | some x => exact ⟨x.1, x.2, rfl⟩
    -- on the rest of the program of the party that has it
    induction p generalizing s with
    | ret r =>
      obtain ⟨held, hh, rfl⟩ := hi.busy hat
      exact absurd ((hh.2 l).mpr hl) List.not_mem_nil
    | act f next ih =>
      have hstep : Step body s _ _ := .act hat
      have hone := hi.settles (by simp) hstep (n := rank l) hl (Nat.le_refl _)
      obtain ⟨t, ht, hfree⟩ := ih s.shared (hi.step hbody hstep) hl (Function.update_self _ _ _)
      exact ⟨t, hone.trans ht (Nat.le_refl _), hfree⟩
    | unlock l' next ih =>
      obtain ⟨held, hh, hmem, _⟩ := hi.busy hat
      have hstep : Step body s _ _ := .unlock hat
      have hone := hi.settles (by simp) hstep (n := rank l) hl (Nat.le_refl _)
      by_cases hll : l = l'
      · subst hll
        exact ⟨_, hone, Function.update_self _ _ _⟩
      · obtain ⟨t, ht, hfree⟩ := ih (hi.step hbody hstep) ((Function.update_of_ne hll _ _).trans hl)
          (Function.update_self _ _ _)
        exact ⟨t, hone.trans ht (Nat.le_refl _), hfree⟩
    | lock l' next ih =>
      obtain ⟨held, hh, hrank, _⟩ := hi.busy hat
      have hup : ∀ k, s.owner k = some h → rank k < rank l' := fun k hk => hrank k ((hh.2 k).mpr hk)
      have hlt := hup l hl
      -- first the lock that it waits for comes free, if another party has it
      obtain ⟨v, hv, hfree'⟩ : ∃ v, Settles body rank (rank l') s v ∧ v.owner l' = none := by
        cases howner : s.owner l' with
        | none =>
          exact ⟨s, ⟨.refl s, fun g _ => .refl s g⟩, howner⟩
        | some g =>
          have := hN l
          exact ihgap (N - rank l') (by omega) l' hi howner rfl
      have hsame := hv.below h hup
      obtain ⟨es, _, hes⟩ := hv.reaches
      have hvi := hi.run hbody hes
      have hstep : Step body v _ _ := .lock (hsame.phase.trans hat) hfree'
      have hvl := (hsame.owner l).mpr hl
      have hone := hvi.settles (by simp) hstep (n := rank l) hvl (Nat.le_refl _)
      have hne : l ≠ l' := by
        rintro rfl
        exact Nat.lt_irrefl _ hlt
      obtain ⟨t, ht, hfree⟩ := ih (hvi.step hbody hstep)
        ((Function.update_of_ne hne _ _).trans hvl) (Function.update_self _ _ _)
      refine ⟨t, ?_, hfree⟩
      have hfirst : Settles body rank (rank l) s v := ⟨hv.reaches, fun g hg => hv.below g fun k hk =>
        Nat.lt_trans (hg k hk) hlt⟩
      exact (hfirst.trans hone (Nat.le_refl _)).trans ht (Nat.le_refl _)

/-- **No deadlock.**  Every call that is in progress can return, without any further call. -/
theorem Inv.returns (hbody : ∀ c, Orderly rank (fun held _ => held = []) [] (body c)) {N : Nat}
    (hN : ∀ l, rank l < N) (hi : Inv rank s) {h : π} {c : κ} {p : Code Λ σ ρ}
    (hat : s.phase h = some (c, p)) : ∃ t, Reaches body s t ∧ t.phase h = none := by
  induction p generalizing s with
  | ret r => exact ⟨_, .single (by simp) (.ret hat), Function.update_self _ _ _⟩
  | act f next ih =>
    have hstep : Step body s _ _ := .act hat
    obtain ⟨t, ht, hidle⟩ := ih s.shared (hi.step hbody hstep) (Function.update_self _ _ _)
    exact ⟨t, (Reaches.single (by simp) hstep).trans ht, hidle⟩
  | unlock l next ih =>
    have hstep : Step body s _ _ := .unlock hat
    obtain ⟨t, ht, hidle⟩ := ih (hi.step hbody hstep) (Function.update_self _ _ _)
    exact ⟨t, (Reaches.single (by simp) hstep).trans ht, hidle⟩
  | lock l next ih =>
    obtain ⟨held, hh, hrank, _⟩ := hi.busy hat
    obtain ⟨v, hv, hfree⟩ : ∃ v, Settles body rank (rank l) s v ∧ v.owner l = none := by
      cases howner : s.owner l with
      | none => exact ⟨s, ⟨.refl s, fun g _ => .refl s g⟩, howner⟩
      | some g => exact Inv.frees hbody hN l hi howner
    have hsame := hv.below h fun k hk => hrank k ((hh.2 k).mpr hk)
    obtain ⟨es, _, hes⟩ := hv.reaches
    have hstep : Step body v _ _ := .lock (hsame.phase.trans hat) hfree
    obtain ⟨t, ht, hidle⟩ := ih ((hi.run hbody hes).step hbody hstep) (Function.update_self _ _ _)
    exact ⟨t, (hv.reaches.trans (.single (by simp) hstep)).trans ht, hidle⟩

end Steps

-- what a program does with its locks is shown rule by rule
attribute [irreducible] Orderly

end LockOrder
