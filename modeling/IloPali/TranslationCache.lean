import IloPali.UserRuns

/-!
# Cached translations (`mmu.c`)

A hart keeps translations that it has walked to, and does not notice by itself that it uses another
table.  `set_mmu` discards them when it writes `satp`, and does neither where the table is the one in
use.  Nothing writes the tables of tasks that run, so what a hart has kept is right: programs cannot
tell the machine from one that walks the tables at every access.
-/

namespace IloPali

open ByteMemory Transition

/-! ## 1. The machine -/

structure CachedMachine where
  base : UserMachine
  cache : Nat → PageNumber → Option Mapping

namespace CachedMachine

/-- What hart `h` translates by: the translations that it has kept, and the table for the others. -/
def reached (c : CachedMachine) (h : Nat) (v : PageNumber) : Option Mapping :=
  (c.cache h v).or (c.base.reached h v)

/-- What hart `h` keeps is what its table says. -/
def Coherent (c : CachedMachine) : Prop :=
  ∀ h v x, c.cache h v = some x → c.base.reached h v = some x

/-- `set_mmu` on hart `h`, which has left `satp` as it is in `s`: `sfence.vma` follows the write. -/
def fence (c : CachedMachine) (h : Nat) (s : System) : Nat → PageNumber → Option Mapping :=
  if s.satp h = c.base.harts.sys.satp h then c.cache
  else Function.update c.cache h fun _ => none

end CachedMachine

/-- A translation is kept or dropped by hart `h`, at any time, or the machine takes a step. -/
inductive CacheEvent
  | fill (h : Nat) (v : PageNumber)
  | drop (h : Nat) (v : PageNumber)
  | step (e : UserEvent)

/-- What the event is to the programs. -/
def CacheEvent.seen : CacheEvent → Option UserEvent
  | .step e => some e
  | _ => none

inductive CachedStep (P : Processor) : CachedMachine → CacheEvent → CachedMachine → Prop
  | fill (c : CachedMachine) (h : Nat) (v : PageNumber) :
      CachedStep P c (.fill h v) { c with
        cache := Function.update c.cache h
          (Function.update (c.cache h) v (c.base.reached h v)) }
  | drop (c : CachedMachine) (h : Nat) (v : PageNumber) :
      CachedStep P c (.drop h v) { c with
        cache := Function.update c.cache h (Function.update (c.cache h) v none) }
  | user {c : CachedMachine} {h i : Nat} {r : Registers} {bytes : List (Nat × UInt8)} {m : Mem}
      (htask : c.base.harts.current h = .task i)
      (hexec : P (c.base.regs h) (userView (c.reached h) c.base.mem) = some (r, bytes))
      (hstore : userStore (c.reached h) bytes c.base.mem = some m) :
      CachedStep P c (.step (.user h i))
        { c with base := { c.base with mem := m, regs := Function.update c.base.regs h r } }
  | trap {c : CachedMachine} {h : Nat} {r : TrapRef} {cause : Cause} {t : UserMachine}
      (hstep : UserStep P c.base (.trap h r cause) t) :
      CachedStep P c (.step (.trap h r cause)) ⟨t, c.fence h t.harts.sys⟩

/-! ## 2. Tables in use -/

section Steps

variable {T : Nat} {c d : CachedMachine} {u t : UserMachine} {P : Processor}

/-- Every hart uses the table of a task. -/
def UserMachine.Installed (T : Nat) (u : UserMachine) : Prop :=
  ∀ h, ∃ i, i < T ∧ u.installed h = u.root i

/-- A trap on hart `h` leaves the tables of the other harts, and installs that of a task if it changes
    its own. -/
theorem UserMachine.Inv.trap_satp (hu : u.Inv T) {h : Nat} {r : TrapRef} {cause : Cause}
    (hstep : UserStep P u (.trap h r cause) t) :
    t.mem = u.mem ∧ (∀ h', h' ≠ h → t.harts.sys.satp h' = u.harts.sys.satp h') ∧
      (t.harts.sys.satp h = u.harts.sys.satp h ∨ ∃ i, i < T ∧ t.installed h = t.root i) := by
  have hkept := (hu.maps hstep).roots
  cases hstep with
  | @trap _ _ _ r' s hcurrent hcall =>
    have hsatp := (saveRegisters_frame u.harts.sys (u.harts.current h) (u.regs h)).2.2.2.1
    refine ⟨rfl, ?_⟩
    dsimp only
    rcases hu.trap hcurrent hcall with ⟨_, n, hn, _, rfl, hsw⟩ | ⟨_, i, _, _, rfl, rfl⟩
    · have hold : (u.entered h).satp = u.harts.sys.satp := hsatp
      rw [hsw.satp, hold]
      split
      · exact ⟨fun _ _ => rfl, Or.inl rfl⟩
      · refine ⟨fun h' hh => Function.update_of_ne hh _ _, Or.inr ⟨n, hn, ?_⟩⟩
        obtain ⟨hpos, haligned, hlt⟩ := hu.scheduled.roots n hn
        have hdata : ((u.entered h).tasks n).mmuData = (u.harts.sys.tasks n).mmuData :=
          (saveRegisters_frame u.harts.sys (u.harts.current h) (u.regs h)).2.2.2.2.2 n |>.2.2
        rw [hkept n, UserMachine.installed, UserMachine.root]
        dsimp only
        rename_i hother
        rw [hsw.satp, if_neg hother, hold, Function.update_self, hdata, getMmu_setMmu hpos haligned hlt]
    · have hafter : (afterCall cause i (u.entered h)).satp = u.harts.sys.satp :=
        (@afterCall_frame T cause i (u.entered h)).2.1.trans hsatp
      rw [hafter]
      exact ⟨fun _ _ => rfl, Or.inl rfl⟩

theorem installed_congr {h : Nat} (hsatp : t.harts.sys.satp h = u.harts.sys.satp h) :
    t.installed h = u.installed h := by
  rw [UserMachine.installed, UserMachine.installed, hsatp]

/-- **Every step** of the machine leaves every hart with the table of a task. -/
theorem UserMachine.Installed.step (hi : u.Installed T) (hu : u.Inv T) {e : UserEvent}
    (hstep : UserStep P u e t) : t.Installed T := by
  have hroots := (hu.maps hstep).roots
  intro h'
  obtain ⟨i, hi, hinstalled⟩ := hi h'
  cases e with
  | user h j =>
    cases hstep with
    | user => exact ⟨i, hi, hinstalled⟩
  | trap h r cause =>
    obtain ⟨_, hothers, hown⟩ := hu.trap_satp hstep
    by_cases hh : h' = h
    · subst hh
      rcases hown with hsame | hnew
      · exact ⟨i, hi, by rw [installed_congr hsame, hinstalled, hroots i]⟩
      · exact hnew
    · exact ⟨i, hi, by rw [installed_congr (hothers h' hh), hinstalled, hroots i]⟩

/-- An instruction leaves what every hart translates by. -/
theorem UserMachine.Installed.user (hi : u.Installed T) (hu : u.Inv T) {h j : Nat}
    (hstep : UserStep P u (.user h j) t) (h' : Nat) : t.reached h' = u.reached h' := by
  obtain ⟨i, hlt, hinstalled⟩ := hi h'
  have hmap := (hu.maps hstep).maps i hlt
  cases hstep with
  | @user _ _ r bytes m htask hexec hstore =>
    unfold UserMachine.map at hmap
    unfold UserMachine.reached
    have hroot : UserMachine.installed ⟨u.harts, m, Function.update u.regs h r⟩ h' =
        UserMachine.root ⟨u.harts, m, Function.update u.regs h r⟩ i := hinstalled
    rw [hroot, hmap, hinstalled]

/-! ## 3. Coherence -/

/-- Coherent caches do not show. -/
theorem CachedMachine.Coherent.reached (hc : c.Coherent) (h : Nat) :
    c.reached h = c.base.reached h := by
  funext v
  unfold CachedMachine.reached
  cases hv : c.cache h v with
  | none => rfl
  | some x => rw [Option.some_or, hc h v x hv]

/-- A step of the plain machine is one of the machine with coherent caches. -/
theorem CachedMachine.Coherent.lift (hc : c.Coherent) {e : UserEvent}
    (hstep : UserStep P c.base e t) : ∃ d, CachedStep P c (.step e) d ∧ d.base = t := by
  cases hstep with
  | @user h i r bytes m htask hexec hstore =>
    rw [← hc.reached h] at hexec hstore
    exact ⟨_, .user htask hexec hstore, rfl⟩
  | @trap h cause r r' s hcurrent hcall => exact ⟨_, .trap (.trap hcurrent hcall), rfl⟩

/-- **Every step** of the machine with caches keeps them coherent, and is a step of the plain machine
    or none at all. -/
theorem CachedMachine.Coherent.step (hc : c.Coherent) (hi : c.base.Installed T)
    (hu : c.base.Inv T) {e : CacheEvent} (hstep : CachedStep P c e d) :
    d.Coherent ∧ ((e.seen = none ∧ d.base = c.base) ∨
      ∃ f, e.seen = some f ∧ UserStep P c.base f d.base) := by
  cases hstep with
  | fill h v =>
    refine ⟨fun h' v' x hx => ?_, Or.inl ⟨rfl, rfl⟩⟩
    dsimp only at hx ⊢
    by_cases hh : h' = h
    · subst hh
      rw [Function.update_self] at hx
      by_cases hv : v' = v
      · subst hv
        rwa [Function.update_self] at hx
      · rw [Function.update_of_ne hv] at hx
        exact hc h' v' x hx
    · rw [Function.update_of_ne hh] at hx
      exact hc h' v' x hx
  | drop h v =>
    refine ⟨fun h' v' x hx => ?_, Or.inl ⟨rfl, rfl⟩⟩
    dsimp only at hx ⊢
    by_cases hh : h' = h
    · subst hh
      rw [Function.update_self] at hx
      by_cases hv : v' = v
      · subst hv
        rw [Function.update_self] at hx
        cases hx
      · rw [Function.update_of_ne hv] at hx
        exact hc h' v' x hx
    · rw [Function.update_of_ne hh] at hx
      exact hc h' v' x hx
  | user htask hexec hstore =>
    rw [hc.reached] at hexec hstore
    have hplain := UserStep.user htask hexec hstore
    refine ⟨fun h' v x hx => ?_, Or.inr ⟨_, rfl, hplain⟩⟩
    rw [hi.user hu hplain h']
    exact hc h' v x hx
  | @trap h r cause t hplain =>
    refine ⟨fun h' v x hx => ?_, Or.inr ⟨_, rfl, hplain⟩⟩
    obtain ⟨hmem, hothers, _⟩ := hu.trap_satp hplain
    -- a translation that is still there was made through the same table
    have hkept : c.cache h' v = some x ∧ t.harts.sys.satp h' = c.base.harts.sys.satp h' := by
      unfold CachedMachine.fence at hx
      dsimp only at hx
      by_cases hh : h' = h
      · subst hh
        split at hx
        · rename_i hsame
          exact ⟨hx, hsame⟩
        · rw [Function.update_self] at hx
          cases hx
      · refine ⟨?_, hothers h' hh⟩
        split at hx
        · exact hx
        · rwa [Function.update_of_ne hh] at hx
    dsimp only
    rw [UserMachine.reached, installed_congr hkept.2, hmem]
    exact hc h' v x hkept.1

end Steps

/-! ## 4. Whole runs -/

/-- What a run keeps. -/
structure CachedMachine.Inv (T : Nat) (c : CachedMachine) : Prop where
  base : c.base.Inv T
  installed : c.base.Installed T
  coherent : c.Coherent

theorem CachedMachine.Inv.step {T : Nat} {c d : CachedMachine} {P : Processor} {e : CacheEvent}
    (h : c.Inv T) (hstep : CachedStep P c e d) : d.Inv T := by
  obtain ⟨hcoherent, ⟨_, hsame⟩ | ⟨f, _, hplain⟩⟩ := h.coherent.step h.installed h.base hstep
  · exact ⟨hsame ▸ h.base, hsame ▸ h.installed, hcoherent⟩
  · exact ⟨h.base.step hplain, h.installed.step h.base hplain, hcoherent⟩

/-- What `kinit` leaves: all harts use the table of the first task. -/
theorem KinitLeaves.cachedInv {T : Nat} {c : CachedMachine} (h0 : KinitLeaves T c.base.harts)
    (hw : c.base.Walls T) (hfirst : ∀ h, c.base.installed h = c.base.root 0) (hc : c.Coherent) :
    c.Inv T :=
  ⟨h0.userInv hw, fun h => ⟨0, h0.one_le, hfirst h⟩, hc⟩

/-- A run of the plain machine, with caches that are coherent at its start. -/
theorem CachedMachine.Inv.lift {T : Nat} {c : CachedMachine} {t : UserMachine} {P : Processor}
    {es : List UserEvent} (h : c.Inv T) (hrun : Run (UserStep P) c.base es t) :
    ∃ d, Run (CachedStep P) c (es.map .step) d ∧ d.base = t := by
  generalize hu : c.base = u at hrun
  induction hrun generalizing c with
  | nil u => exact ⟨c, .nil c, hu⟩
  | cons hstep _ ih =>
    subst hu
    obtain ⟨d, hd, hbase⟩ := h.coherent.lift hstep
    obtain ⟨d', hd', hbase'⟩ := ih (h.step hd) hbase
    exact ⟨d', .cons hd hd', hbase'⟩

/-- **No stale translation is ever used**, although nothing but a change of table discards any: the
    runs of the machine, with whatever translations the harts keep and drop on their own, are the runs
    of the one that walks its tables at every access. -/
theorem cached_runs {T : Nat} {c : CachedMachine} {P : Processor}
    (h0 : KinitLeaves T c.base.harts) (hw : c.base.Walls T)
    (hfirst : ∀ h, c.base.installed h = c.base.root 0) (hc : c.Coherent) :
    (∀ es d, Run (CachedStep P) c es d →
      Run (UserStep P) c.base (es.filterMap CacheEvent.seen) d.base ∧ d.Coherent) ∧
    ∀ es t, Run (UserStep P) c.base es t → ∃ d, Run (CachedStep P) c (es.map .step) d ∧ d.base = t := by
  have hinv := h0.cachedInv hw hfirst hc
  refine ⟨fun es d hrun => ?_, fun es t hrun => hinv.lift hrun⟩
  have hsim : ∀ (c : CachedMachine) (e : CacheEvent) (d : CachedMachine) (u : UserMachine),
      (c.Inv T ∧ c.base = u) → CachedStep P c e d →
      (e.seen = none ∧ d.Inv T ∧ d.base = u) ∨
        ∃ f v, e.seen = some f ∧ UserStep P u f v ∧ d.Inv T ∧ d.base = v := by
    rintro c e d u ⟨h, rfl⟩ hstep
    obtain ⟨_, ⟨hnone, hsame⟩ | ⟨f, hsome, hplain⟩⟩ := h.coherent.step h.installed h.base hstep
    · exact Or.inl ⟨hnone, h.step hstep, hsame⟩
    · exact Or.inr ⟨f, d.base, hsome, hplain, h.step hstep, rfl⟩
  obtain ⟨v, hv, hd, rfl⟩ := hrun.stutters hsim c.base ⟨hinv, rfl⟩
  exact ⟨hv, hd.coherent⟩

/-- Hart 1 has kept the translation of task 0 for the address at which task 1 counts. -/
def staleRooms : CachedMachine where
  base := rooms 5
  cache := Function.update (fun _ _ => none) 1
    (Function.update (fun _ => none) (getVpns 0x40000000) (some ⟨0x40000, 0x17#64⟩))

theorem cached_runs_rooms : ∃ d,
    Run (CachedStep countUp) staleRooms
      ([UserEvent.trap 0 (.hart 0) .timer, .trap 1 (.hart 1) .timer, .user 1 1].map .step) d ∧
    Run (UserStep countUp) (rooms 5)
      [.trap 0 (.hart 0) .timer, .trap 1 (.hart 1) .timer, .user 1 1] d.base := by
  obtain ⟨t, hrun, _, h1, _⟩ := @rooms_start 5 countUp
  obtain ⟨v, hstep, _⟩ := rooms_count (by decide) hrun h1
  have hall := hrun.append (.cons hstep (.nil v))
  have hcoherent : staleRooms.Coherent := by
    intro h v x hx
    unfold staleRooms at hx
    dsimp only at hx
    by_cases hh : h = 1
    · subst hh
      rw [Function.update_self] at hx
      by_cases hv : v = getVpns 0x40000000
      · subst hv
        rw [Function.update_self] at hx
        rw [← hx]
        exact rooms_denote (Or.inl rfl) _
      · rw [Function.update_of_ne hv] at hx
        cases hx
    · rw [Function.update_of_ne hh] at hx
      cases hx
  have hfirst : ∀ h, staleRooms.base.installed h = staleRooms.base.root 0 := by
    intro h
    show getMmu 0x8000000000000001#64 / PAGE_SIZE = 4096 * (0 + 1) / PAGE_SIZE
    decide
  have hboth := cached_runs (c := staleRooms) (P := countUp)
    (Harts.kinit_leaves (T := 2) (by decide) (by decide)) rooms_walls hfirst hcoherent
  obtain ⟨d, hd, _⟩ := hboth.2 _ _ hall
  exact ⟨d, hd, (hboth.1 _ d hd).1⟩

end IloPali
