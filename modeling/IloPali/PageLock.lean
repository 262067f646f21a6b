import IloPali.PageOwnership
import IloPali.SpinLock

/-!
# The page allocator on several harts

`alloc_pages` and `dealloc_pages` hold the lock `mutating_heap` from their first access to the refcount
table to their last.  Here they are programs of single accesses, which several harts run at once.  The
ranges that the harts hold are then disjoint at every moment, whatever the interleaving is.
-/

namespace IloPali

open ByteMemory Transition CriticalSection

/-! ## 1. The code, access by access -/

/-- The inner scan of `alloc_pages`. -/
def entriesFreeAccesses : Nat → Nat → Prog Kernel Bool
  | 0, _ => .ret true
  | n + 1, q => .read (·.load 2 q) fun v =>
    if v ≠ 0 then .ret false else entriesFreeAccesses n (q + 2)

/-- The outer scan of `alloc_pages`. -/
def scanAccesses (count : Nat) : Nat → Nat → Prog Kernel (Option Nat)
  | 0, _ => .ret none
  | n + 1, p => .read (·.load 2 p) fun v =>
    if v = 0 then (entriesFreeAccesses (count - 1) (p + 2)).bind fun enough =>
      if enough = true then .ret (some p) else scanAccesses count n (p + 2)
    else scanAccesses count n (p + 2)

/-- `*q = 1` for the `n` entries from `q`. -/
def markAccesses : Nat → Nat → Prog Kernel Unit
  | 0, _ => .ret ()
  | n + 1, q => .write (·.store 2 q 1) (markAccesses n (q + 2))

/-- `alloc_pages` under its lock.  The pages are cleared in one step: they have just been taken, and
    nobody else has a pointer to them. -/
def allocPagesAccesses (L : Layout) (count : Nat) : Prog Kernel Nat :=
  (scanAccesses count (scanSteps L count) L.pagesBottom).bind fun found =>
    match found with
    | none => .write Kernel.fail (.ret 0)
    | some p => (markAccesses count p).bind fun _ => .read Kernel.mmu fun mmu =>
        let page := phys2safe mmu (L.pageAddr ((p - L.pagesBottom) / 2))
        .write (clearPages page count) (.read Kernel.mmu fun mmu => .ret (safe2phys mmu page))

/-- The loop of `dealloc_pages`; `*rc -= 1` reads the entry once more. -/
def decrAccesses : Nat → Nat → Prog Kernel Unit
  | 0, _ => .ret ()
  | n + 1, rc => .read (·.load 2 rc) fun v =>
    if v ≠ 0 then .read (·.load 2 rc) fun w => .write (·.store 2 rc (w - 1)) (decrAccesses n (rc + 2))
    else decrAccesses n (rc + 2)

/-- `dealloc_pages` under its lock. -/
def deallocPagesAccesses (L : Layout) (page count : Nat) : Prog Kernel Nat :=
  .read Kernel.mmu fun mmu =>
    let rc := pageRefCount L (safe2phys mmu page)
    if rc = 0 then .ret 0 else (decrAccesses count rc).bind fun _ => .ret 0

theorem entriesFreeAccesses_run (n q : Nat) (k : Kernel) :
    (entriesFreeAccesses n q).run k = (entriesFree k n q, k) := by
  induction n generalizing q with
  | zero => rfl
  | succ n ih =>
    rw [entriesFreeAccesses, Prog.run_read, entriesFree]
    split
    · rfl
    · exact ih (q + 2)

theorem scanAccesses_run (count n p : Nat) (k : Kernel) :
    (scanAccesses count n p).run k = (scanEntries k count n p, k) := by
  induction n generalizing p with
  | zero => rfl
  | succ n ih =>
    rw [scanAccesses, Prog.run_read, scanEntries]
    by_cases hzero : k.load 2 p = 0
    · rw [if_pos hzero, Prog.run_bind, entriesFreeAccesses_run]
      by_cases henough : entriesFree k (count - 1) (p + 2) = true
      · simp [hzero, henough]
      · simp [hzero, henough, ih]
    · simp [hzero, ih]

theorem markAccesses_run (n q : Nat) (k : Kernel) :
    (markAccesses n q).run k = ((), markEntries n q k) := by
  induction n generalizing q k with
  | zero => rfl
  | succ n ih => exact ih (q + 2) (k.store 2 q 1)

theorem decrAccesses_run (n rc : Nat) (k : Kernel) :
    (decrAccesses n rc).run k = ((), decrEntries n rc k) := by
  induction n generalizing rc k with
  | zero => rfl
  | succ n ih =>
    rw [decrAccesses, Prog.run_read, decrEntries]
    split
    · exact ih (rc + 2) _
    · exact ih (rc + 2) k

/-- Without interference the accesses are the function. -/
theorem allocPagesAccesses_run (L : Layout) (count : Nat) (k : Kernel) :
    (allocPagesAccesses L count).run k = allocPages L count k := by
  rw [allocPagesAccesses, Prog.run_bind, scanAccesses_run, allocPages]
  cases scanEntries k count (scanSteps L count) L.pagesBottom with
  | none => rfl
  | some p =>
    simp only [Prog.run_bind, markAccesses_run, Prog.run_read, Prog.run_write, Prog.run_ret]
    rw [Kernel.mmu, clearPages_satp, ← Kernel.mmu]

theorem deallocPagesAccesses_run (L : Layout) (page count : Nat) (k : Kernel) :
    (deallocPagesAccesses L page count).run k = (0, deallocPages L page count k) := by
  rw [deallocPagesAccesses, Prog.run_read, deallocPages]
  dsimp only
  split
  · rfl
  · rw [Prog.run_bind, decrAccesses_run]
    rfl

/-! ## 2. Harts that hold ranges -/

/-- A call of a hart; a range is given back by its physical address or by its address in the direct
    map. -/
inductive PageCall
  | alloc (count : Nat)
  | dealloc (r : PageRange) (page : Nat)
deriving DecidableEq

def pageWork (L : Layout) : PageCall → Prog Kernel Nat
  | .alloc count => allocPagesAccesses L count
  | .dealloc r page => deallocPagesAccesses L page r.count

/-- The harts, the ranges that each holds, and those that are on their way back. -/
structure PageHarts where
  spin : Spin Kernel PageCall Nat
  owned : List (Nat × PageRange)
  returning : List (Nat × PageRange)

/-- One instruction of a hart.  A hart gives back what it holds, and nothing else.  No call switches the
    MMU on or off. -/
inductive PageHartStep (L : Layout) (mmu : Bool) : PageHarts → SpinEvent PageCall Nat → PageHarts → Prop
  | alloc {s : PageHarts} {h count : Nat} {t : Spin Kernel PageCall Nat} (h1 : 1 ≤ count)
      (hN : count ≤ L.entryCount)
      (hstep : SpinStep (pageWork L) s.spin (.call h (.alloc count)) t) :
      PageHartStep L mmu s (.call h (.alloc count)) { s with spin := t }
  | dealloc {s : PageHarts} {h page : Nat} {r : PageRange} {t : Spin Kernel PageCall Nat}
      (hr : (h, r) ∈ s.owned) (hpage : page = r.page ∨ page = phys2safe mmu r.page)
      (hstep : SpinStep (pageWork L) s.spin (.call h (.dealloc r page)) t) :
      PageHartStep L mmu s (.call h (.dealloc r page))
        ⟨t, s.owned.erase (h, r), (h, r) :: s.returning⟩
  | allocated {s : PageHarts} {h count page : Nat} {t : Spin Kernel PageCall Nat}
      (hstep : SpinStep (pageWork L) s.spin (.unlock h (.alloc count) page) t) :
      PageHartStep L mmu s (.unlock h (.alloc count) page)
        { s with
          spin := t
          owned := if page = 0 then s.owned else (h, ⟨page, count⟩) :: s.owned }
  | deallocated {s : PageHarts} {h page ret : Nat} {r : PageRange} {t : Spin Kernel PageCall Nat}
      (hstep : SpinStep (pageWork L) s.spin (.unlock h (.dealloc r page) ret) t) :
      PageHartStep L mmu s (.unlock h (.dealloc r page) ret)
        { s with spin := t, returning := s.returning.erase (h, r) }
  | inner {s : PageHarts} {e : SpinEvent PageCall Nat} {t : Spin Kernel PageCall Nat}
      (hcall : ∀ h c, e ≠ .call h c) (hunlock : ∀ h c r, e ≠ .unlock h c r)
      (hstep : SpinStep (pageWork L) s.spin e t) : PageHartStep L mmu s e { s with spin := t }

/-- No hart holds a range or is in a call. -/
structure PageHarts.Initial (s : PageHarts) : Prop where
  spin : s.spin.Initial
  owned : s.owned = []
  returning : s.returning = []

/-- The ranges that are not free for others. -/
def PageHarts.live (s : PageHarts) : List PageRange := (s.owned ++ s.returning).map Prod.snd

/-! ## 3. The history -/

/-- What a call that has returned does to the live ranges. -/
def PageCall.after (c : PageCall) (ret : Nat) (live : List PageRange) : List PageRange :=
  match c with
  | .alloc count => if ret = 0 then live else ⟨ret, count⟩ :: live
  | .dealloc r _ => live.erase r

/-- The calls were allowed, one after the other, and leave the ranges `live`. -/
inductive Legal (L : Layout) (mmu : Bool) : List (Nat × PageCall × Nat) → List PageRange → Prop
  | nil : Legal L mmu [] []
  | alloc {es : List (Nat × PageCall × Nat)} {live : List PageRange} {h count ret : Nat}
      (hes : Legal L mmu es live) (h1 : 1 ≤ count) (hN : count ≤ L.entryCount) :
      Legal L mmu (es ++ [(h, .alloc count, ret)]) ((PageCall.alloc count).after ret live)
  | dealloc {es : List (Nat × PageCall × Nat)} {live : List PageRange} {h page ret : Nat}
      {r : PageRange} (hes : Legal L mmu es live) (hr : r ∈ live)
      (hpage : page = r.page ∨ page = phys2safe mmu r.page) :
      Legal L mmu (es ++ [(h, .dealloc r page, ret)]) ((PageCall.dealloc r page).after ret live)

theorem pageWork_mmu {L : Layout} {c : PageCall} {ret : Nat} {k k' : Kernel}
    (h : (pageWork L c).run k = (ret, k')) : k'.mmu = k.mmu := by
  have hlast := congrArg Prod.snd h
  cases c with
  | alloc count =>
    simp only [pageWork, allocPagesAccesses_run] at hlast
    rw [← hlast, Kernel.mmu, allocPages_satp, Kernel.mmu]
  | dealloc r page =>
    simp only [pageWork, deallocPagesAccesses_run] at hlast
    rw [← hlast, Kernel.mmu, deallocPages_satp, Kernel.mmu]

/-- **The history is a run of the allocator**, which protects the live ranges. -/
theorem Legal.owned {L : Layout} (hL : L.WellFormed) {k : Kernel} (hR : L.Reachable k.mmu)
    {es : List (Nat × PageCall × Nat)} {live : List PageRange} (hlegal : Legal L k.mmu es live)
    {base : Kernel} (hrun : Run (Atomic (pageWork L)) k es base) :
    base.mmu = k.mmu ∧ Owned L ⟨base, live⟩ := by
  induction hlegal generalizing base with
  | nil =>
    cases hrun
    exact ⟨rfl, .initial L k⟩
  | @alloc es live h count ret hes h1 hN ih =>
    obtain ⟨mid, hmid, hlast⟩ := hrun.split
    obtain ⟨hmmu, howned⟩ := ih hmid
    cases hlast with
    | cons hcall hnil =>
      cases hnil
      refine ⟨(pageWork_mmu hcall).trans hmmu, ?_⟩
      rw [Atomic, pageWork, allocPagesAccesses_run] at hcall
      exact howned.step hL (hmmu ▸ hR) (.alloc h1 hN hcall)
  | @dealloc es live h page ret r hes hr hpage ih =>
    obtain ⟨mid, hmid, hlast⟩ := hrun.split
    obtain ⟨hmmu, howned⟩ := ih hmid
    cases hlast with
    | cons hcall hnil =>
      cases hnil
      refine ⟨(pageWork_mmu hcall).trans hmmu, ?_⟩
      rw [Atomic, pageWork, deallocPagesAccesses_run] at hcall
      have hstep : PageStep L ⟨mid, live⟩ (.dealloc r page) _ := .dealloc hr (by rw [hmmu]; exact hpage)
      have hnext := howned.step hL (hmmu ▸ hR) hstep
      rwa [(Prod.mk.inj hcall).2] at hnext

/-! ## 4. The ledger -/

/-- The call a hart is in. -/
def SpinPhase.pending {σ κ ρ : Type} : SpinPhase σ κ ρ → Option κ
  | .outside => none
  | .exchange c _ => some c
  | .body c _ => some c
  | .inside c _ => some c

/-- A call that may be under way. -/
def PageCall.Fits (L : Layout) (mmu : Bool) (returning : List (Nat × PageRange)) (h : Nat) :
    PageCall → Prop
  | .alloc count => 1 ≤ count ∧ count ≤ L.entryCount
  | .dealloc r page => (h, r) ∈ returning ∧ (page = r.page ∨ page = phys2safe mmu r.page)

/-- **The ledger.**  The calls that have returned were allowed, and leave the ranges that the harts hold
    or are giving back. -/
structure PageHarts.Ledger (L : Layout) (mmu : Bool) (s : PageHarts) : Prop where
  history : ∃ live, Legal L mmu s.spin.done live ∧ s.live.Perm live
  calls : ∀ h c, (s.spin.harts h).pending = some c → c.Fits L mmu s.returning h

variable {L : Layout} {mmu : Bool} {s t : PageHarts}

theorem PageHarts.Initial.ledger (h0 : s.Initial) : s.Ledger L mmu := by
  constructor
  · refine ⟨[], ?_, ?_⟩
    · rw [h0.spin.done]
      exact .nil
    · rw [PageHarts.live, h0.owned, h0.returning]
      exact List.Perm.refl _
  · intro h c hc
    rw [h0.spin.outside h] at hc
    exact nomatch hc

/-- Between a call and its end the history and the calls under way stay the same. -/
theorem SpinStep.inner {work : PageCall → Prog Kernel Nat} {s t : Spin Kernel PageCall Nat}
    {e : SpinEvent PageCall Nat} (hstep : SpinStep work s e t) (hcall : ∀ h c, e ≠ .call h c)
    (hunlock : ∀ h c r, e ≠ .unlock h c r) :
    t.done = s.done ∧ ∀ h, (t.harts h).pending = (s.harts h).pending := by
  have hupdate : ∀ (h : Nat) (p : SpinPhase Kernel PageCall Nat), p.pending = (s.harts h).pending →
      ∀ h', (Function.update s.harts h p h').pending = (s.harts h').pending := by
    intro h p hp h'
    by_cases hh : h' = h
    · subst hh
      rw [Function.update_self, hp]
    · rw [Function.update_of_ne hh]
  cases hstep with
  | call c _ => exact absurd rfl (hcall _ c)
  | exchanged hat _ =>
    refine ⟨rfl, hupdate _ _ ?_⟩
    rw [hat]
    rfl
  | failed hat =>
    refine ⟨rfl, hupdate _ _ ?_⟩
    rw [hat]
    rfl
  | reset hat =>
    refine ⟨rfl, hupdate _ _ ?_⟩
    rw [hat]
    rfl
  | act hin =>
    refine ⟨rfl, hupdate _ _ ?_⟩
    rw [hin]
    rfl
  | unlock _ => exact absurd rfl (hunlock _ _ _)

/-- **Each instruction** keeps the ledger. -/
theorem PageHarts.Ledger.step (hs : s.Ledger L mmu) {e : SpinEvent PageCall Nat}
    (hstep : PageHartStep L mmu s e t) : t.Ledger L mmu := by
  obtain ⟨live, hlegal, hlive⟩ := hs.history
  have hothers : ∀ (h : Nat) (p : SpinPhase Kernel PageCall Nat) (back : List (Nat × PageRange)),
      (∀ c, p.pending = some c → c.Fits L mmu back h) →
      (∀ h' (c : PageCall), h' ≠ h → c.Fits L mmu s.returning h' → c.Fits L mmu back h') →
      ∀ h' c, (Function.update s.spin.harts h p h').pending = some c →
        c.Fits L mmu back h' := by
    intro h p back hp hkeep h' c hc
    by_cases hh : h' = h
    · subst hh
      rw [Function.update_self] at hc
      exact hp c hc
    · rw [Function.update_of_ne hh] at hc
      exact hkeep h' c hh (hs.calls h' c hc)
  cases hstep with
  | @alloc h count _ h1 hN hstep =>
    cases hstep
    refine ⟨⟨live, hlegal, hlive⟩, hothers h _ _ (fun c hc => ?_) fun _ _ _ hfits => hfits⟩
    obtain rfl := Option.some.inj hc
    exact ⟨h1, hN⟩
  | @dealloc h page r _ hr hpage hstep =>
    cases hstep
    constructor
    · refine ⟨live, hlegal, List.Perm.trans ?_ hlive⟩
      rw [PageHarts.live, PageHarts.live]
      apply List.Perm.map
      have hmove : (s.owned.erase (h, r) ++ (h, r) :: s.returning).Perm _ := List.perm_middle
      exact hmove.trans ((List.perm_cons_erase hr).symm.append_right s.returning)
    · refine hothers h _ _ (fun c hc => ?_) fun h' c _ hfits => ?_
      · obtain rfl := Option.some.inj hc
        exact ⟨List.mem_cons_self, hpage⟩
      · cases c with
        | alloc count => exact hfits
        | dealloc r' page' => exact ⟨List.mem_cons_of_mem _ hfits.1, hfits.2⟩
  | @allocated h count page _ hstep =>
    cases hstep with
    | unlock hin =>
      obtain ⟨h1, hN⟩ := hs.calls h (.alloc count) (by rw [hin]; rfl)
      refine ⟨⟨_, hlegal.alloc h1 hN, ?_⟩,
        hothers h _ _ (fun c hc => nomatch hc) fun _ _ _ hfits => hfits⟩
      rw [PageHarts.live] at hlive
      rw [PageCall.after, PageHarts.live]
      by_cases hzero : page = 0
      · simpa [hzero] using hlive
      · simpa [hzero] using hlive
  | @deallocated h page ret r _ hstep =>
    cases hstep with
    | unlock hin =>
      obtain ⟨hback, hpage⟩ := hs.calls h (.dealloc r page) (by rw [hin]; rfl)
      have hmem : r ∈ live := by
        apply hlive.mem_iff.mp
        rw [PageHarts.live, List.map_append, List.mem_append]
        exact Or.inr (List.mem_map_of_mem hback)
      refine ⟨⟨_, hlegal.dealloc hmem hpage, ?_⟩, hothers h _ _ (fun c hc => nomatch hc) ?_⟩
      · have hsplit : s.live.Perm (r :: (s.owned ++ s.returning.erase (h, r)).map Prod.snd) := by
          have hmove := ((List.perm_cons_erase hback).append_left s.owned).trans List.perm_middle
          exact hmove.map Prod.snd
        have herase := (hlive.symm.trans hsplit).erase r
        rw [List.erase_cons_head] at herase
        exact herase.symm
      · intro h' c hh hfits
        cases c with
        | alloc count => exact hfits
        | dealloc r' page' =>
          refine ⟨(List.mem_erase_of_ne ?_).mpr hfits.1, hfits.2⟩
          rintro ⟨⟩
          exact hh rfl
  | inner hcall hunlock hstep =>
    obtain ⟨hdone, hpending⟩ := hstep.inner hcall hunlock
    constructor
    · exact ⟨live, by rw [hdone]; exact hlegal, hlive⟩
    · intro h c hc
      rw [hpending h] at hc
      exact hs.calls h c hc

/-! ## 5. Every interleaving -/

/-- The instructions of the harts, without the ranges. -/
theorem PageHartStep.spin {e : SpinEvent PageCall Nat} (hstep : PageHartStep L mmu s e t) :
    SpinStep (pageWork L) s.spin e t.spin := by
  cases hstep with
  | alloc _ _ hstep => exact hstep
  | dealloc _ _ hstep => exact hstep
  | allocated hstep => exact hstep
  | deallocated hstep => exact hstep
  | inner _ _ hstep => exact hstep

/-- **No page has two holders.**  Any number of harts call `alloc_pages` and `dealloc_pages`, and their
    accesses to the refcount table interleave in any way.  At every moment the ranges that the harts
    hold or are giving back are disjoint and inside the counted pages, and whenever nobody is in a call
    the table protects them. -/
theorem harts_hold_apart (L : Layout) (hL : L.WellFormed) (s : PageHarts) (h0 : s.Initial)
    (hR : L.Reachable s.spin.shared.mmu) (es : List (SpinEvent PageCall Nat)) (t : PageHarts)
    (hrun : Run (PageHartStep L s.spin.shared.mmu) s es t) :
    t.live.Pairwise PageRange.Apart ∧ (∀ r ∈ t.live, ∃ i, r.At L i) ∧
      (t.spin.lock = false → Owned L ⟨t.spin.shared, t.live⟩) := by
  have hledger : t.Ledger L s.spin.shared.mmu :=
    hrun.invariant (fun _ _ _ hs hstep => hs.step hstep) h0.ledger
  obtain ⟨live, hlegal, hlive⟩ := hledger.history
  have hspin : Run (SpinStep (pageWork L)) s.spin es t.spin := by
    obtain ⟨spin, hspin, rfl⟩ := hrun.simulates (R := fun s spin => spin = s.spin)
      (fun s e t spin heq hstep => ⟨t.spin, heq ▸ hstep.spin, rfl⟩) _ rfl
    exact hspin
  obtain ⟨a, hr, hi⟩ := Spin.reached h0.spin hspin
  obtain ⟨base, hbase, hfree, _⟩ := hi.serial
  rw [← hr.done] at hbase
  obtain ⟨_, howned⟩ := hlegal.owned hL hR hbase
  have hpair : t.live.Pairwise PageRange.Apart :=
    (hlive.pairwise_iff fun h => PageRange.apart_symm h).mpr howned.apart
  refine ⟨hpair, fun r hr => howned.inside r (hlive.mem_iff.mp hr), fun hlock => ?_⟩
  have hshared : t.spin.shared = base := by
    rw [hr.shared]
    apply hfree
    rw [hr.lock] at hlock
    exact Option.isNone_iff_eq_none.mp (Option.isSome_eq_false_iff.mp hlock)
  rw [hshared]
  exact ⟨hpair, fun r hr => howned.inside r (hlive.mem_iff.mp hr),
    fun r hr => howned.counted r (hlive.mem_iff.mp hr)⟩

/-- Two harts on an empty heap that ask for a page each. -/
def PageHarts.twoCalls : PageHarts where
  spin := ⟨false, .blank, fun _ => .outside, []⟩
  owned := []
  returning := []

/-- The first is about to scan, and the exchange of the second has just failed. -/
def PageHarts.contended : PageHarts where
  spin :=
    { lock := true
      shared := .blank
      harts := Function.update (Function.update (Function.update (Function.update
        (fun _ => .outside) 0 (.exchange (.alloc 1) false)) 1 (.exchange (.alloc 1) false))
        0 (.inside (.alloc 1) (pageWork .small (.alloc 1)))) 1 (.body (.alloc 1) true)
      done := [] }
  owned := []
  returning := []

theorem PageHarts.twoCalls_run : Run (PageHartStep .small false) .twoCalls
    [.call 0 (.alloc 1), .call 1 (.alloc 1), .exchanged 0, .failed 1] .contended := by
  refine .cons (PageHartStep.alloc (by decide) (by decide) (SpinStep.call _ rfl)) ?_
  refine .cons (PageHartStep.alloc (by decide) (by decide) (SpinStep.call _ rfl)) ?_
  refine .cons (PageHartStep.inner (by simp) (by simp)
    (SpinStep.exchanged (c := PageCall.alloc 1) rfl rfl)) ?_
  refine .cons (PageHartStep.inner (by simp) (by simp)
    (SpinStep.failed (c := PageCall.alloc 1) rfl)) ?_
  exact .nil _

theorem harts_hold_apart_contended : PageHarts.contended.live.Pairwise PageRange.Apart ∧
    (∀ r ∈ PageHarts.contended.live, ∃ i, r.At .small i) ∧
    (PageHarts.contended.spin.lock = false →
      Owned .small ⟨PageHarts.contended.spin.shared, PageHarts.contended.live⟩) :=
  harts_hold_apart .small Layout.small_wellFormed .twoCalls ⟨⟨rfl, fun _ => rfl, rfl⟩, rfl, rfl⟩
    (fun hon => nomatch hon) _ _ PageHarts.twoCalls_run

end IloPali
