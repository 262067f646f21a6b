import IloPali.Pages
import IloPali.Lib.Transition
import Mathlib.Data.List.Perm.Basic

/-!
# Ownership of pages

The purpose of the page allocator, stated without its table: it keeps a list of
live ranges, hands out ranges that are disjoint from all of them and cleared,
and takes ranges back.  This module runs `alloc_pages` and `dealloc_pages` in
any order, beside that list, and proves that the refcount table always protects
the live ranges.

The MMU may be switched on (or off) between calls; a range may be returned by
its physical address or by its address in the direct map.
-/

namespace IloPali

open ByteMemory Transition

/-! ## 1. Runs of the allocator -/

/-- `count` pages from the physical address `page`. -/
structure PageRange where
  page : Nat
  count : Nat
deriving DecidableEq

/-- The byte at address `x` belongs to the range. -/
def PageRange.Has (r : PageRange) (x : Nat) : Prop :=
  r.page ≤ x ∧ x < r.page + PAGE_SIZE * r.count

instance (r : PageRange) (x : Nat) : Decidable (r.Has x) := by
  unfold PageRange.Has; infer_instance

/-- Two ranges with no byte in common. -/
def PageRange.Apart (r r' : PageRange) : Prop := ∀ x, ¬ (r.Has x ∧ r'.Has x)

/-- The machine, and the ranges handed out and not yet taken back. -/
structure PageState where
  kernel : Kernel
  live : List PageRange

inductive PageOp where
  | alloc (count : Nat)
  | dealloc (r : PageRange) (page : Nat)
  | csrwSatp (w : Word)

/-- One call.  A deallocation names a live range `r` by its physical address or
    by the address `phys2safe` gives for it. -/
inductive PageStep (L : Layout) : PageState → PageOp → PageState → Prop
  | alloc {s : PageState} {count page : Nat} {k : Kernel} (h1 : 1 ≤ count)
      (hN : count ≤ L.entryCount) (hcall : allocPages L count s.kernel = (page, k)) :
      PageStep L s (.alloc count) ⟨k, if page = 0 then s.live else ⟨page, count⟩ :: s.live⟩
  | dealloc {s : PageState} {r : PageRange} {page : Nat} (hr : r ∈ s.live)
      (hpage : page = r.page ∨ page = phys2safe s.kernel.mmu r.page) :
      PageStep L s (.dealloc r page)
        ⟨deallocPages L page r.count s.kernel, s.live.erase r⟩
  | csrwSatp {s : PageState} (w : Word) :
      PageStep L s (.csrwSatp w) ⟨{ s.kernel with satp := w }, s.live⟩

/-! ## 2. What ownership means -/

/-- The range is the pages of the entries `i, …, i + r.count - 1`. -/
def PageRange.At (L : Layout) (r : PageRange) (i : Nat) : Prop :=
  r.page = L.pageAddr i ∧ 1 ≤ r.count ∧ i + r.count ≤ L.entryCount

/-- Every page of the range has a nonzero refcount. -/
def PageRange.Counted (L : Layout) (k : Kernel) (r : PageRange) : Prop :=
  ∀ i, r.At L i → ∀ j, i ≤ j → j < i + r.count → rc L k j ≠ 0

/-- **Ownership.**  Live ranges are disjoint, inside the counted pages, and
    protected by their refcounts. -/
structure Owned (L : Layout) (s : PageState) : Prop where
  apart : s.live.Pairwise PageRange.Apart
  inside : ∀ r ∈ s.live, ∃ i, r.At L i
  counted : ∀ r ∈ s.live, r.Counted L s.kernel

theorem PageRange.At.has_iff {L : Layout} {r : PageRange} {i : Nat} (h : r.At L i) (x : Nat) :
    r.Has x ↔ InPages L i r.count x := by
  rw [PageRange.Has, InPages, h.1]
  simp only [pageAddr_eq, PAGE_SIZE]
  omega

theorem PageRange.At.unique {L : Layout} {r : PageRange} {i j : Nat} (hi : r.At L i)
    (hj : r.At L j) : i = j :=
  pageAddr_inj.mp (hi.1.symm.trans hj.1)

/-- A byte of a range is in no refcount entry. -/
theorem PageRange.At.not_inTable {L : Layout} {r : PageRange} {i x : Nat} (h : r.At L i)
    (hx : r.Has x) : ¬ InTable L x := by
  intro ht
  have hlow := ((h.has_iff x).mp hx).1
  rw [pageAddr_eq] at hlow
  have hhigh := ht.2
  omega

theorem PageRange.apart_symm {r r' : PageRange} (h : r.Apart r') : r'.Apart r :=
  fun x hx => h x hx.symm

/-- Ranges at entry intervals that do not meet have no byte in common. -/
theorem PageRange.apart_of_index {L : Layout} {r r' : PageRange} {i i' : Nat}
    (hi : r.At L i) (hi' : r'.At L i') (h : i + r.count ≤ i' ∨ i' + r'.count ≤ i) :
    r.Apart r' := by
  rintro x ⟨hx, hx'⟩
  rw [hi.has_iff] at hx
  rw [hi'.has_iff] at hx'
  simp only [InPages, pageAddr_eq] at hx hx'
  omega

theorem PageRange.index_of_apart {L : Layout} {r r' : PageRange} {i i' : Nat}
    (hi : r.At L i) (hi' : r'.At L i') (h : r.Apart r') :
    i + r.count ≤ i' ∨ i' + r'.count ≤ i := by
  by_contra hcon
  -- the first page of the later range lies in both
  have hpos := hi.2.1
  have hpos' := hi'.2.1
  apply h (L.pageAddr (max i i'))
  rw [hi.has_iff, hi'.has_iff]
  simp only [InPages, pageAddr_eq]
  omega

/-! ## 3. One step -/

/-- Pages just taken were free, so they meet no live range. -/
theorem Owned.apart_grabbed {L : Layout} {s : PageState} (hs : Owned L s) {i count : Nat}
    (hc : 1 ≤ count) {k' : Kernel} (hg : Grabbed L i count s.kernel k') {r : PageRange} (hr : r ∈ s.live)
    {i' : Nat} (hi' : r.At L i') : i' + r.count ≤ i ∨ i + count ≤ i' := by
  by_contra hcon
  have hpos := hi'.2.1
  have hcnt := hs.counted r hr i' hi' (max i i') (by omega) (by omega)
  exact hcnt (hg.free (max i i') (by omega) (by omega))

theorem alloc_keeps {L : Layout} {s : PageState} (hs : Owned L s) {i count : Nat}
    (hc : 1 ≤ count) {k' : Kernel} (hg : Grabbed L i count s.kernel k') {r : PageRange} (hr : r ∈ s.live) :
    (∀ i', r.At L i' → ∀ j, i' ≤ j → j < i' + r.count → rc L k' j = rc L s.kernel j) ∧
    ∀ x, r.Has x → k'.mem x = s.kernel.mem x := by
  constructor
  · intro i' hi' j h1 h2
    have hsep := hs.apart_grabbed hc hg hr hi'
    have hbound := hi'.2.2
    rw [hg.rc_eq j (by omega), if_neg (by omega)]
  · intro x hx
    obtain ⟨i', hi'⟩ := hs.inside r hr
    have hsep := hs.apart_grabbed hc hg hr hi'
    refine hg.frame x (hi'.not_inTable hx) ?_
    rw [hi'.has_iff] at hx
    simp only [InPages, pageAddr_eq] at hx ⊢
    omega

theorem dealloc_keeps {L : Layout} {s : PageState} (hs : Owned L s)
    {r r' : PageRange} {i : Nat} (hi : r.At L i) {k' : Kernel}
    (hrel : Released L i r.count s.kernel k') (hr' : r' ∈ s.live) (happ : r.Apart r') :
    (∀ i', r'.At L i' → ∀ j, i' ≤ j → j < i' + r'.count → rc L k' j = rc L s.kernel j) ∧
    ∀ x, r'.Has x → k'.mem x = s.kernel.mem x := by
  constructor
  · intro i' hi' j h1 h2
    have hsep := PageRange.index_of_apart hi hi' happ
    have hbound := hi'.2.2
    rw [hrel.rc_eq j (by omega), if_neg (by omega)]
  · intro x hx
    obtain ⟨i', hi'⟩ := hs.inside r' hr'
    exact hrel.frame x (hi'.not_inTable hx)

theorem PageRange.Counted.transfer {L : Layout} {k k' : Kernel} {r : PageRange}
    (h : r.Counted L k)
    (heq : ∀ i, r.At L i → ∀ j, i ≤ j → j < i + r.count → rc L k' j = rc L k j) :
    r.Counted L k' := by
  intro i hi j h1 h2
  rw [heq i hi j h1 h2]
  exact h i hi j h1 h2

/-- Taking a live range off the list leaves ranges that are apart from it. -/
theorem Owned.apart_of_mem_erase {L : Layout} {s : PageState} (hs : Owned L s)
    {r r' : PageRange} (hr : r ∈ s.live) (hr' : r' ∈ s.live.erase r) : r.Apart r' := by
  have hperm := List.perm_cons_erase hr
  have hpair := (hperm.pairwise_iff fun h => PageRange.apart_symm h).mp hs.apart
  exact (List.pairwise_cons.mp hpair).1 r' hr'

theorem NamesPage.of_range {L : Layout} {mmu : Bool} (hR : L.Reachable mmu) {r : PageRange}
    {i page : Nat} (hi : r.At L i) (h : page = r.page ∨ page = phys2safe mmu r.page) :
    NamesPage L mmu page i := by
  obtain ⟨haddr, hpos, hbound⟩ := hi
  rw [haddr] at h
  rcases h with h | h
  · exact Or.inl h
  · exact Or.inr ⟨h, hR.pageAddr (by omega)⟩

/-- The allocated range of a successful call. -/
theorem Grabbed.at {L : Layout} {i count : Nat} {k k' : Kernel} (hg : Grabbed L i count k k')
    (hc : 1 ≤ count) : (PageRange.mk (L.pageAddr i) count).At L i := by
  have := hg.bound
  exact ⟨rfl, hc, by simp only; omega⟩

theorem room_of_count {L : Layout} (hL : L.WellFormed) {count : Nat} (hN : count ≤ L.entryCount) :
    2 * count ≤ L.heapBottom := by
  obtain ⟨hpos, hb, _⟩ := hL.bounds
  omega

/-- Every step keeps ownership, where the heap can be reached. -/
theorem Owned.step {L : Layout} (hL : L.WellFormed) {s t : PageState} {op : PageOp}
    (hs : Owned L s) (hR : L.Reachable s.kernel.mmu) (h : PageStep L s op t) : Owned L t := by
  cases h with
  | @alloc count page k h1 hN hcall =>
    have hspec := allocPages_spec hL hR h1 (room_of_count hL hN)
    rw [hcall] at hspec
    rcases hspec with ⟨_, hfail⟩ | ⟨i, hpage, hg⟩
    · -- nothing was taken
      obtain ⟨rfl, rfl⟩ := Prod.mk.inj hfail
      refine ⟨hs.apart, hs.inside, fun r hr => ?_⟩
      exact (hs.counted r hr).transfer fun _ _ _ _ _ => rfl
    · dsimp only at hpage hg
      subst hpage
      rw [if_neg (pageAddr_ne_zero hL i)]
      have hat := hg.at h1
      refine ⟨List.pairwise_cons.mpr ⟨fun r hr => ?_, hs.apart⟩, fun r hr => ?_, fun r hr => ?_⟩
      · obtain ⟨i', hi'⟩ := hs.inside r hr
        have hsep := hs.apart_grabbed h1 hg hr hi'
        exact PageRange.apart_of_index hat hi' hsep.symm
      · rcases List.mem_cons.mp hr with rfl | hr
        · exact ⟨i, hat⟩
        · exact hs.inside r hr
      · rcases List.mem_cons.mp hr with rfl | hr
        · intro i' hi' j h1' h2'
          have hii : i = i' := hat.unique hi'
          subst hii
          rw [hg.rc_eq j (by have := hg.bound; simp only at h2'; omega), if_pos ⟨h1', h2'⟩]
          decide
        · exact (hs.counted r hr).transfer (alloc_keeps hs h1 hg hr).1
  | @dealloc r page hr hpage =>
    obtain ⟨i, hi⟩ := hs.inside r hr
    have hlt : i < L.entryCount := by have h1 := hi.2.1; have h2 := hi.2.2; omega
    have hrel := deallocPages_spec hL hlt hi.2.2 (.of_range hR hi hpage)
    refine ⟨hs.apart.sublist List.erase_sublist,
      fun r' hr' => hs.inside r' (List.mem_of_mem_erase hr'), fun r' hr' => ?_⟩
    have hmem := List.mem_of_mem_erase hr'
    exact (hs.counted r' hmem).transfer
      (dealloc_keeps hs hi hrel hmem (hs.apart_of_mem_erase hr hr')).1
  | csrwSatp w =>
    exact ⟨hs.apart, hs.inside, fun r hr => (hs.counted r hr).transfer fun _ _ _ _ _ => rfl⟩

/-- The state before any call of the allocator. -/
abbrev PageState.initial (k : Kernel) : PageState := ⟨k, []⟩

theorem Owned.initial (L : Layout) (k : Kernel) : Owned L (.initial k) :=
  ⟨List.Pairwise.nil, fun _ hr => (nomatch hr), fun _ hr => (nomatch hr)⟩

theorem PageStep.alloc_of_page {L : Layout} {s : PageState} {count page : Nat} {k : Kernel}
    (h1 : 1 ≤ count) (hN : count ≤ L.entryCount) (h0 : page ≠ 0)
    (hcall : allocPages L count s.kernel = (page, k)) :
    PageStep L s (.alloc count) ⟨k, ⟨page, count⟩ :: s.live⟩ := by
  have h := PageStep.alloc (s := s) h1 hN hcall
  rwa [if_neg h0] at h

end IloPali
