import IloPali.Pages
import IloPali.Lib.Transition
import Mathlib.Data.List.Induction

/-!
# Reference counts (`incr_page_ref_count`)

A page that is shared is counted up once for each new user and counted down once
for each that lets go of it.  The two operations do not read an address the same
way: `dealloc_pages` accepts a page by its physical address and by its address in
the direct map, `incr_page_ref_count` only by the first.
-/

namespace IloPali

open ByteMemory Transition

/-! ## 1. The code -/

/-- The loop of `incr_page_ref_count`. -/
def incrEntries : Nat → Nat → Kernel → Kernel
  | 0, _, k => k
  | n + 1, rc, k =>
    incrEntries n (rc + 2)
      (if k.load 2 rc ≠ 0xffff ∧ k.load 2 rc ≠ 0 then k.store 2 rc (k.load 2 rc + 1) else k)

/-- `incr_page_ref_count`. -/
def incrPageRefCount (L : Layout) (page count : Nat) (k : Kernel) : Kernel :=
  let rc := pageRefCount L page
  if rc = 0 then k else incrEntries count rc k

/-! ## 2. References to one page -/

/-- A call on the page that is watched, or any call of `alloc_pages`. -/
inductive RefOp where
  | incr (page : Nat)
  | dealloc (page : Nat)
  | alloc (count : Nat)

/-- `alloc_pages(count)` returns a run of pages that contains page `i`. -/
def HandsOut (L : Layout) (count : Nat) (k : Kernel) (i : Nat) : Prop :=
  ∃ j, (allocPages L count k).1 = L.pageAddr j ∧ j ≤ i ∧ i < j + count

/-- One call, with page `i` named in either of the two ways. -/
inductive RefStep (L : Layout) (i : Nat) : Kernel → RefOp → Kernel → Prop
  | incr {k : Kernel} {page : Nat} (hname : NamesPage L k.mmu page i) :
      RefStep L i k (.incr page) (incrPageRefCount L page 1 k)
  | dealloc {k : Kernel} {page : Nat} (hname : NamesPage L k.mmu page i) :
      RefStep L i k (.dealloc page) (deallocPages L page 1 k)
  | alloc {k : Kernel} {count : Nat} (h1 : 1 ≤ count) (hN : 2 * count ≤ L.heapBottom) :
      RefStep L i k (.alloc count) (allocPages L count k).2

def incrs : List RefOp → Nat
  | [] => 0
  | .incr _ :: ops => incrs ops + 1
  | _ :: ops => incrs ops

def deallocs : List RefOp → Nat
  | [] => 0
  | .dealloc _ :: ops => deallocs ops + 1
  | _ :: ops => deallocs ops

/-- At some point there has been one more `dealloc_pages` than `incr_page_ref_count`. -/
def AllReleased (ops : List RefOp) : Prop := ∃ pre, pre <+: ops ∧ incrs pre + 1 ≤ deallocs pre

/-- What the code can count: references taken by the physical address of the page, no
    more of them than an entry holds, and pages that the kernel can address. -/
def RefOp.Countable (L : Layout) (i : Nat) (k : Kernel) : RefOp → Prop
  | .incr page => page = L.pageAddr i ∧ rc L k i ≠ 0xffff
  | .dealloc _ => True
  | .alloc _ => L.Reachable k.mmu

theorem incrs_append (ops ops' : List RefOp) : incrs (ops ++ ops') = incrs ops + incrs ops' := by
  induction ops with
  | nil => rw [List.nil_append, incrs, Nat.zero_add]
  | cons op ops ih =>
    cases op with
    | incr page => rw [List.cons_append, incrs, incrs, ih, Nat.add_right_comm]
    | dealloc page => exact ih
    | alloc count => exact ih

theorem deallocs_append (ops ops' : List RefOp) :
    deallocs (ops ++ ops') = deallocs ops + deallocs ops' := by
  induction ops with
  | nil => rw [List.nil_append, deallocs, Nat.zero_add]
  | cons op ops ih =>
    cases op with
    | dealloc page => rw [List.cons_append, deallocs, deallocs, ih, Nat.add_right_comm]
    | incr page => exact ih
    | alloc count => exact ih

/-! ## 3. One step -/

theorem HandsOut.free {L : Layout} (hL : L.WellFormed) {k : Kernel} {count i : Nat}
    (h1 : 1 ≤ count) (hN : 2 * count ≤ L.heapBottom) (h : HandsOut L count k i) :
    rc L k i = 0 := by
  obtain ⟨hpos, hb, hend, _⟩ := hL.bounds
  obtain ⟨j, haddr, hle, hlt⟩ := h
  have hne : L.pageAddr j ≠ 0 := by
    rw [pageAddr_eq]
    omega
  rcases allocPages_scan hL k h1 hN with ⟨_, hfail⟩ | ⟨i', hi', hfree, _, hcall⟩
  · rw [hfail] at haddr
    exact absurd haddr.symm hne
  · rw [hcall] at haddr
    dsimp only at haddr
    have hsame : i' = j := by
      cases hmmu : (markEntries count (L.pagesBottom + 2 * i') k).mmu with
      | false =>
        rw [hmmu, phys2safe_off, safe2phys_off] at haddr
        exact pageAddr_inj.mp haddr
      | true =>
        rw [hmmu] at haddr
        by_cases hp : L.pageAddr i' < DIRECT_MAP_SIZE
        · rw [safe2phys_phys2safe fun _ => hp] at haddr
          exact pageAddr_inj.mp haddr
        · -- the run is past the direct map, so the call returns NULL
          rw [phys2safe_past (Nat.le_of_not_lt hp) (by rw [pageAddr_eq]; omega),
            safe2phys_low true (by rw [KERNEL_SPACE_OFFSET]; omega)] at haddr
          exact absurd haddr.symm hne
    subst hsame
    exact hfree i hle hlt

theorem incrPageRefCount_spec {L : Layout} (hL : L.WellFormed) (k : Kernel) {i : Nat}
    (hi : i < L.entryCount) :
    let k' := incrPageRefCount L (L.pageAddr i) 1 k
    (∀ j, rc L k' j =
      if j = i ∧ i ≠ 0 ∧ rc L k i ≠ 0xffff ∧ rc L k i ≠ 0 then rc L k i + 1 else rc L k j) ∧
    k'.satp = k.satp := by
  obtain ⟨hpos, hb, _⟩ := hL.bounds
  have hlt := rc_lt L k i
  unfold incrPageRefCount
  rw [pageRefCount_pageAddr hL hi]
  by_cases h0 : i = 0
  · rw [if_pos h0]
    dsimp only
    rw [if_pos rfl]
    exact ⟨fun j => by rw [if_neg fun h => h.2.1 h0], rfl⟩
  · rw [if_neg h0]
    dsimp only
    rw [if_neg (by omega), incrEntries, load_entry hL k hi, incrEntries]
    by_cases hcount : rc L k i ≠ 0xffff ∧ rc L k i ≠ 0
    · rw [if_pos hcount]
      obtain ⟨hrc, _⟩ := store_entry hL k hi (rc L k i + 1)
      refine ⟨fun j => ?_, rfl⟩
      rw [hrc j]
      by_cases hj : j = i
      · rw [if_pos hj, if_pos ⟨hj, h0, hcount⟩, Nat.mod_eq_of_lt (by omega)]
      · rw [if_neg hj, if_neg fun h => hj h.1]
    · rw [if_neg hcount]
      exact ⟨fun j => by rw [if_neg fun h => hcount h.2.2], rfl⟩

/-- While it is referenced, page `i` has its references counted; the first page of the
    heap is counted once and for all. -/
structure References (L : Layout) (i : Nat) (refs : Nat) (k : Kernel) : Prop where
  pos : 1 ≤ refs
  counted : i ≠ 0 → rc L k i = refs
  first : i = 0 → rc L k i ≠ 0

theorem References.ne_zero {L : Layout} {i refs : Nat} {k : Kernel} (h : References L i refs k) :
    rc L k i ≠ 0 := by
  by_cases h0 : i = 0
  · exact h.first h0
  · rw [h.counted h0]
    have := h.pos
    omega

theorem References.not_handsOut {L : Layout} (hL : L.WellFormed) {i refs count : Nat} {k : Kernel}
    (h : References L i refs k) (h1 : 1 ≤ count) (hN : 2 * count ≤ L.heapBottom) :
    ¬ HandsOut L count k i := fun hout => h.ne_zero (hout.free hL h1 hN)

/-- What each call does to the count of a referenced page. -/
theorem References.step {L : Layout} (hL : L.WellFormed) {i refs : Nat} {k k' : Kernel}
    (hi : i < L.entryCount) (h : References L i refs k) {op : RefOp}
    (hc : op.Countable L i k) (hstep : RefStep L i k op k')
    (hlive : 1 + deallocs [op] ≤ refs + incrs [op]) :
    References L i (refs + incrs [op] - deallocs [op]) k' := by
  have hpos := h.pos
  cases hstep with
  | incr hname =>
    obtain ⟨rfl, hmax⟩ := hc
    obtain ⟨hrc, _⟩ := incrPageRefCount_spec hL k hi
    simp only [deallocs, incrs] at hlive ⊢
    refine ⟨hlive, fun h0 => ?_, fun h0 => ?_⟩
    · rw [hrc i, if_pos ⟨rfl, h0, hmax, h.ne_zero⟩, h.counted h0]
      rfl
    · rw [hrc i, if_neg fun hn => hn.2.1 h0]
      exact h.first h0
  | dealloc hname =>
    have hrel := @deallocPages_spec L hL k _ i 1 hi (Nat.succ_le_of_lt hi) hname
    simp only [deallocs, incrs] at hlive ⊢
    refine ⟨by omega, fun h0 => ?_, fun h0 => ?_⟩
    · rw [hrel.rc_eq i hi, if_pos ⟨h0, le_refl i, Nat.lt_succ_self i⟩, h.counted h0]
      rfl
    · rw [hrel.rc_eq i hi, if_neg fun hn => hn.1 h0]
      exact h.first h0
  | alloc h1 hN =>
    rename_i count
    have hsame : rc L (allocPages L count k).2 i = rc L k i := by
      rcases allocPages_spec hL hc h1 hN with ⟨_, hfail⟩ | ⟨j, _, hg⟩
      · rw [hfail]
        rfl
      · rw [hg.rc_eq i hi, if_neg]
        rintro ⟨h2, h3⟩
        exact h.ne_zero (hg.free i h2 h3)
    exact ⟨hpos, fun h0 => hsame.trans (h.counted h0), fun h0 => hsame ▸ h.first h0⟩

/-- No call on page `i` changes the count of another page. -/
theorem RefStep.others {L : Layout} (hL : L.WellFormed) {i : Nat} {k k' : Kernel}
    (hi : i < L.entryCount) {op : RefOp} (hc : op.Countable L i k) (hstep : RefStep L i k op k')
    (hop : ∀ count, op ≠ .alloc count) {j : Nat} (hj : j < L.entryCount) (hne : j ≠ i) :
    rc L k' j = rc L k j := by
  cases hstep with
  | incr hname =>
    obtain ⟨rfl, _⟩ := hc
    rw [(incrPageRefCount_spec hL k hi).1 j, if_neg fun h => hne h.1]
  | dealloc hname =>
    rw [(@deallocPages_spec L hL k _ i 1 hi (Nat.succ_le_of_lt hi) hname).rc_eq j hj, if_neg]
    rintro ⟨_, h1, h2⟩
    exact hne (by omega)
  | alloc h1 hN => exact absurd rfl (hop _)

/-! ## 4. Runs -/

theorem AllReleased.append {ops ops' : List RefOp} (h : AllReleased ops) :
    AllReleased (ops ++ ops') := by
  obtain ⟨pre, hpre, hle⟩ := h
  exact ⟨pre, hpre.trans (List.prefix_append ops ops'), hle⟩

theorem References.run {L : Layout} (hL : L.WellFormed) {i : Nat} {k0 k : Kernel}
    (hi : i < L.entryCount) (h0 : References L i 1 k0) {ops : List RefOp}
    (hrun : Run (guarded (fun k op => op.Countable L i k) (RefStep L i)) k0 ops k)
    (hlive : ¬ AllReleased ops) : References L i (1 + incrs ops - deallocs ops) k := by
  induction ops using List.reverseRecOn generalizing k with
  | nil =>
    cases hrun
    exact h0
  | append_singleton ops op ih =>
    obtain ⟨k1, hrun1, hlast⟩ := hrun.split
    have hprev : ¬ AllReleased ops := fun h => hlive h.append
    have hle : ¬ incrs ops + 1 ≤ deallocs ops := fun h => hprev ⟨ops, List.prefix_rfl, h⟩
    have hle' : ¬ incrs (ops ++ [op]) + 1 ≤ deallocs (ops ++ [op]) := fun h =>
      hlive ⟨_, List.prefix_rfl, h⟩
    rw [incrs_append, deallocs_append] at hle' ⊢
    cases hlast with
    | cons hstep hnil =>
      cases hnil
      have hnext := (ih hrun1 hprev).step hL hi hstep.1 hstep.2 (by omega)
      rw [show 1 + (incrs ops + incrs [op]) - (deallocs ops + deallocs [op]) =
        1 + incrs ops - deallocs ops + incrs [op] - deallocs [op] by omega]
      exact hnext

/-- **References keep a page.**  From the call of `alloc_pages` that hands page `i`
    out, as long as all references are counted: no later call hands it out again
    before it has been released once more often than referenced, and no reference
    taken or released changes the count of another page. -/
theorem references_keep (L : Layout) (hL : L.WellFormed) (k : Kernel) (hR : L.Reachable k.mmu)
    (count i : Nat) (h1 : 1 ≤ count) (hN : 2 * count ≤ L.heapBottom) (h0 : HandsOut L count k i)
    (ops : List RefOp) (k' : Kernel)
    (hrun : Run (guarded (fun k op => op.Countable L i k) (RefStep L i)) (allocPages L count k).2
      ops k') :
    (¬ AllReleased ops →
      ∀ count', 1 ≤ count' → 2 * count' ≤ L.heapBottom → ¬ HandsOut L count' k' i) ∧
    ∀ op k'', op.Countable L i k' → RefStep L i k' op k'' → (∀ c, op ≠ .alloc c) →
      ∀ j, j < L.entryCount → j ≠ i → rc L k'' j = rc L k' j := by
  obtain ⟨hpos, hb, _⟩ := hL.bounds
  obtain ⟨hi, href⟩ : i < L.entryCount ∧ References L i 1 (allocPages L count k).2 := by
    obtain ⟨j, haddr, hle, hlt⟩ := h0
    rcases allocPages_spec hL hR h1 hN with ⟨_, hfail⟩ | ⟨j', haddr', hg⟩
    · rw [hfail] at haddr
      have hne : (0 : Nat) ≠ L.pageAddr j := by
        rw [pageAddr_eq]
        omega
      exact absurd haddr hne
    · rw [haddr', pageAddr_inj] at haddr
      subst haddr
      have hbound := hg.bound
      have hone : rc L (allocPages L count k).2 i = 1 := by
        rw [hg.rc_eq i (by omega), if_pos ⟨hle, hlt⟩]
      exact ⟨by omega, le_refl 1, fun _ => hone, fun _ => by omega⟩
  exact ⟨fun hlive _ h1' hN' => (href.run hL hi hrun hlive).not_handsOut hL h1' hN',
    fun op k'' hc hstep hop j hj hne => hstep.others hL hi hc hop hj hne⟩

/-- A small machine with the MMU on, whose first page is taken. -/
def Kernel.onePage : Kernel := (allocPages .small 1 ⟨fun _ => 0, 0x8000000000000001#64, 0⟩).2

theorem handsOut_onePage : HandsOut .small 1 .onePage 1 :=
  ⟨1, by decide +kernel, le_refl 1, by decide⟩

/-- One reference by the physical address. -/
theorem references_keep_one :
    let k := (allocPages .small 1 .onePage).2
    ¬ HandsOut .small 1 (incrPageRefCount .small (Layout.small.pageAddr 1) 1 k) 1 := by
  intro k
  have hcount : rc .small k 1 ≠ 0xffff := by decide +kernel
  have hrun : Run (guarded (fun k op => op.Countable .small 1 k) (RefStep .small 1)) k
      [.incr (Layout.small.pageAddr 1)] (incrPageRefCount .small (Layout.small.pageAddr 1) 1 k) :=
    .cons ⟨⟨rfl, hcount⟩, .incr (Or.inl rfl)⟩ (.nil _)
  have hR : Layout.small.Reachable Kernel.onePage.mmu := fun _ => by decide
  refine (references_keep .small Layout.small_wellFormed .onePage hR 1 1 (le_refl 1) (by decide)
    handsOut_onePage _ _ hrun).1 ?_ 1 (le_refl 1) (by decide)
  rintro ⟨pre, hpre, hle⟩
  rcases List.prefix_cons_iff.mp hpre with rfl | ⟨t, rfl, ht⟩
  · exact absurd hle (by decide)
  · rw [List.prefix_nil.mp ht] at hle
    exact absurd hle (by decide)

/-- **A reference that is lost**: with the MMU on, a reference taken by the address in
    the direct map is not counted, and one release later the page is handed out again. -/
theorem reference_lost :
    HandsOut .small 1 .onePage 1 ∧ ∃ ops k,
      Run (RefStep .small 1) (allocPages .small 1 .onePage).2 ops k ∧
        ¬ AllReleased ops ∧ HandsOut .small 1 k 1 := by
  refine ⟨handsOut_onePage, [.incr (phys2safe true (Layout.small.pageAddr 1)),
    .dealloc (Layout.small.pageAddr 1)], _,
    .cons (.incr (Or.inr ⟨?_, by decide⟩)) (.cons (.dealloc (Or.inl rfl)) (.nil _)), ?_,
    1, ?_, le_refl 1, by decide⟩
  · have hmmu : (allocPages .small 1 .onePage).2.mmu = true := by decide +kernel
    rw [hmmu]
  · rintro ⟨pre, hpre, hle⟩
    rcases List.prefix_cons_iff.mp hpre with rfl | ⟨t, rfl, ht⟩
    · exact absurd hle (by simp [incrs, deallocs])
    · rcases List.prefix_cons_iff.mp ht with rfl | ⟨t', rfl, ht'⟩
      · exact absurd hle (by simp [incrs, deallocs])
      · rw [List.prefix_nil.mp ht'] at hle
        exact absurd hle (by simp [incrs, deallocs])
  · decide +kernel

end IloPali
