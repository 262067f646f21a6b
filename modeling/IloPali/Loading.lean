import IloPali.ElfBounds
import IloPali.HeapFrame
import IloPali.MmuSpec

/-!
# What the loader does to memory

While it loads a program, `spawn_task_from_elf` writes to three kinds of pages: the tables of the
new task, the pages it maps for it, and the pages of the heap.  `Loading` is the invariant that
keeps the three apart.  It holds for any image, since each copy stays in the page it is for.
-/

namespace IloPali

open ByteMemory

/-! ## 1. The invariant -/

/-- Flags of a page that user code may use, not both to write and to execute. -/
def UserFlags (flags : Word) : Prop :=
  mmuEntryUser flags = true ∧ ¬ (mmuEntryWrite flags = true ∧ mmuEntryExec flags = true)

/-- The loader has mapped `v`. -/
def Added (m0 m : Mem) (ρ : Nat) (v : PageNumber) : Prop :=
  ¬ Mapped m0 ρ v ∧ mmuEntryValid (leaf m ρ v) = true

/-- Page `p` is what the loader has mapped `v` to.  It was free before, and is neither a table nor
    one of the pages `H` of the heap. -/
structure TaskPage (L : Layout) (H : Nat → Prop) (ρ : Nat) (k0 k : Kernel) (v : PageNumber)
    (flags : Word) (p : Nat) : Prop where
  unmapped : ¬ Mapped k0.mem ρ v
  leaf_eq : leaf k.mem ρ v = leafEntry (4096 * p) flags
  flags : UserFlags flags
  free : FreePage L k0 p
  owned : OwnedPage L k p
  notTable : ¬ IsTable k.mem ρ p
  notHeap : ¬ H p

/-- **The invariant of the loader**, from the state `k0` with the table alone to the state `k`, where
    of the pages that were in use only tables of the task and pages in `W` have been written. -/
structure Loading (L : Layout) (H W : Nat → Prop) (ρ : Nat) (k0 k : Kernel) : Prop where
  tree : Tree L k ρ
  tables : ∀ n, IsTable k.mem ρ n → IsTable k0.mem ρ n ∨ FreePage L k0 n
  frame : Frame L (fun n => IsTable k0.mem ρ n ∨ W n) k0 k
  leaves : ∀ v, leaf k.mem ρ v = leaf k0.mem ρ v ∨ ∃ flags p, TaskPage L H ρ k0 k v flags p
  apart : ∀ v v', Added k0.mem k.mem ρ v → Added k0.mem k.mem ρ v' →
    entryPhys (leaf k.mem ρ v) = entryPhys (leaf k.mem ρ v') → v = v'
  heap : ∀ n, H n → OwnedPage L k n ∧ ¬ IsTable k.mem ρ n
  failed : k.failed = k0.failed

theorem not_mapped_valid {m : Mem} {ρ : Nat} {v : PageNumber} (h : ¬ Mapped m ρ v) :
    mmuEntryValid (leaf m ρ v) = false := by
  rw [← Bool.not_eq_true]
  exact fun hv => h (Or.inr hv)

section Invariant

variable {L : Layout} (hL : L.WellFormed) {H W : Nat → Prop} {ρ : Nat} {k0 k k' : Kernel}

theorem Loading.refl (hT : Tree L k0 ρ)
    (hH : ∀ n, H n → OwnedPage L k0 n ∧ ¬ IsTable k0.mem ρ n) : Loading L H W ρ k0 k0 := by
  refine ⟨hT, fun _ h => Or.inl h, .refl L _ k0, fun _ => Or.inl rfl, ?_, hH, rfl⟩
  rintro v v' ⟨hv, hvalid⟩ _ _
  rw [not_mapped_valid hv] at hvalid
  exact nomatch hvalid

include hL

theorem TaskPage.entryPhys_eq {v : PageNumber} {flags : Word} {p : Nat}
    (h : TaskPage L H ρ k0 k v flags p) : entryPhys (leaf k.mem ρ v) = 4096 * p := by
  rw [h.leaf_eq, entryPhys_leafEntry (h.owned.lt hL)]
  omega

theorem TaskPage.added {v : PageNumber} {flags : Word} {p : Nat}
    (h : TaskPage L H ρ k0 k v flags p) : Added k0.mem k.mem ρ v := by
  refine ⟨h.unmapped, ?_⟩
  rw [h.leaf_eq]
  exact valid_leafEntry (h.owned.lt hL) flags

omit hL in
/-- What is mapped by the loader is one of the task's pages. -/
theorem Loading.page (h : Loading L H W ρ k0 k) {v : PageNumber} (hv : Added k0.mem k.mem ρ v) :
    ∃ flags p, TaskPage L H ρ k0 k v flags p := by
  rcases h.leaves v with hsame | hpage
  · have hvalid := hv.2
    rw [hsame, not_mapped_valid hv.1] at hvalid
    exact nomatch hvalid
  · exact hpage

/-- A page is mapped at one page number only. -/
theorem Loading.page_unique (h : Loading L H W ρ k0 k) {v v' : PageNumber} {flags flags' : Word}
    {p : Nat} (hp : TaskPage L H ρ k0 k v flags p) (hp' : TaskPage L H ρ k0 k v' flags' p) :
    v = v' := by
  apply h.apart v v' (hp.added hL) (hp'.added hL)
  rw [hp.entryPhys_eq hL, hp'.entryPhys_eq hL]

omit hL in
/-- Where only other pages than tables are written, the task keeps its pages. -/
theorem TaskPage.write {v : PageNumber} {flags : Word} {p : Nat}
    (hp : TaskPage L H ρ k0 k v flags p) (hT : Tree L k ρ) {V : Nat → Prop} (hF : Frame L V k k')
    (hV : ∀ n, IsTable k.mem ρ n → ¬ V n) : TaskPage L H ρ k0 k' v flags p :=
  ⟨hp.unmapped, (hT.frame_leaf hF hV v).trans hp.leaf_eq, hp.flags, hp.free, hF.owned hp.owned,
    fun hn => hp.notTable ((hT.frame_isTable hF hV p).mp hn), hp.notHeap⟩

omit hL in
/-- Writing to pages that are no tables, while the heap may take pages that were free. -/
theorem Loading.grow (h : Loading L H W ρ k0 k) {V H' W' : Nat → Prop} (hF : Frame L V k k')
    (hV : ∀ n, V n → ¬ IsTable k.mem ρ n ∧ (W' n ∨ FreePage L k0 n)) (hW : ∀ n, W n → W' n)
    (hH : ∀ n, H' n → OwnedPage L k' n ∧ (H n ∨ FreePage L k n)) (hfailed : k'.failed = k.failed) :
    Loading L H' W' ρ k0 k' := by
  have hnot : ∀ n, IsTable k.mem ρ n → ¬ V n := fun n hn hv => (hV n hv).1 hn
  have htable := h.tree.frame_isTable hF hnot
  have hleaf := h.tree.frame_leaf hF hnot
  refine ⟨h.tree.frame hF hnot, fun n hn => h.tables n ((htable n).mp hn), ?_, fun v => ?_, ?_,
    fun n hn => ?_, hfailed.trans h.failed⟩
  · have hbefore : Frame L (fun n => IsTable k0.mem ρ n ∨ W' n) k0 k :=
      h.frame.mono fun n hn => hn.imp_right (hW n)
    refine hbefore.trans hF fun n hv => ?_
    rcases (hV n hv).2 with hw | hfree
    · exact Or.inl (Or.inr hw)
    · exact Or.inr hfree
  · rw [hleaf v]
    rcases h.leaves v with hsame | ⟨flags, p, hp⟩
    · exact Or.inl hsame
    · refine Or.inr ⟨flags, p, { hp.write h.tree hF hnot with notHeap := fun hn => ?_ }⟩
      rcases (hH p hn).2 with hold | hfree
      · exact hp.notHeap hold
      · exact hp.owned.not_free hfree
  · intro v v' hv hv' hsame
    unfold Added at hv hv'
    rw [hleaf] at hv hv'
    rw [hleaf, hleaf] at hsame
    exact h.apart v v' hv hv' hsame
  · obtain ⟨howned, hn⟩ := hH n hn
    refine ⟨howned, fun ht => ?_⟩
    rcases hn with hold | hfree
    · exact (h.heap n hold).2 ((htable n).mp ht)
    · exact (h.tree.isTable_owned ((htable n).mp ht)).not_free hfree

omit hL in
/-- **Writing** to pages that are no tables. -/
theorem Loading.write (h : Loading L H W ρ k0 k) {V : Nat → Prop} (hF : Frame L V k k')
    (hV : ∀ n, V n → ¬ IsTable k.mem ρ n ∧ (W n ∨ FreePage L k0 n))
    (hfailed : k'.failed = k.failed) : Loading L H W ρ k0 k' :=
  h.grow hF hV (fun _ hn => hn) (fun n hn => ⟨hF.owned (h.heap n hn).1, Or.inl hn⟩) hfailed

omit hL in
/-- A page that was just mapped. -/
theorem Loading.taskPage (h : Loading L H W ρ k0 k) {v : PageNumber} {flags : Word} {p : Nat}
    (hflags : UserFlags flags) (hunmapped : ¬ Mapped k.mem ρ v)
    (hp : Placed L ρ v flags p k k') : TaskPage L H ρ k0 k' v flags p := by
  refine ⟨?_, ?_, hflags, h.frame.free hp.free, hp.owned, hp.notTable, fun hn => ?_⟩
  · rintro (hhigh | hvalid)
    · exact hunmapped (Or.inl hhigh)
    · rcases h.leaves v with hsame | ⟨_, _, hpage⟩
      · exact hunmapped (Or.inr (by rw [hsame]; exact hvalid))
      · exact hpage.unmapped (Or.inr hvalid)
  · rw [hp.leaf_eq, if_pos rfl]
  · exact (h.heap p hn).1.not_free hp.free

omit hL in
/-- The pages that were mapped before. -/
theorem TaskPage.keep {v v' : PageNumber} {flags flags' : Word} {p p' : Nat}
    (hp : TaskPage L H ρ k0 k v flags p) (hplaced : Placed L ρ v' flags' p' k k') (hne : v ≠ v') :
    TaskPage L H ρ k0 k' v flags p := by
  refine ⟨hp.unmapped, ?_, hp.flags, hp.free, hplaced.evolves.frame.owned hp.owned, fun hn => ?_,
    hp.notHeap⟩
  · rw [hplaced.leaf_eq, if_neg hne, hp.leaf_eq]
  · rcases hplaced.evolves.new p hn with hold | hfree
    · exact hp.notTable hold
    · exact hp.owned.not_free hfree

/-- **Mapping** a fresh page. -/
theorem Loading.placed (h : Loading L H W ρ k0 k) {v : PageNumber} {flags : Word} {p : Nat}
    (hflags : UserFlags flags) (hunmapped : ¬ Mapped k.mem ρ v)
    (hp : Placed L ρ v flags p k k') : Loading L H W ρ k0 k' := by
  have hnew := h.taskPage hflags hunmapped hp
  -- a page that was mapped before is not the one that was free
  have hother : ∀ v', v' ≠ v → Added k0.mem k'.mem ρ v' →
      entryPhys (leaf k'.mem ρ v') ≠ 4096 * p := by
    intro v' hne hv' hsame
    have hleaf := hp.leaf_eq v'
    rw [if_neg hne] at hleaf
    unfold Added at hv'
    rw [hleaf] at hv' hsame
    obtain ⟨_, p', hp'⟩ := h.page hv'
    rw [hp'.entryPhys_eq hL] at hsame
    obtain rfl : p' = p := by omega
    exact hp'.owned.not_free hp.free
  refine ⟨hp.evolves.tree, fun n hn => ?_, ?_, fun v' => ?_, fun v1 v2 h1 h2 hsame => ?_,
    fun n hn => ?_, hp.evolves.failed.trans h.failed⟩
  · rcases hp.evolves.new n hn with hold | hfree
    · exact h.tables n hold
    · exact Or.inr (h.frame.free hfree)
  · refine h.frame.trans hp.evolves.frame fun n hn => ?_
    rcases h.tables n hn with hold | hfree
    · exact Or.inl (Or.inl hold)
    · exact Or.inr hfree
  · by_cases hv : v' = v
    · subst hv
      exact Or.inr ⟨flags, p, hnew⟩
    · rcases h.leaves v' with hsame | ⟨flags', p', hp'⟩
      · left
        rw [hp.leaf_eq, if_neg hv, hsame]
      · exact Or.inr ⟨flags', p', hp'.keep hp hv⟩
  · by_cases hv1 : v1 = v
    · by_cases hv2 : v2 = v
      · rw [hv1, hv2]
      · rw [hv1, hnew.entryPhys_eq hL] at hsame
        exact absurd hsame.symm (hother v2 hv2 h2)
    · by_cases hv2 : v2 = v
      · rw [hv2, hnew.entryPhys_eq hL] at hsame
        exact absurd hsame (hother v1 hv1 h1)
      · unfold Added at h1 h2
        rw [hp.leaf_eq, if_neg hv1] at h1 hsame
        rw [hp.leaf_eq, if_neg hv2] at h2 hsame
        exact h.apart v1 v2 h1 h2 hsame
  · obtain ⟨howned, hno⟩ := h.heap n hn
    refine ⟨hp.evolves.frame.owned howned, fun ht => ?_⟩
    rcases hp.evolves.new n ht with hold | hfree
    · exact hno hold
    · exact howned.not_free hfree

omit hL in
/-- The pages of the task stay where they are while another is mapped. -/
theorem TaskPage.alloc (h : Loading L H W ρ k0 k) {v : PageNumber} {flags flags' : Word} {p : Nat}
    (hp : TaskPage L H ρ k0 k v flags p) (hL : L.WellFormed) {virt : Nat}
    (hok : (mmuAlloc L (4096 * ρ) virt flags' k).2.failed = k.failed) :
    TaskPage L H ρ k0 (mmuAlloc L (4096 * ρ) virt flags' k).2 v flags p := by
  rcases mmuAlloc_spec hL h.tree hok with ⟨_, _, hF⟩ | ⟨hunmapped, _, _, hplaced⟩
  · exact hp.write h.tree hF fun _ _ hn => hn
  · apply hp.keep hplaced
    rintro rfl
    exact hunmapped (Or.inr (hp.added hL).2)

/-- **`mmu_alloc`** keeps the invariant. -/
theorem Loading.alloc (h : Loading L H W ρ k0 k) {virt : Nat} {flags : Word}
    (hflags : UserFlags flags)
    (hok : (mmuAlloc L (4096 * ρ) virt flags k).2.failed = k.failed) :
    Loading L H W ρ k0 (mmuAlloc L (4096 * ρ) virt flags k).2 := by
  rcases mmuAlloc_spec hL h.tree hok with ⟨_, _, hF⟩ | ⟨hunmapped, p, _, hp⟩
  · exact h.write hF (fun _ hn => hn.elim) hok
  · exact h.placed hL hflags hunmapped hp

end Invariant

/-! ## 2. Copying into a page -/

@[simp] theorem copyLoop_failed (n d s : Nat) (k : Kernel) : (copyLoop n d s k).failed = k.failed := by
  induction n generalizing d s k with
  | zero => rfl
  | succ n ih => exact ih _ _ _

@[simp] theorem memcpy_failed (dest src n : Nat) (k : Kernel) :
    (memcpy dest src n k).failed = k.failed := copyLoop_failed _ _ _ k

@[simp] theorem copyPage_failed (header index offset i page : Nat) (s : Load) :
    (copyPage header index offset i page s).kernel.failed = s.kernel.failed := by
  unfold copyPage
  dsimp only
  split
  · rfl
  · split
    · exact memcpy_failed _ _ _ _
    · exact memcpy_failed _ _ _ _

section Copy

variable {L : Layout} (hL : L.WellFormed) {k k' : Kernel} {p : Nat}
include hL

theorem Frame.ofPage (hp : OwnedPage L k p) (hmem : ∀ x, x / 4096 ≠ p → k'.mem x = k.mem x)
    (hsatp : k'.satp = k.satp) : Frame L (· = p) k k' := by
  refine ⟨fun i hi hpos => ?_, fun x _ _ hx => hmem x hx, hsatp⟩
  rw [rc_congr hL (fun x hx => hmem x ?_) hi]
  · exact hpos
  · rintro rfl
    exact hp.not_inTable hx

/-- Where the kernel sees an owned page. -/
theorem OwnedPage.pointer (hp : OwnedPage L k p) (i : Nat) :
    Direct k.mmu (phys2safe k.mmu (4096 * p) + i) ∧
      physOf k.mmu (phys2safe k.mmu (4096 * p) + i) = 4096 * p + i ∧
      PAGE_SIZE ≤ phys2safe k.mmu (4096 * p) ∧
      phys2safe k.mmu (4096 * p) + PAGE_SIZE ≤ 2 ^ 64 := by
  have hA := hp.addressable hL
  have hlt := hp.lt hL
  have hpos := hA.1
  have hsum := KERNEL_SPACE_OFFSET_add
  have hsize := DIRECT_MAP_SIZE_eq
  have heq := phys2safe_eq hA.2
  have hshown := hA.2
  refine ⟨fun hon => ?_, physOf_phys2safe_add hA.2 i, ?_, ?_⟩
  · rw [heq, if_pos hon]
    omega
  · rw [heq, PAGE_SIZE]
    omega
  · rw [heq, PAGE_SIZE]
    split
    · have := hshown ‹_›
      omega
    · omega

/-- A copy that does not leave its page: it is not longer than the rest of the page, or its length
    is a small negative number and nothing is copied. -/
theorem memcpy_frame (hp : OwnedPage L k p) {off n : Nat} (src : Nat) (hoff : off < PAGE_SIZE)
    (hn : off + n ≤ PAGE_SIZE ∨ 2 ^ 64 - PAGE_SIZE < n ∧ n < 2 ^ 64) :
    Frame L (· = p) k (memcpy (phys2safe k.mmu (4096 * p) + off) src n k) := by
  obtain ⟨hdir, hphys, hlow, hhigh⟩ := hp.pointer hL off
  apply Frame.ofPage hL hp
  · intro x hx
    apply copyLoop_frame hdir
    rw [hphys]
    generalize phys2safe k.mmu (4096 * p) = base at hlow hhigh
    rw [PAGE_SIZE] at hoff hn hlow hhigh
    omega
  · exact copyLoop_satp _ _ _ k

theorem copyPage_frame {s : Load} (hp : OwnedPage L s.kernel p) (header index i : Nat) {offset : Nat}
    (hoff : offset < PAGE_SIZE) : Frame L (· = p) s.kernel
      (copyPage header index offset i (phys2safe s.kernel.mmu (4096 * p)) s).kernel := by
  rw [copyPage_chunk header index offset i _ s hoff]
  have hrange := chunkSize_range (getElfProgramHeader s.kernel header index) i hoff
  split
  · exact .refl L _ _
  · by_cases hi : i = 0
    · have hsize : chunkSize (getElfProgramHeader s.kernel header index) offset 0 =
          PAGE_SIZE - offset := by
        simp [chunkSize, copySize, PAGE_SIZE]
      subst hi
      rw [if_pos rfl, hsize]
      exact memcpy_frame hL hp _ hoff (Or.inl (by omega))
    · rw [if_neg hi]
      exact memcpy_frame hL hp _ (by decide) (by rwa [Nat.zero_add])

end Copy

/-! ## 3. The segments -/

theorem mmuAlloc_failed_le (L : Layout) (root virt : Nat) (flags : Word) (k : Kernel) :
    k.failed ≤ (mmuAlloc L root virt flags k).2.failed := by
  have halloc := allocPages_failed_le L 1 k
  have hmap := mmuMap_failed_le L root virt (allocPages L 1 k).1 flags (allocPages L 1 k).2
  rw [mmuAlloc_eq]
  split
  · rw [deallocPages_failed]
    exact halloc.trans hmap
  · exact halloc.trans hmap

section Failures

variable (L : Layout) (top header : Nat)

theorem loadPage_failed_le (index : Nat) (flags : Word) (offset i : Nat) (s : Load) :
    s.kernel.failed ≤ (loadPage L top header index flags offset i s).kernel.failed := by
  unfold loadPage
  dsimp only
  split
  · exact mmuAlloc_failed_le L top _ _ s.kernel
  · rw [copyPage_failed]
    exact mmuAlloc_failed_le L top _ _ s.kernel

theorem loadPages_failed_le (index : Nat) (flags : Word) (offset n i : Nat) (s : Load) :
    s.kernel.failed ≤ (loadPages L top header index flags offset n i s).kernel.failed := by
  induction n generalizing i s with
  | zero => exact le_refl _
  | succ n ih => exact (loadPage_failed_le L top header index flags offset i s).trans (ih _ _)

theorem loadSegment_failed_le (index : Nat) (s : Load) :
    s.kernel.failed ≤ (loadSegment L top header index s).kernel.failed := by
  unfold loadSegment
  dsimp only
  split
  · exact le_refl _
  · exact loadPages_failed_le L top header _ _ _ _ _ s

theorem loadSegments_failed_le (n index : Nat) (s : Load) :
    s.kernel.failed ≤ (loadSegments L top header n index s).kernel.failed := by
  induction n generalizing index s with
  | zero => exact le_refl _
  | succ n ih =>
    rw [loadSegments]
    split
    · exact (loadSegment_failed_le L top header index s).trans (ih _ _)
    · exact le_refl _

theorem mapStack_failed_le (n : Nat) (s : Load) :
    s.kernel.failed ≤ (mapStack L top n s).kernel.failed := by
  induction n generalizing s with
  | zero => exact le_refl _
  | succ n ih =>
    rw [mapStack]
    exact (mmuAlloc_failed_le L top s.maxPage STACK_FLAGS s.kernel).trans
      (ih { (s.alloc L top s.maxPage STACK_FLAGS).2 with
        maxPage := (s.maxPage + PAGE_SIZE) % 2 ^ 64 })

end Failures

theorem userFlags_segment (flagsRaw : Nat) :
    UserFlags (segmentFlags flagsRaw ||| MMU_BIT_USER) := by
  unfold UserFlags segmentFlags
  split
  · split
    · decide
    · decide
  · split
    · split
      · decide
      · decide
    · split
      · decide
      · decide

theorem userFlags_stack : UserFlags STACK_FLAGS := by
  unfold UserFlags
  decide

section Segments

variable {L : Layout} (hL : L.WellFormed) {H W : Nat → Prop} {ρ : Nat} {k0 : Kernel}
include hL

/-- The page that the loader finds where it could not map one. -/
theorem Loading.mappedPage {k : Kernel} (h : Loading L H W ρ k0 k)
    (hno : ∀ v, mmuEntryUser (leaf k0.mem ρ v) = false) {virt page : Nat}
    (hpage : segmentPage k (4096 * ρ) virt 0 = some page) :
    ∃ v flags p, TaskPage L H ρ k0 k v flags p ∧ phys2safe k.mmu page = phys2safe k.mmu (4096 * p) := by
  unfold segmentPage at hpage
  rw [if_neg (not_not.mpr rfl)] at hpage
  dsimp only at hpage
  split at hpage
  · exact nomatch hpage
  · rename_i huser
    simp only [not_or, Bool.not_eq_false] at huser
    obtain ⟨hne, _, _, huser⟩ := huser
    have hlow : (getVpns virt).vpn0.val < 256 := by
      by_contra hhigh
      rw [mmuWalkToEntry_upper hL h.tree (Nat.not_lt.mp hhigh),
        entry_slot (h.tree.addressable hL (isTable_root _ _)), h.tree.direct _ (Nat.not_lt.mp hhigh),
        (directMapEntry_spec _ (Nat.not_lt.mp hhigh)).2.2] at huser
      exact nomatch huser
    rcases setFlags_walk hL h.tree hlow 0#64 with ⟨_, hnull⟩ | ⟨_, _, hentry, _⟩
    · exact absurd hnull hne
    · rw [hentry] at huser hpage
      rcases h.leaves (getVpns virt) with hsame | ⟨flags, p, hp⟩
      · rw [hsame, hno] at huser
        exact nomatch huser
      · refine ⟨_, flags, p, hp, ?_⟩
        have hA := hp.owned.addressable hL
        have hpos : 0 < 4096 * p := Nat.mul_pos (by decide) (Nat.pos_of_ne_zero hA.1)
        rw [← Option.some.inj hpage, mmuEntryPhys, hp.entryPhys_eq hL,
          phys2safe_phys2safe hpos hA.2]

/-- The page that the loader copies to belongs to the task. -/
theorem Loading.segmentPage {k k' : Kernel} (h : Loading L H W ρ k0 k)
    (hno : ∀ v, mmuEntryUser (leaf k0.mem ρ v) = false) {virt virt' page page' : Nat} {flags : Word}
    (hflags : UserFlags flags) (halloc : mmuAlloc L (4096 * ρ) virt flags k = (page, k'))
    (hok : k'.failed = k.failed)
    (hpage : IloPali.segmentPage k' (4096 * ρ) virt' page = some page') :
    ∃ v flags p, TaskPage L H ρ k0 k' v flags p ∧
      phys2safe k'.mmu page' = phys2safe k'.mmu (4096 * p) := by
  have hnew := @mmuAlloc_spec L hL k ρ h.tree virt flags (by rw [halloc]; exact hok)
  have hload := @Loading.alloc L hL H W ρ k0 k h virt flags hflags (by rw [halloc]; exact hok)
  rw [halloc] at hnew hload
  rcases hnew with ⟨_, rfl, _⟩ | ⟨hunmapped, p, rfl, hp⟩
  · exact hload.mappedPage hL hno hpage
  · have hpos := (hp.owned.addressable hL).1
    rw [IloPali.segmentPage, if_pos (by omega)] at hpage
    rw [← Option.some.inj hpage]
    exact ⟨_, flags, p, h.taskPage hflags hunmapped hp, rfl⟩

/-- **One page of a segment** keeps the invariant. -/
theorem Loading.loadPage {s : Load} (h : Loading L H W ρ k0 s.kernel)
    (hno : ∀ v, mmuEntryUser (leaf k0.mem ρ v) = false) (header index i : Nat) {flags : Word}
    {offset : Nat} (hflags : UserFlags (flags ||| MMU_BIT_USER)) (hoff : offset < PAGE_SIZE)
    (hok : (loadPage L (4096 * ρ) header index flags offset i s).kernel.failed = s.kernel.failed) :
    Loading L H W ρ k0 (IloPali.loadPage L (4096 * ρ) header index flags offset i s).kernel := by
  unfold IloPali.loadPage Load.alloc at hok ⊢
  dsimp only at hok ⊢
  generalize ((getElfProgramHeader s.kernel header index).virtualAddr + i * PAGE_SIZE) % 2 ^ 64 =
    virt at hok ⊢
  rcases halloc : mmuAlloc L (4096 * ρ) ((virt + 2 ^ 64 - offset) % 2 ^ 64) (flags ||| MMU_BIT_USER)
    s.kernel with ⟨page, k'⟩
  rw [halloc] at hok
  dsimp only at hok ⊢
  have hfailed : k'.failed = s.kernel.failed := by
    split at hok
    · exact hok
    · exact (copyPage_failed _ _ _ _ _ _).symm.trans hok
  have hload := @Loading.alloc L hL H W ρ k0 s.kernel h _ _ hflags (by rw [halloc]; exact hfailed)
  rw [halloc] at hload
  dsimp only at hload
  split
  · exact hload
  · rename_i page' hpage
    obtain ⟨_, _, p, hp, hptr⟩ := h.segmentPage hL hno hflags halloc hfailed hpage
    rw [hptr]
    apply hload.write (copyPage_frame (s := ⟨k', _, _, _⟩) hL hp.owned header index i hoff)
    · rintro n rfl
      exact ⟨hp.notTable, Or.inr hp.free⟩
    · exact copyPage_failed _ _ _ _ _ _

theorem Loading.loadPages {s : Load} (h : Loading L H W ρ k0 s.kernel)
    (hno : ∀ v, mmuEntryUser (leaf k0.mem ρ v) = false) (header index n i : Nat) {flags : Word}
    {offset : Nat} (hflags : UserFlags (flags ||| MMU_BIT_USER)) (hoff : offset < PAGE_SIZE)
    (hok : (loadPages L (4096 * ρ) header index flags offset n i s).kernel.failed =
      s.kernel.failed) :
    Loading L H W ρ k0 (IloPali.loadPages L (4096 * ρ) header index flags offset n i s).kernel := by
  induction n generalizing i s with
  | zero => exact h
  | succ n ih =>
    rw [IloPali.loadPages] at hok ⊢
    have hfirst := loadPage_failed_le L (4096 * ρ) header index flags offset i s
    have hrest := loadPages_failed_le L (4096 * ρ) header index flags offset n (i + 1)
      (IloPali.loadPage L (4096 * ρ) header index flags offset i s)
    apply ih
    · exact h.loadPage hL hno header index i hflags hoff (by omega)
    · omega

theorem Loading.loadSegment {s : Load} (h : Loading L H W ρ k0 s.kernel)
    (hno : ∀ v, mmuEntryUser (leaf k0.mem ρ v) = false) (header index : Nat)
    (hok : (loadSegment L (4096 * ρ) header index s).kernel.failed = s.kernel.failed) :
    Loading L H W ρ k0 (IloPali.loadSegment L (4096 * ρ) header index s).kernel := by
  unfold IloPali.loadSegment at hok ⊢
  dsimp only at hok ⊢
  split
  · exact h
  · rename_i htype
    rw [if_neg htype] at hok
    exact h.loadPages hL hno header index _ 0 (userFlags_segment _) (Nat.mod_lt _ (by decide)) hok

theorem Loading.loadSegments {s : Load} (h : Loading L H W ρ k0 s.kernel)
    (hno : ∀ v, mmuEntryUser (leaf k0.mem ρ v) = false) (header n index : Nat)
    (hok : (loadSegments L (4096 * ρ) header n index s).kernel.failed = s.kernel.failed) :
    Loading L H W ρ k0 (IloPali.loadSegments L (4096 * ρ) header n index s).kernel := by
  induction n generalizing index s with
  | zero => exact h
  | succ n ih =>
    rw [IloPali.loadSegments] at hok ⊢
    split
    · rename_i hindex
      rw [if_pos hindex] at hok
      have hfirst := loadSegment_failed_le L (4096 * ρ) header index s
      have hrest := loadSegments_failed_le L (4096 * ρ) header n (index + 1)
        (IloPali.loadSegment L (4096 * ρ) header index s)
      apply ih
      · exact h.loadSegment hL hno header index (by omega)
      · omega
    · exact h

/-! ## 4. The stack -/

theorem Loading.mapStack {s : Load} (h : Loading L H W ρ k0 s.kernel) (n : Nat)
    (hok : (mapStack L (4096 * ρ) n s).kernel.failed = s.kernel.failed) :
    Loading L H W ρ k0 (IloPali.mapStack L (4096 * ρ) n s).kernel := by
  induction n generalizing s with
  | zero => exact h
  | succ n ih =>
    rw [IloPali.mapStack] at hok ⊢
    have hfirst := mmuAlloc_failed_le L (4096 * ρ) s.maxPage STACK_FLAGS s.kernel
    have hrest := mapStack_failed_le L (4096 * ρ) n
      { (s.alloc L (4096 * ρ) s.maxPage STACK_FLAGS).2 with
        maxPage := (s.maxPage + PAGE_SIZE) % 2 ^ 64 }
    unfold Load.alloc at hok hrest ⊢
    dsimp only at hok hrest ⊢
    apply ih
    · exact h.alloc hL userFlags_stack (by omega)
    · dsimp only
      omega

end Segments

end IloPali
