import IloPali.HeapUse

/-!
# What `realloc` keeps

`realloc` copies as many bytes as the header of the old block counts.  That is enough for a
block whose header counts at least what was asked for.  The slot behind the formatted slots of
a region has no size in its header, and nothing of it is copied.
-/

namespace IloPali

open Transition

/-- `realloc` keeps the contents: the bytes that were asked for before and are now are the same,
    so are those of every other block, and a block that was not moved is still in use. -/
structure HeapTrace.ReallocKeeps (L : Layout) (s : HeapTrace) (b : LiveBlock)
    (newSize origin : Nat) : Prop where
  moved : (realloc L b.range.1 newSize origin s.heap).1 ≠ 0 →
    SameBytes s.heap.kernel (realloc L b.range.1 newSize origin s.heap).2.kernel b.range.1
      (realloc L b.range.1 newSize origin s.heap).1 (min b.size newSize)
  others : ∀ x ∈ s.live, x.bucket ≠ b.bucket →
    SameBytes s.heap.kernel (realloc L b.range.1 newSize origin s.heap).2.kernel x.range.1
      x.range.1 x.size
  kept : (realloc L b.range.1 newSize origin s.heap).1 = 0 →
    let t := s.use L (.call (.realloc b.range.1 newSize origin))
    b ∈ t.live ∧ t.ListsWellFormed ∧
      SameBytes s.heap.kernel t.heap.kernel b.range.1 b.range.1 b.size

theorem SameBytes.refl (k : Kernel) (p n : Nat) : SameBytes k k p p n := fun _ _ => rfl

theorem SameBytes.mono {k k' : Kernel} {p q n m : Nat} (h : SameBytes k k' p q n) (hm : m ≤ n) :
    SameBytes k k' p q m := fun i hi => h i (Nat.lt_of_lt_of_le hi hm)

section Cases

variable {L : Layout} (hL : L.WellFormed) {s : HeapTrace} {rs : List PageRun}
  {free : SizeClass → List Nat} {b : LiveBlock} {newSize : Nat}

theorem LiveBlock.range_ne_zero (b : LiveBlock) : b.range.1 ≠ 0 :=
  Nat.ne_of_gt (Nat.add_pos_right _ (by decide))

theorem LiveBlock.range_sub (b : LiveBlock) : b.range.1 - HEADER_SIZE = b.bucket :=
  Nat.add_sub_cancel _ _

theorem use_realloc_heap (L : Layout) (s : HeapTrace) (p newSize origin : Nat) :
    (s.use L (.call (.realloc p newSize origin))).heap = (realloc L p newSize origin s.heap).2 := by
  rw [HeapTrace.use, HeapTrace.step, realloc]

/-- A block that is large enough stays where it is. -/
theorem reallocKeeps_keep (hkeep : newSize ≤ s.heap.kernel.size b.bucket) (origin : Nat) :
    s.ReallocKeeps L b newSize origin := by
  have hcall : realloc L b.range.1 newSize origin s.heap = (b.range.1, s.heap) := by
    rw [realloc, reallocWith, if_neg b.range_ne_zero]
    dsimp only
    rw [b.range_sub, if_pos hkeep]
  refine ⟨fun _ => ?_, fun x _ _ => ?_, fun hz => ?_⟩
  · rw [hcall]
    exact SameBytes.refl _ _ _
  · rw [hcall]
    exact SameBytes.refl _ _ _
  · rw [hcall] at hz
    exact absurd hz b.range_ne_zero

include hL

/-- A block that has to be moved. -/
theorem UseInv.reallocKeeps_move (hi : UseInv L s rs free) (hb : b ∈ s.live)
    (hs : s.Serves L newSize) (hsize : b.size ≤ s.heap.kernel.size b.bucket)
    (hmove : s.heap.kernel.size b.bucket < newSize) (origin : Nat) :
    s.ReallocKeeps L b newSize origin := by
  have hmove' : s.heap.kernel.size (b.range.1 - HEADER_SIZE) < newSize := by
    rw [b.range_sub]
    exact hmove
  have hheap := use_realloc_heap L s b.range.1 newSize origin
  by_cases hnew : (freeBucketsAlloc L newSize origin s.heap).1 = 0
  · -- there are no pages for a new block
    obtain ⟨hstep, hnull⟩ := step_realloc_null_result b.range_ne_zero hmove' hnew
    rcases hi.allocated hL hs origin with ⟨_, hinv, hlive, hkeep⟩ | ⟨_, _, b', hnew', _⟩
    · have hsame : ∀ x ∈ s.live, SameBytes s.heap.kernel
          (s.use L (.call (.realloc b.range.1 newSize origin))).heap.kernel x.range.1 x.range.1
          x.size := by
        intro x hx
        obtain ⟨len, hlen, hroom, _⟩ := hi.room x hx
        rw [HeapTrace.use, hstep]
        exact hkeep.sameBytes hL hi.lists.pages.toRunsPlaced hlen hroom
      refine ⟨fun hne => absurd hnull hne, fun x hx _ => ?_, fun _ => ?_⟩
      · rw [← hheap]
        exact hsame x hx
      · refine ⟨?_, ?_, hsame b hb⟩
        · rw [HeapTrace.use, hstep, hlive]
          exact hb
        · rw [HeapTrace.use, hstep]
          exact hinv.listsWellFormed
    · rw [hnew'] at hnew
      exact absurd hnew (Nat.ne_of_gt (Nat.add_pos_right b' (by decide)))
  · obtain ⟨rs', free', _, hcopy, hsame⟩ := @UseInv.reallocated L hL s rs free hi b hb newSize origin hs
      hmove hnew
    have hresult := realloc_moved b.range_ne_zero hmove' hnew
    rw [HeapTrace.use] at hheap
    refine ⟨fun _ => ?_, fun x hx hne => ?_, fun hz => ?_⟩
    · rw [hresult, ← hheap]
      exact hcopy.mono (Nat.le_trans (Nat.min_le_left _ _) hsize)
    · rw [← hheap]
      exact hsame x hx hne
    · exact absurd (hresult.symm.trans hz) hnew

end Cases

/-- **`realloc` keeps the contents** of a block whose header counts the bytes that were asked
    for, or that need not be moved. -/
theorem realloc_keeps_contents (L : Layout) (hL : L.WellFormed) (s0 s : HeapTrace)
    (us : List HeapUse) (h0 : s0.Initial) (hR : L.Reachable s0.heap.kernel.mmu)
    (hrun : Run (guarded (HeapTrace.Served L) (HeapUses L)) s0 us s) (b : LiveBlock)
    (hb : b ∈ s.live) (newSize origin : Nat)
    (hb' : s.heap.kernel.size b.bucket < newSize →
      b.size ≤ s.heap.kernel.size b.bucket ∧ s.Serves L newSize) :
    s.ReallocKeeps L b newSize origin := by
  obtain ⟨rs, free, hi⟩ := useInv_of_run hL h0 hR hrun
  by_cases hkeep : newSize ≤ s.heap.kernel.size b.bucket
  · exact reallocKeeps_keep hkeep origin
  · obtain ⟨hsize, hs⟩ := hb' (Nat.not_le.mp hkeep)
    exact hi.reallocKeeps_move hL hb hs hsize (Nat.not_le.mp hkeep) origin

theorem use_write_live (L : Layout) (s : HeapTrace) (p v : Nat) :
    (s.use L (.write p v)).live = s.live := rfl

/-- `malloc` as a use of the heap. -/
theorem heapUses_malloc {L : Layout} {s : HeapTrace} {size : Nat} (hlt : size < 2 ^ 64) :
    HeapUses L s (.call (.malloc size 0)) (s.allocated L size 0) :=
  ⟨⟨trivial, fun _ h => Option.some.inj h ▸ hlt⟩, (@step_malloc memcpy L s size 0).symm⟩

/-- With the MMU off, and where nothing is taken from a free list, a small enough request is
    served as it should be. -/
theorem serves_of_off {L : Layout} {s : HeapTrace} {size : Nat}
    (hsmall : size + HEADER_SIZE + PAGE_SIZE - 1 < 2 ^ 64) (hoff : s.heap.kernel.mmu = false)
    (hpages : ∀ n ∈ requestedPages s.heap size, 2 * n ≤ L.heapBottom)
    (hfree : ∀ c, sizeClass size = some c → s.heap.free c = 0) : s.Serves L size :=
  ⟨hsmall, fun n hn => ⟨hpages n hn, fun hon => by rw [hoff] at hon; exact (nomatch hon)⟩,
    fun c hc hne => absurd (hfree c hc) hne⟩

theorem realloc_keeps_first : ∃ b ∈ (HeapTrace.taken 1).live,
    b.range = (0x80444020, 65536) ∧ (HeapTrace.taken 1).ReallocKeeps .board b 70000 0 := by
  have hlive : (HeapTrace.taken 1).live.head?.map LiveBlock.range = some (0x80444020, 65536) := by
    decide +kernel
  obtain ⟨b, hhead, hrange⟩ := Option.map_eq_some_iff.mp hlive
  have hserved : HeapTrace.blank.Served .board (.call (.malloc 65536 0)) := by
    intro size hsize
    obtain rfl := Option.some.inj hsize
    exact serves_of_off (by decide) rfl (by decide +kernel) fun _ _ => rfl
  have hserves : (HeapTrace.taken 1).Serves .board 70000 :=
    serves_of_off (by decide) (by decide +kernel) (by decide +kernel) fun c hc =>
      absurd (hc.symm.trans (sizeClass_eq_none.mpr (by decide))) nofun
  have hsize : (HeapTrace.taken 1).heap.kernel.size 0x80444000 = 65536 := by decide +kernel
  obtain ⟨hstart, hlen⟩ := Prod.mk.inj hrange
  have hbucket : b.bucket = 0x80444000 := Nat.add_right_cancel hstart
  refine ⟨b, List.mem_of_mem_head? hhead, hrange, ?_⟩
  have hstep : HeapUses .board .blank (.call (.malloc 65536 0)) (.taken 1) :=
    heapUses_malloc (by decide)
  exact realloc_keeps_contents .board Layout.board_wellFormed .blank (.taken 1)
    [.call (.malloc 65536 0)] HeapTrace.blank_initial (fun hon => (nomatch hon))
    (.cons ⟨hserved, hstep⟩ (.nil _)) b (List.mem_of_mem_head? hhead) 70000 0
    fun _ => ⟨by rw [hbucket, hsize, hlen], hserves⟩

/-- **The fifth block of 65536 bytes** has no size in its header; when it is moved, the first
    byte in it is lost. -/
theorem realloc_loses_contents : ∃ s, Run (HeapUses .board) .blank
      [.call (.malloc 65536 0), .call (.malloc 65536 0), .call (.malloc 65536 0),
        .call (.malloc 65536 0), .call (.malloc 65536 0), .write 0x804840a0 7] s ∧
    ∃ b ∈ s.live, b.range = (0x804840a0, 65536) ∧ ¬ s.ReallocKeeps .board b 70000 0 := by
  have hstep : ∀ i < 5, HeapUses .board (.taken i) (.call (.malloc 65536 0)) (.taken (i + 1)) := by
    intro i _
    rw [HeapTrace.taken, HeapTrace.taken, Function.iterate_succ_apply']
    exact heapUses_malloc (by decide)
  have hlive : (HeapTrace.taken 5).live.head?.map LiveBlock.range = some (0x804840a0, 65536) := by
    decide +kernel
  obtain ⟨b, hb, hrange⟩ : ∃ b ∈ (HeapTrace.taken 5).live, b.range = (0x804840a0, 65536) := by
    obtain ⟨b, hhead, hrange⟩ := Option.map_eq_some_iff.mp hlive
    exact ⟨b, List.mem_of_mem_head? hhead, hrange⟩
  have hwrite : HeapUses .board (.taken 5) (.write 0x804840a0 7)
      ((HeapTrace.taken 5).use .board (.write 0x804840a0 7)) :=
    ⟨⟨b, hb, by rw [hrange], by rw [hrange]; decide⟩, rfl⟩
  refine ⟨_, .cons (hstep 0 (by decide)) (.cons (hstep 1 (by decide)) (.cons (hstep 2 (by decide))
    (.cons (hstep 3 (by decide)) (.cons (hstep 4 (by decide)) (.cons hwrite (.nil _)))))), b,
    by rw [use_write_live]; exact hb, hrange, fun hkeeps => ?_⟩
  have hmoved := hkeeps.moved
  obtain ⟨_, hsize⟩ := Prod.mk.inj hrange
  rw [hrange, hsize] at hmoved
  have hnew : (realloc .board 0x804840a0 70000 0
      ((HeapTrace.taken 5).use .board (.write 0x804840a0 7)).heap).1 = 0x80485020 := by
    decide +kernel
  have hbefore : ((HeapTrace.taken 5).use .board (.write 0x804840a0 7)).heap.kernel.byte
      0x804840a0 = 7 := by decide +kernel
  have hafter : (realloc .board 0x804840a0 70000 0
      ((HeapTrace.taken 5).use .board (.write 0x804840a0 7)).heap).2.kernel.byte
      0x80485020 = 0 := by decide +kernel
  have hpos : 0 < min 65536 70000 := by norm_num
  dsimp only at hmoved
  rw [hnew] at hmoved
  have hfirst := hmoved (Nat.succ_ne_zero _) 0 hpos
  rw [Nat.add_zero, Nat.add_zero, hbefore, hafter] at hfirst
  exact absurd hfirst (by decide)

end IloPali
