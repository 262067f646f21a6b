import IloPali.HeapPages
import Mathlib.Data.List.Perm.Basic

/-!
# The lists of the heap

What holds between any two steps of `malloc`, `free` and `realloc`: the used list and
the seven free lists are made of all the blocks in the pages of the heap, each block in one
of them.  The invariant has a place for blocks that are in no list at the moment,
so that each part of a call is one short lemma.
-/

namespace IloPali

open ByteMemory LinkedList

/-! ## 1. The lists -/

/-- The free lists, one after the other. -/
def SizeClass.all : List SizeClass :=
  [.free16, .free64, .free256, .free1024, .free4096, .free16384, .free65536]

theorem SizeClass.mem_all (c : SizeClass) : c ∈ SizeClass.all := by
  cases c <;> decide

/-- All free blocks. -/
def allFree (free : SizeClass → List Nat) : List Nat := SizeClass.all.flatMap free

/-- **The invariant of the heap.**  The used list consists of the blocks `used`, the free lists
    of the blocks `free c`; these and the blocks `loose` are all blocks, each once. -/
structure HeapInv (L : Layout) (h : Heap) (rs : List PageRun) (used : List Nat)
    (free : SizeClass → List Nat) (loose : List Nat) : Prop where
  pages : HeapPages L h.kernel rs
  usedChain : Chain 0 h.kernel.next h.used used
  usedBack : Back h.kernel.prev 0 used
  freeChain : ∀ c, Chain 0 h.kernel.next (h.free c) (free c)
  all : (loose ++ used ++ allFree free).Perm (buckets L h.kernel.mmu rs)
  fits : ∀ c, ∀ b ∈ free c, h.kernel.size b = c.size ∨ h.kernel.size b = 0

theorem flatMap_update_cons {α β : Type} [DecidableEq α] {l : List α} (hl : l.Nodup) {a : α}
    (ha : a ∈ l) (f : α → List β) (b : β) (t : List β) :
    (l.flatMap (Function.update f a (b :: t))).Perm (b :: l.flatMap (Function.update f a t)) := by
  induction l with
  | nil => exact (nomatch ha)
  | cons x l ih =>
    rw [List.nodup_cons] at hl
    rw [List.flatMap_cons, List.flatMap_cons]
    rcases List.mem_cons.mp ha with rfl | hmem
    · have hrest : ∀ t, l.flatMap (Function.update f a t) = l.flatMap f := fun t => by
        apply List.flatMap_congr
        intro y hy
        rw [Function.update_of_ne]
        rintro rfl
        exact hl.1 hy
      rw [hrest, hrest, Function.update_self, Function.update_self, List.cons_append]
    · have hne : x ≠ a := by
        rintro rfl
        exact hl.1 hmem
      rw [Function.update_of_ne hne, Function.update_of_ne hne]
      exact ((ih hl.2 hmem).append_left (f x)).trans List.perm_middle

theorem allFree_update (free : SizeClass → List Nat) (c : SizeClass) (b : Nat) (t : List Nat) :
    (allFree (Function.update free c (b :: t))).Perm
      (b :: allFree (Function.update free c t)) :=
  flatMap_update_cons (by decide) c.mem_all free b t

theorem mem_allFree {free : SizeClass → List Nat} {b : Nat} :
    b ∈ allFree free ↔ ∃ c, b ∈ free c := by
  rw [allFree, List.mem_flatMap]
  exact ⟨fun ⟨c, _, hb⟩ => ⟨c, hb⟩, fun ⟨c, hb⟩ => ⟨c, c.mem_all, hb⟩⟩

namespace HeapInv

variable {L : Layout} (hL : L.WellFormed) {h : Heap} {rs : List PageRun} {used : List Nat}
  {free : SizeClass → List Nat} {loose : List Nat} {b : Nat}

/-- The lock is no part of the invariant. -/
theorem lock (hi : HeapInv L h rs used free loose) (taken : Bool) :
    HeapInv L { h with mutating := taken } rs used free loose :=
  ⟨hi.pages, hi.usedChain, hi.usedBack, hi.freeChain, hi.all, hi.fits⟩

theorem nodup (hi : HeapInv L h rs used free loose) : (loose ++ used ++ allFree free).Nodup :=
  hi.all.nodup_iff.mpr hi.pages.buckets_nodup

theorem mem_used (hi : HeapInv L h rs used free loose) (hb : b ∈ used) :
    b ∈ buckets L h.kernel.mmu rs :=
  hi.all.mem_iff.mp (List.mem_append_left _ (List.mem_append_right _ hb))

theorem mem_loose (hi : HeapInv L h rs used free loose) (hb : b ∈ loose) :
    b ∈ buckets L h.kernel.mmu rs :=
  hi.all.mem_iff.mp (List.mem_append_left _ (List.mem_append_left _ hb))

theorem mem_free (hi : HeapInv L h rs used free loose) {c : SizeClass} (hb : b ∈ free c) :
    b ∈ buckets L h.kernel.mmu rs :=
  hi.all.mem_iff.mp (List.mem_append_right _ (mem_allFree.mpr ⟨c, hb⟩))

theorem not_used_of_loose (hi : HeapInv L h rs used free loose) (hb : b ∈ loose) : b ∉ used :=
  fun hcon => List.disjoint_of_nodup_append hi.nodup.of_append_left hb hcon

theorem not_free_of_loose (hi : HeapInv L h rs used free loose) (hb : b ∈ loose) (c : SizeClass) :
    b ∉ free c := fun hcon =>
  List.disjoint_of_nodup_append hi.nodup (List.mem_append_left _ hb) (mem_allFree.mpr ⟨c, hcon⟩)

theorem not_free_of_used (hi : HeapInv L h rs used free loose) (hb : b ∈ used) (c : SizeClass) :
    b ∉ free c := fun hcon =>
  List.disjoint_of_nodup_append hi.nodup (List.mem_append_right _ hb) (mem_allFree.mpr ⟨c, hcon⟩)

theorem not_free_of_free (hi : HeapInv L h rs used free loose) {c c' : SizeClass} (hne : c ≠ c')
    (hb : b ∈ free c) : b ∉ free c' := by
  have hpair := (List.nodup_flatMap.mp (List.Nodup.of_append_right hi.nodup)).2
  have hsymm : Std.Symm (Function.onFun List.Disjoint free) := ⟨fun _ _ h _ hb ha => h ha hb⟩
  exact hpair.forall c.mem_all c'.mem_all hne hb

/-- A used list or a free list begins with a block. -/
theorem head_used (hi : HeapInv L h rs used free loose) (hne : h.used ≠ 0) :
    h.used ∈ used := by
  obtain ⟨t, rfl, _⟩ := hi.usedChain.exists_cons hne
  exact List.mem_cons_self

theorem head_free (hi : HeapInv L h rs used free loose) {c : SizeClass} (hne : h.free c ≠ 0) :
    h.free c ∈ free c := by
  obtain ⟨t, heq, _⟩ := (hi.freeChain c).exists_cons hne
  rw [heq]
  exact List.mem_cons_self

end HeapInv

/-! ## 2. Moving a block from one list to another -/

section Moves

variable {L : Layout} (hL : L.WellFormed) {h : Heap} {rs : List PageRun} {used : List Nat}
  {free : SizeClass → List Nat} {loose : List Nat} {b : Nat}
include hL

/-- What a call that rewrites headers does to the lists it does not touch. -/
theorem HeapInv.rewrites {h' : Heap} {f : Nat → Header} (hi : HeapInv L h rs used free loose)
    (hw : Rewrites (buckets L h.kernel.mmu rs) h.kernel h'.kernel f)
    (hsize : ∀ x, (f x).size = h.kernel.size x) :
    HeapPages L h'.kernel rs ∧ Keeps L rs h.kernel h'.kernel ∧
      (∀ x ∈ buckets L h.kernel.mmu rs, h'.kernel.next x = (f x).next ∧
        h'.kernel.prev x = (f x).prev ∧ h'.kernel.size x = h.kernel.size x) :=
  ⟨hi.pages.rewrites hL hw fun x _ => hsize x,
    hi.pages.toRunsPlaced.keeps_rewrites hL hw fun x _ => hsize x, fun x hx =>
    ⟨Kernel.next_of_header (hw.header x hx), Kernel.prev_of_header (hw.header x hx),
      (Kernel.size_of_header (hw.header x hx)).trans (hsize x)⟩⟩

omit hL in
/-- The used list with a new head. -/
theorem linkUsed_rewrites {N : List Nat} (hN : HeadersApart h.kernel.mmu N) (hb : b ∈ N)
    (hused : h.used ≠ 0 → h.used ∈ N) (origin : Nat) :
    ∃ f, Rewrites N h.kernel (linkUsed b origin h).kernel f ∧
      (∀ x, (f x).next = if x = b then h.used else h.kernel.next x) ∧
      (∀ x, x ≠ 0 → (f x).prev =
        if x = b then 0 else if x = h.used then b else h.kernel.prev x) ∧
      ∀ x, (f x).size = h.kernel.size x := by
  have hlt : h.used < 2 ^ 64 := by
    by_cases hz : h.used = 0
    · rw [hz]
      decide
    · exact hN.lt _ (hused hz)
  have hw := ((Rewrites.refl N h.kernel).setOrigin hN hb origin).setNext hN hb hlt
  unfold linkUsed
  dsimp only
  by_cases hz : h.used = 0
  · rw [if_neg (not_not.mpr hz)]
    refine ⟨_, hw.setPrev hN hb (by decide), fun x => ?_, fun x hx => ?_, fun x => ?_⟩
    · simp [Kernel.header]
    · simp [Kernel.header, hz, hx]
    · simp [Kernel.header]
  · rw [if_pos hz]
    refine ⟨_, (hw.setPrev hN (hused hz) (hN.lt b hb)).setPrev hN hb (by decide),
      fun x => ?_, fun x _ => ?_, fun x => ?_⟩
    · simp [Kernel.header]
    · simp [Kernel.header]
    · simp [Kernel.header]

theorem HeapInv.linkUsed (hi : HeapInv L h rs used free (b :: loose)) (origin : Nat) :
    HeapInv L (linkUsed b origin h) rs (b :: used) free loose ∧
      Keeps L rs h.kernel (IloPali.linkUsed b origin h).kernel := by
  have hb := hi.mem_loose List.mem_cons_self
  have hbu : b ∉ used := hi.not_used_of_loose List.mem_cons_self
  obtain ⟨f, hw, hnext, hprev, hsize⟩ := @linkUsed_rewrites h b _ (hi.pages.headersApart hL) hb
    (fun hz => hi.mem_used (hi.head_used hz)) origin
  obtain ⟨hpages, hkeep, hfields⟩ := hi.rewrites hL hw hsize
  have hne : ∀ x, x ∈ used → x ≠ b := fun x hx heq => hbu (heq ▸ hx)
  have hold : ∀ x ∈ buckets L h.kernel.mmu rs, x ≠ b →
      (IloPali.linkUsed b origin h).kernel.next x = h.kernel.next x := by
    intro x hx hxb
    rw [(hfields x hx).1, hnext, if_neg hxb]
  have hback : ∀ x ∈ buckets L h.kernel.mmu rs, (IloPali.linkUsed b origin h).kernel.prev x =
      if x = b then 0 else if x = h.used then b else h.kernel.prev x := fun x hx =>
    (hfields x hx).2.1.trans (hprev x (hi.pages.ne_zero hL hx))
  refine ⟨⟨hpages, ?_, ?_, fun c => ?_, ?_, fun c x hx => ?_⟩, hkeep⟩
  · apply hi.usedChain.push (hi.pages.ne_zero hL hb)
    · rw [(hfields b hb).1, hnext, if_pos rfl]
    · exact fun x hx => hold x (hi.mem_used hx) (hne x hx)
  · apply Back.push hi.usedChain hi.usedBack
    · rw [hback b hb, if_pos rfl]
    · intro hz
      have hmem := hi.head_used hz
      rw [hback _ (hi.mem_used hmem), if_neg (hne _ hmem), if_pos rfl]
    · intro x hx hxu
      rw [hback x (hi.mem_used hx), if_neg (hne x hx), if_neg hxu]
  · apply (hi.freeChain c).congr
    intro x hx
    apply hold x (hi.mem_free hx)
    rintro rfl
    exact hi.not_free_of_loose List.mem_cons_self c hx
  · rw [hkeep.mmu]
    refine List.Perm.trans ?_ hi.all
    exact (List.perm_middle.append_right _)
  · rw [(hfields x (hi.mem_free hx)).2.2]
    exact hi.fits c x hx

omit hL in
/-- The used list without one of its blocks. -/
theorem unlinkUsed_rewrites {N : List Nat} (hN : HeadersApart h.kernel.mmu N) (hb : b ∈ N)
    (hb0 : b ≠ 0) (hp : h.kernel.prev b ≠ 0 → h.kernel.prev b ∈ N) (hpb : h.kernel.prev b ≠ b)
    (hn : h.kernel.next b ≠ 0 → h.kernel.next b ∈ N) :
    ∃ f, Rewrites N h.kernel (unlinkUsed b h).kernel f ∧
      (∀ x, x ≠ 0 → x ≠ b → (f x).next =
        if x = h.kernel.prev b then h.kernel.next b else h.kernel.next x) ∧
      (∀ x, x ≠ 0 → x ≠ b → (f x).prev =
        if x = h.kernel.next b then h.kernel.prev b else h.kernel.prev x) ∧
      (∀ x, (f x).size = h.kernel.size x) ∧
      (unlinkUsed b h).used = if b = h.used then h.kernel.next b else h.used := by
  have hpn : h.kernel.next b < 2 ^ 64 := load_lt _ _ _
  have hpp : h.kernel.prev b < 2 ^ 64 := load_lt _ _ _
  -- the node before `b` skips it
  obtain ⟨k1, f1, hk1, hw1, hnext1, hprev1, hsize1⟩ : ∃ k1 f1,
      k1 = (if h.kernel.prev b ≠ 0 then h.kernel.setNext (h.kernel.prev b) (h.kernel.next b)
        else h.kernel) ∧ Rewrites N h.kernel k1 f1 ∧
      (∀ x, x ≠ 0 → (f1 x).next =
        if x = h.kernel.prev b then h.kernel.next b else h.kernel.next x) ∧
      (∀ x, (f1 x).prev = h.kernel.prev x) ∧ ∀ x, (f1 x).size = h.kernel.size x := by
    by_cases hz : h.kernel.prev b = 0
    · rw [if_neg (not_not.mpr hz)]
      refine ⟨_, _, rfl, Rewrites.refl N h.kernel, fun x hx => ?_, fun _ => rfl, fun _ => rfl⟩
      rw [hz, if_neg hx]
      rfl
    · rw [if_pos hz]
      refine ⟨_, _, rfl, (Rewrites.refl N h.kernel).setNext hN (hp hz) hpn, fun x _ => ?_,
        fun x => ?_, fun x => ?_⟩
      · simp [Kernel.header]
      · simp [Kernel.header]
      · simp [Kernel.header]
  have hf1 : (f1 b).next = h.kernel.next b := by
    rw [hnext1 b hb0, if_neg fun heq => hpb heq.symm]
  have hnb : k1.next b = h.kernel.next b := (Kernel.next_of_header (hw1.header b hb)).trans hf1
  have hpb1 : k1.prev b = h.kernel.prev b :=
    (Kernel.prev_of_header (hw1.header b hb)).trans (hprev1 b)
  -- the node after `b` links back over it
  obtain ⟨k2, f2, hk2, hw2, hnext2, hprev2, hsize2⟩ : ∃ k2 f2,
      k2 = (if k1.next b ≠ 0 then k1.setPrev (k1.next b) (k1.prev b) else k1) ∧
      Rewrites N h.kernel k2 f2 ∧ (∀ x, (f2 x).next = (f1 x).next) ∧
      (∀ x, x ≠ 0 → (f2 x).prev =
        if x = h.kernel.next b then h.kernel.prev b else h.kernel.prev x) ∧
      ∀ x, (f2 x).size = h.kernel.size x := by
    rw [hnb, hpb1]
    by_cases hz : h.kernel.next b = 0
    · rw [if_neg (not_not.mpr hz)]
      refine ⟨_, f1, rfl, hw1, fun _ => rfl, fun x hx => ?_, hsize1⟩
      rw [hz, if_neg hx, hprev1]
    · rw [if_pos hz]
      refine ⟨_, _, rfl, hw1.setPrev hN (hn hz) hpp, fun x => ?_, fun x _ => ?_, fun x => ?_⟩
      · simp
      · simp [hprev1]
      · simp [hsize1]
  have hnb2 : k2.next b = h.kernel.next b :=
    (Kernel.next_of_header (hw2.header b hb)).trans ((hnext2 b).trans hf1)
  unfold unlinkUsed
  dsimp only
  rw [← hk1, ← hk2]
  refine ⟨_, (hw2.setPrev hN hb (by decide)).setNext hN hb (by decide), fun x hx hxb => ?_,
    fun x hx hxb => ?_, fun x => ?_, ?_⟩
  · simp [hxb, hnext2, hnext1 x hx]
  · simp [hxb, hprev2 x hx]
  · simp [hsize2]
  · by_cases hu : b = h.used
    · rw [if_pos hu, if_pos hu, ← hu, hnb2]
    · rw [if_neg hu, if_neg hu]

theorem HeapInv.unlinkUsed {xs ys : List Nat}
    (hi : HeapInv L h rs (xs ++ b :: ys) free loose) :
    HeapInv L (unlinkUsed b h) rs (xs ++ ys) free (b :: loose) ∧
      Keeps L rs h.kernel (IloPali.unlinkUsed b h).kernel := by
  have hmem : b ∈ xs ++ b :: ys := List.mem_append_right xs List.mem_cons_self
  have hb := hi.mem_used hmem
  have hsub : ∀ x ∈ xs ++ ys, x ∈ xs ++ b :: ys := fun x hx =>
    List.mem_append.mpr ((List.mem_append.mp hx).imp_right (List.mem_cons_of_mem b))
  have hne : ∀ x ∈ xs ++ ys, x ≠ b := by
    rintro x hx rfl
    have hnodup := hi.usedChain.nodup
    rw [List.nodup_middle, List.nodup_cons] at hnodup
    exact hnodup.1 hx
  have hprevmem := hi.usedBack.prev_mem
  have hprev0 : h.kernel.prev b ≠ 0 → h.kernel.prev b ∈ xs ++ ys := by
    intro hz
    rcases hprevmem with ⟨_, hp⟩ | ⟨_, hp⟩
    · exact absurd hp hz
    · exact List.mem_append_left ys hp
  obtain ⟨f, hw, hnext, hprev, hsize, hused⟩ := @unlinkUsed_rewrites h b _
    (hi.pages.headersApart hL) hb (hi.pages.ne_zero hL hb)
    (fun hz => hi.mem_used (hsub _ (hprev0 hz)))
    (fun heq => by
      have hz : h.kernel.prev b ≠ 0 := by
        rw [heq]
        exact hi.pages.ne_zero hL hb
      exact hne _ (hprev0 hz) heq)
    (fun hz => by
      rcases hi.usedChain.next_mem with hnull | hnext
      · exact absurd hnull hz
      · exact hi.mem_used (hsub _ (List.mem_append_right xs hnext)))
  obtain ⟨hpages, hkeep, hfields⟩ := hi.rewrites hL hw hsize
  have hfree : ∀ c, ∀ x ∈ free c, x ≠ b := by
    rintro c x hx rfl
    exact hi.not_free_of_used hmem c hx
  have hnext' : ∀ x ∈ buckets L h.kernel.mmu rs, x ≠ b →
      (IloPali.unlinkUsed b h).kernel.next x =
        if x = h.kernel.prev b then h.kernel.next b else h.kernel.next x := fun x hx hxb =>
    (hfields x hx).1.trans (hnext x (hi.pages.ne_zero hL hx) hxb)
  have hprev' : ∀ x ∈ buckets L h.kernel.mmu rs, x ≠ b →
      (IloPali.unlinkUsed b h).kernel.prev x =
        if x = h.kernel.next b then h.kernel.prev b else h.kernel.prev x := fun x hx hxb =>
    (hfields x hx).2.1.trans (hprev x (hi.pages.ne_zero hL hx) hxb)
  have hu : ∀ x ∈ xs ++ ys, x ∈ buckets L h.kernel.mmu rs := fun x hx => hi.mem_used (hsub x hx)
  refine ⟨⟨hpages, ?_, ?_, fun c => ?_, ?_, fun c x hx => ?_⟩, hkeep⟩
  · rw [hused]
    apply hi.usedChain.unlink hi.usedBack
    · exact fun hcon => hi.usedChain.ne_null 0 hcon rfl
    · intro x hx heq
      rw [hnext' x (hu x hx) (hne x hx), if_pos heq]
    · intro x hx hxp
      rw [hnext' x (hu x hx) (hne x hx), if_neg hxp]
  · apply hi.usedBack.unlink hi.usedChain
    · intro x hx heq
      rw [hprev' x (hu x hx) (hne x hx), if_pos heq]
    · intro x hx hxn
      rw [hprev' x (hu x hx) (hne x hx), if_neg hxn]
  · apply (hi.freeChain c).congr
    intro x hx
    rw [hnext' x (hi.mem_free hx) (hfree c x hx), if_neg]
    intro heq
    have hz : h.kernel.prev b ≠ 0 := heq ▸ hi.pages.ne_zero hL (hi.mem_free hx)
    exact hi.not_free_of_used (hsub _ (hprev0 hz)) c (heq ▸ hx)
  · rw [hkeep.mmu]
    refine List.Perm.trans ?_ hi.all
    apply List.Perm.append_right
    rw [List.cons_append, ← List.append_assoc, ← List.append_assoc]
    exact List.perm_middle.symm
  · rw [(hfields x (hi.mem_free hx)).2.2]
    exact hi.fits c x hx

omit hL in
/-- A block becomes the head of a free list. -/
theorem pushFree_rewrites {N : List Nat} (hN : HeadersApart h.kernel.mmu N) (hb : b ∈ N)
    {c : SizeClass} (hfree : h.free c ≠ 0 → h.free c ∈ N) :
    ∃ f, Rewrites N h.kernel (pushFree c b h).kernel f ∧
      (∀ x, (f x).next = if x = b then h.free c else h.kernel.next x) ∧
      (∀ x, x ≠ h.free c → (f x).prev = h.kernel.prev x) ∧
      ∀ x, (f x).size = h.kernel.size x := by
  have hlt : h.free c < 2 ^ 64 := by
    by_cases hz : h.free c = 0
    · rw [hz]
      decide
    · exact hN.lt _ (hfree hz)
  unfold pushFree
  dsimp only
  by_cases hz : h.free c = 0
  · rw [if_neg (not_not.mpr hz)]
    refine ⟨_, (Rewrites.refl N h.kernel).setNext hN hb hlt, fun x => ?_, fun x _ => ?_,
      fun x => ?_⟩
    · simp [Kernel.header]
    · simp [Kernel.header]
    · simp [Kernel.header]
  · rw [if_pos hz]
    refine ⟨_, ((Rewrites.refl N h.kernel).setPrev hN (hfree hz) (hN.lt b hb)).setNext hN hb hlt,
      fun x => ?_, fun x hx => ?_, fun x => ?_⟩
    · simp [Kernel.header]
    · simp [Kernel.header, hx]
    · simp [Kernel.header]

theorem HeapInv.pushFree (hi : HeapInv L h rs used free (b :: loose)) {c : SizeClass}
    (hsize : h.kernel.size b = c.size ∨ h.kernel.size b = 0) :
    HeapInv L (pushFree c b h) rs used (Function.update free c (b :: free c)) loose ∧
      Keeps L rs h.kernel (IloPali.pushFree c b h).kernel := by
  have hb := hi.mem_loose List.mem_cons_self
  have hbu : b ∉ used := hi.not_used_of_loose List.mem_cons_self
  have hbf : ∀ c, b ∉ free c := hi.not_free_of_loose List.mem_cons_self
  obtain ⟨f, hw, hnext, hprev, hsame⟩ := @pushFree_rewrites h b _ (hi.pages.headersApart hL) hb c
    fun hz => hi.mem_free (hi.head_free hz)
  obtain ⟨hpages, hkeep, hfields⟩ := hi.rewrites hL hw hsame
  have hold : ∀ x ∈ buckets L h.kernel.mmu rs, x ≠ b →
      (IloPali.pushFree c b h).kernel.next x = h.kernel.next x := by
    intro x hx hxb
    rw [(hfields x hx).1, hnext, if_neg hxb]
  refine ⟨⟨hpages, ?_, ?_, fun c' => ?_, ?_, fun c' x hx => ?_⟩, hkeep⟩
  · apply hi.usedChain.congr
    exact fun x hx => hold x (hi.mem_used hx) fun heq => hbu (heq ▸ hx)
  · apply hi.usedBack.congr
    intro x hx
    rw [(hfields x (hi.mem_used hx)).2.1, hprev]
    rintro rfl
    have hz := hi.pages.ne_zero hL (hi.mem_used hx)
    exact hi.not_free_of_used hx c (hi.head_free hz)
  · by_cases hc : c' = c
    · subst hc
      simp only [IloPali.pushFree, Function.update_self]
      apply (hi.freeChain c').push (hi.pages.ne_zero hL hb)
      · have hlink := (hfields b hb).1.trans (hnext b)
        rwa [if_pos rfl] at hlink
      · exact fun x hx => hold x (hi.mem_free hx) fun heq => hbf c' (heq ▸ hx)
    · simp only [IloPali.pushFree, Function.update_of_ne hc]
      apply (hi.freeChain c').congr
      exact fun x hx => hold x (hi.mem_free hx) fun heq => hbf c' (heq ▸ hx)
  · rw [hkeep.mmu]
    refine List.Perm.trans ?_ hi.all
    refine ((allFree_update free c b (free c)).append_left _).trans ?_
    rw [Function.update_eq_self]
    exact List.perm_middle
  · have hx' : x = b ∧ c' = c ∨ x ∈ free c' := by
      by_cases hc : c' = c
      · subst hc
        rw [Function.update_self, List.mem_cons] at hx
        exact hx.imp_left fun heq => ⟨heq, rfl⟩
      · rw [Function.update_of_ne hc] at hx
        exact Or.inr hx
    rcases hx' with ⟨rfl, rfl⟩ | hx
    · rw [(hfields x hb).2.2]
      exact hsize
    · rw [(hfields x (hi.mem_free hx)).2.2]
      exact hi.fits c' x hx

omit hL in
/-- Taking the head of a free list. -/
theorem HeapInv.popFree (hi : HeapInv L h rs used free loose) {c : SizeClass}
    (hne : h.free c ≠ 0) : ∃ t, free c = h.free c :: t ∧
      HeapInv L { h with free := Function.update h.free c (h.kernel.next (h.free c)) } rs used
        (Function.update free c t) (h.free c :: loose) := by
  obtain ⟨t, heq, hrest⟩ := (hi.freeChain c).exists_cons hne
  refine ⟨t, heq, hi.pages, hi.usedChain, hi.usedBack, fun c' => ?_, ?_, fun c' x hx => ?_⟩
  · by_cases hc : c' = c
    · subst hc
      simp only [Function.update_self]
      exact hrest
    · simp only [Function.update_of_ne hc]
      exact hi.freeChain c'
  · have hperm := allFree_update free c (h.free c) t
    rw [← heq, Function.update_eq_self] at hperm
    refine List.Perm.trans ?_ hi.all
    exact List.perm_middle.symm.trans (hperm.symm.append_left _)
  · apply hi.fits c' x
    by_cases hc : c' = c
    · subst hc
      rw [Function.update_self] at hx
      rw [heq]
      exact List.mem_cons_of_mem _ hx
    · rwa [Function.update_of_ne hc] at hx

end Moves


/-! ## 3. Filling a free list -/

theorem buckets_cons (L : Layout) (mmu : Bool) (r : PageRun) (rs : List PageRun) :
    buckets L mmu (r :: rs) = (r.pieces L mmu).map Prod.fst ++ buckets L mmu rs := by
  rw [buckets, pieces, List.flatMap_cons, List.map_append]
  rfl

/-- The slots of a region. -/
def SizeClass.slots (c : SizeClass) (data : Nat) : List Nat :=
  (List.range (c.slotCount + 1)).map (c.slot data)

theorem SizeClass.pieces_fst (c : SizeClass) (data : Nat) :
    (c.pieces data).map Prod.fst = c.slots data := by
  rw [SizeClass.pieces, List.map_map]
  rfl

theorem SizeClass.mem_slots {c : SizeClass} {data b : Nat} :
    b ∈ c.slots data ↔ ∃ j, j ≤ c.slotCount ∧ b = c.slot data j := by
  simp only [SizeClass.slots, List.mem_map, List.mem_range, Nat.lt_succ_iff, eq_comm]

theorem allFree_fill {free : SizeClass → List Nat} {c : SizeClass} (hempty : free c = [])
    (l : List Nat) : (allFree (Function.update free c l)).Perm (l ++ allFree free) := by
  induction l with
  | nil => rw [← hempty, Function.update_eq_self, hempty, List.nil_append]
  | cons b l ih => exact (allFree_update free c b l).trans (ih.cons b)

section Refill

variable {L : Layout} (hL : L.WellFormed) {h : Heap} {rs : List PageRun} {used : List Nat}
  {free : SizeClass → List Nat} {loose : List Nat}

/-- A new run beside those of the heap. -/
theorem RunsPlaced.cons {mmu : Bool} (h : RunsPlaced L mmu rs) {r : PageRun} (hr : r.Placed L)
    (hapart : ∀ r' ∈ rs, r'.page + r'.count ≤ r.page ∨ r.page + r.count ≤ r'.page) :
    RunsPlaced L mmu (r :: rs) :=
  ⟨h.reach, fun r' hr' => by
    rcases List.mem_cons.mp hr' with rfl | hr'
    · exact hr
    · exact h.placed r' hr',
    List.pairwise_cons.mpr ⟨fun r' hr' => (hapart r' hr').symm, h.apart⟩⟩

/-- A header in pages that were just handed out is clear. -/
theorem header_of_grabbed {k k' : Kernel} {i count : Nat} (hg : Grabbed L i count k k')
    {b : Nat} (hdir : Direct k'.mmu b) (h1 : L.pageAddr i ≤ physOf k'.mmu b)
    (h2 : physOf k'.mmu b + HEADER_SIZE ≤ L.pageAddr (i + count)) : k'.header b = ⟨0, 0, 0⟩ := by
  have hfield : ∀ j, j + 8 ≤ HEADER_SIZE → k'.load 8 (b + j) = 0 := by
    intro j hj
    rw [Kernel.load, hdir.physOf_add]
    refine load_of_zero fun x hx hlt => hg.zero x ⟨?_, ?_⟩
    · omega
    · omega
  exact Header.ext (hfield 0 (by decide)) (hfield 8 (by decide)) (hfield 16 (by decide))

include hL

/-- Formatting a region that was just handed out. -/
theorem RunsPlaced.format {k k1 : Kernel} {r : PageRun} {c : SizeClass}
    (h : RunsPlaced L k1.mmu (r :: rs)) (hc : r.cls = some c)
    (hg : Grabbed L r.page r.count k k1) :
    ∃ f, Rewrites (buckets L k1.mmu (r :: rs)) k1
        (freeBucketsFormatUnused (r.start L k1.mmu) c.size FALLBACK_PAGE_COUNT k1) f ∧
      Chain 0 (fun b => (f b).next) (r.start L k1.mmu) (c.slots (r.start L k1.mmu)) ∧
      (∀ i, i < c.slotCount → (f (c.slot (r.start L k1.mmu) i)).size = c.size) ∧
      (f (c.slot (r.start L k1.mmu) c.slotCount)).size = 0 ∧
      ∀ b, b ∉ c.slots (r.start L k1.mmu) → f b = k1.header b := by
  have hmem : r ∈ r :: rs := List.mem_cons_self
  have hplaced := h.placed r hmem
  obtain ⟨hdir, hpos, hend, hphys⟩ := PageRun.start_spec h.reach hL hplaced
  have hcount := hplaced.region c hc
  rw [hcount, Nat.mul_comm] at hend
  have hclear : k1.header (c.slot (r.start L k1.mmu) c.slotCount) = ⟨0, 0, 0⟩ := by
    have hheader := c.slot_header (le_refl _)
    have htail : physOf k1.mmu (r.start L k1.mmu + c.slotCount * c.slotSize) =
        L.pageAddr r.page + c.slotCount * c.slotSize := by
      rw [hdir.physOf_add, hphys]
    apply header_of_grabbed hg (hdir.add _)
    · rw [htail]
      exact Nat.le_add_right _ _
    · rw [htail, hcount, pageAddr_eq, pageAddr_eq]
      dsimp only [REGION_SIZE, FALLBACK_PAGE_COUNT, PAGE_SIZE] at hheader ⊢
      omega
  obtain ⟨f, hw, hchain, hsize, htail, hother⟩ := @format_spec _ k1 c (r.start L k1.mmu)
    (h.headersApart hL) (fun i hi => HeapPages.slot_mem hmem hc hi) hend hpos hclear
  refine ⟨f, hw, hchain, hsize, htail, fun b hb => hother b fun i hi heq => hb ?_⟩
  exact SizeClass.mem_slots.mpr ⟨i, hi, heq⟩

/-- The pages of the heap with a formatted region more. -/
theorem HeapPages.addRegion {k k1 k2 : Kernel} {r : PageRun} {c : SizeClass} {f : Nat → Header}
    (h : HeapPages L k1 rs) (hplaced : RunsPlaced L k1.mmu (r :: rs)) (hc : r.cls = some c)
    (hg : Grabbed L r.page r.count k k1)
    (hw : Rewrites (buckets L k1.mmu (r :: rs)) k1 k2 f)
    (hsize : ∀ i, i < c.slotCount → (f (c.slot (r.start L k1.mmu) i)).size = c.size)
    (htail : (f (c.slot (r.start L k1.mmu) c.slotCount)).size = 0)
    (hold : ∀ b ∈ buckets L k1.mmu rs, f b = k1.header b) : HeapPages L k2 (r :: rs) := by
  have hmem : r ∈ r :: rs := List.mem_cons_self
  refine ⟨by rw [hw.mmu]; exact hplaced, fun r' hr' i h1 h2 => ?_, fun r' hr' => ?_⟩
  · have hbound := (hplaced.placed r' hr').bound
    rw [HeapPages.rc_rewrites hL hplaced hw (by omega)]
    rcases List.mem_cons.mp hr' with rfl | hr'
    · rw [hg.rc_eq i (by omega), if_pos ⟨h1, h2⟩]
      decide
    · exact h.taken r' hr' i h1 h2
  · rcases List.mem_cons.mp hr' with rfl | hr'
    · unfold PageRun.Sized
      rw [hc, hw.mmu]
      refine ⟨fun j hj => ?_, ?_⟩
      · rw [← hsize j hj, ← hw.header _ (HeapPages.slot_mem hmem hc hj.le)]
        rfl
      · rw [← htail, ← hw.header _ (HeapPages.slot_mem hmem hc (le_refl _))]
        rfl
    · apply HeapPages.sized_congr hr' hw.mmu _ (h.sized r' hr')
      intro b hb
      have hb' : b ∈ buckets L k1.mmu (r :: rs) := by
        rw [buckets_cons]
        exact List.mem_append_right _ hb
      exact Kernel.size_congr ((hw.header b hb').trans (hold b hb))

/-- **Filling an empty free list.** -/
theorem HeapInv.refill (hi : HeapInv L h rs used free loose) {c : SizeClass} (hz : h.free c = 0)
    (hN : 2 * FALLBACK_PAGE_COUNT ≤ L.heapBottom)
    (hok : (allocPages L FALLBACK_PAGE_COUNT h.kernel).1 ≠ 0) :
    ∃ r : PageRun, r.cls = some c ∧ r.count = FALLBACK_PAGE_COUNT ∧
      (allocPages L FALLBACK_PAGE_COUNT h.kernel).1 = L.pageAddr r.page ∧
      Keeps L rs h.kernel (refill L c h).kernel ∧
      (refill L c h).free c = r.start L h.kernel.mmu ∧ (refill L c h).free c ≠ 0 ∧
      HeapInv L (refill L c h) (r :: rs) used
        (Function.update free c (c.slots (r.start L h.kernel.mmu))) loose := by
  obtain ⟨i, hpage, hg⟩ := hi.pages.alloc hL (by decide) hN hok
  unfold IloPali.refill
  generalize hcall : allocPages L FALLBACK_PAGE_COUNT h.kernel = call at hok hpage hg ⊢
  obtain ⟨page, k1⟩ := call
  dsimp only at hok hpage hg ⊢
  obtain ⟨hpages, hkeep1, hheader, hapart⟩ := hi.pages.grab hL (by decide) hg
  have hmmu := hkeep1.mmu
  obtain ⟨r, rfl, hcount, hcls⟩ : ∃ r : PageRun, r.page = i ∧ r.count = FALLBACK_PAGE_COUNT ∧
      r.cls = some c := ⟨⟨i, FALLBACK_PAGE_COUNT, some c⟩, rfl, rfl, rfl⟩
  rw [← hcount] at hg hapart
  have hpos1 : 1 ≤ r.count := by
    rw [hcount]
    decide
  have hr : r.Placed L := ⟨hg.bound, hpos1, fun _ _ => hcount⟩
  have hplaced : RunsPlaced L k1.mmu (r :: rs) := hpages.toRunsPlaced.cons hr hapart
  have hstart : phys2safe k1.mmu page = r.start L k1.mmu := by
    rw [hpage, PageRun.start]
  have hpos := (PageRun.start_spec hplaced.reach hL hr).2.1
  have hempty : free c = [] := by
    have hchain := hi.freeChain c
    rw [hz] at hchain
    cases hfree : free c with
    | nil => rfl
    | cons b t =>
      rw [hfree] at hchain
      exact absurd hchain.1.symm hchain.2.1
  obtain ⟨f, hw, hchain, hsize, htail, hother⟩ := hplaced.format hL hcls hg
  have hsplit : buckets L k1.mmu (r :: rs) = c.slots (r.start L k1.mmu) ++ buckets L k1.mmu rs := by
    rw [buckets_cons, ← SizeClass.pieces_fst, PageRun.pieces, hcls]
  have hnodup := hplaced.buckets_nodup
  rw [hsplit] at hnodup
  have hold : ∀ b ∈ buckets L k1.mmu rs, f b = k1.header b := fun b hb =>
    hother b fun hcon => List.disjoint_of_nodup_append hnodup hcon hb
  have hpages2 := hpages.addRegion hL hplaced hcls hg hw hsize htail hold
  rw [if_neg (by rw [hstart]; omega), hstart]
  generalize freeBucketsFormatUnused (r.start L k1.mmu) c.size FALLBACK_PAGE_COUNT k1 = k2
    at hw hpages2 ⊢
  have hsame : ∀ b ∈ buckets L h.kernel.mmu rs, k2.header b = h.kernel.header b := by
    intro b hb
    rw [← hmmu] at hb
    rw [hw.header b (hsplit ▸ List.mem_append_right _ hb), hold b hb]
    exact hheader b (hmmu ▸ hb)
  have hnext : ∀ b ∈ buckets L h.kernel.mmu rs, k2.next b = h.kernel.next b := fun b hb =>
    Kernel.next_congr (hsame b hb)
  have hnew : ∀ b ∈ c.slots (r.start L k1.mmu), k2.header b = f b := fun b hb =>
    hw.header b (hsplit ▸ List.mem_append_left _ hb)
  have hkeep2 : Keeps L rs k1 k2 := ⟨hw.mmu,
    fun b hb => Kernel.size_congr ((hw.header b (hsplit ▸ List.mem_append_right _ hb)).trans
      (hold b hb)), fun p hp x h1 h2 =>
    hplaced.payload_rewrites hL hw (List.mem_append_right _ hp) h1 h2⟩
  refine ⟨r, hcls, hcount, hpage, hkeep1.trans hkeep2, ?_, ?_, hpages2, ?_, ?_, fun c' => ?_, ?_,
    fun c' b hb => ?_⟩
  · simp only [Function.update_self, hmmu]
  · simp only [Function.update_self]
    omega
  · exact hi.usedChain.congr fun b hb => hnext b (hi.mem_used hb)
  · exact hi.usedBack.congr fun b hb => Kernel.prev_congr (hsame b (hi.mem_used hb))
  · by_cases hc : c' = c
    · subst hc
      simp only [Function.update_self, ← hmmu]
      exact hchain.congr fun b hb => Kernel.next_of_header (hnew b hb)
    · simp only [Function.update_of_ne hc]
      exact (hi.freeChain c').congr fun b hb => hnext b (hi.mem_free hb)
  · dsimp only
    rw [hw.mmu, hsplit, hmmu]
    refine ((allFree_fill hempty _).append_left _).trans ?_
    rw [← List.append_assoc]
    refine (List.perm_append_comm.append_right _).trans ?_
    rw [List.append_assoc]
    exact hi.all.append_left _
  · dsimp only
    by_cases hc : c' = c
    · subst hc
      rw [Function.update_self, ← hmmu] at hb
      have hfield : k2.size b = (f b).size := by rw [← Kernel.header_size, hnew b hb]
      obtain ⟨j, hj, rfl⟩ := SizeClass.mem_slots.mp hb
      rw [hfield]
      rcases Nat.eq_or_lt_of_le hj with hlast | hj
      · right
        rw [hlast, htail]
      · exact Or.inl (hsize j hj)
    · rw [Function.update_of_ne hc] at hb
      rw [← Kernel.header_size, hsame b (hi.mem_free hb), Kernel.header_size]
      exact hi.fits c' b hb

end Refill

/-! ## 4. Taking and giving back -/

section Take

variable {L : Layout} (hL : L.WellFormed) {h : Heap} {rs : List PageRun} {used : List Nat}
  {free : SizeClass → List Nat} {loose : List Nat}

theorem SizeClass.slotCount_pos (c : SizeClass) : 0 < c.slotCount := by
  cases c <;> decide

theorem SizeClass.size_pos (c : SizeClass) : 0 < c.size := by
  cases c <;> decide

theorem SizeClass.size_le (c : SizeClass) : c.size ≤ 65536 := by
  cases c <;> decide

theorem SizeClass.slot_zero (c : SizeClass) (data : Nat) : c.slot data 0 = data := by
  rw [SizeClass.slot, Nat.zero_mul, Nat.add_zero]

/-- The three kinds of blocks, as their headers tell them apart. -/
theorem HeapPages.classify {k : Kernel} (h : HeapPages L k rs) {b : Nat}
    (hb : b ∈ buckets L k.mmu rs) : ∃ r ∈ rs,
      (∃ c j, r.cls = some c ∧ j < c.slotCount ∧ b = c.slot (r.start L k.mmu) j ∧
        k.size b = c.size) ∨
      (∃ c, r.cls = some c ∧ b = c.slot (r.start L k.mmu) c.slotCount ∧ k.size b = 0) ∨
      (r.cls = none ∧ b = r.start L k.mmu ∧ 65536 < k.size b ∧ pageCount (k.size b) = r.count) := by
  obtain ⟨r, hr, len, hlen⟩ := mem_buckets.mp hb
  refine ⟨r, hr, ?_⟩
  have hsized := h.sized r hr
  unfold PageRun.Sized at hsized
  unfold PageRun.pieces at hlen
  cases hc : r.cls with
  | none =>
    rw [hc] at hsized hlen
    obtain ⟨rfl, _⟩ := Prod.mk.inj (List.mem_singleton.mp hlen)
    exact Or.inr (Or.inr ⟨rfl, rfl, hsized⟩)
  | some c =>
    rw [hc] at hsized hlen
    obtain ⟨j, hj, heq⟩ := List.mem_map.mp hlen
    obtain ⟨rfl, _⟩ := Prod.mk.inj heq
    rcases Nat.eq_or_lt_of_le (Nat.le_of_lt_succ (List.mem_range.mp hj)) with hlast | hlt
    · rw [hlast]
      exact Or.inr (Or.inl ⟨c, rfl, rfl, hsized.2⟩)
    · exact Or.inl ⟨c, j, rfl, hlt, rfl, hsized.1 j hlt⟩

include hL

omit hL in
/-- The lists stay where the headers of their blocks do. -/
theorem HeapInv.of_headers {h' : Heap} {rs' : List PageRun} {loose' : List Nat}
    (hi : HeapInv L h rs used free loose) (hpages : HeapPages L h'.kernel rs')
    (hused : h'.used = h.used) (hfree : h'.free = h.free)
    (hsame : ∀ b, (b ∈ used ∨ ∃ c, b ∈ free c) → h'.kernel.header b = h.kernel.header b)
    (hall : (loose' ++ used ++ allFree free).Perm (buckets L h'.kernel.mmu rs')) :
    HeapInv L h' rs' used free loose' := by
  have hnext : ∀ b, (b ∈ used ∨ ∃ c, b ∈ free c) → h'.kernel.next b = h.kernel.next b :=
    fun b hb => Kernel.next_congr (hsame b hb)
  refine ⟨hpages, ?_, ?_, fun c => ?_, hall, fun c b hb => ?_⟩
  · rw [hused]
    exact hi.usedChain.congr fun b hb => hnext b (Or.inl hb)
  · apply hi.usedBack.congr
    intro b hb
    exact Kernel.prev_congr (hsame b (Or.inl hb))
  · rw [hfree]
    exact (hi.freeChain c).congr fun b hb => hnext b (Or.inr ⟨c, hb⟩)
  · rw [← Kernel.header_size, hsame b (Or.inr ⟨c, hb⟩), Kernel.header_size]
    exact hi.fits c b hb

/-- **Taking a bucket from a free list.** -/
theorem HeapInv.takeBucket (hi : HeapInv L h rs used free loose) (c : SizeClass)
    (hN : 2 * FALLBACK_PAGE_COUNT ≤ L.heapBottom)
    (hok : h.free c = 0 → (allocPages L FALLBACK_PAGE_COUNT h.kernel).1 ≠ 0) :
    ∃ rs' free', HeapInv L (takeBucket L c h).2 rs' used free' ((takeBucket L c h).1 :: loose) ∧
      (takeBucket L c h).1 ≠ 0 ∧ Keeps L rs h.kernel (takeBucket L c h).2.kernel ∧
      ((h.free c ≠ 0 ∧ rs' = rs ∧ (takeBucket L c h).1 = h.free c) ∨
        (h.free c = 0 ∧ ∃ r : PageRun, rs' = r :: rs ∧ r.cls = some c ∧
          r.count = FALLBACK_PAGE_COUNT ∧
          (allocPages L FALLBACK_PAGE_COUNT h.kernel).1 = L.pageAddr r.page ∧
          (takeBucket L c h).1 = r.start L h.kernel.mmu)) := by
  unfold IloPali.takeBucket
  by_cases hz : h.free c = 0
  · rw [if_pos hz]
    obtain ⟨r, hcls, hcount, hpage, hkeep, hhead, hne, hinv⟩ := hi.refill hL hz hN (hok hz)
    obtain ⟨t, _, hpop⟩ := hinv.popFree hne
    dsimp only
    rw [if_neg hne]
    exact ⟨r :: rs, _, hpop, hne, hkeep, Or.inr ⟨hz, r, rfl, hcls, hcount, hpage, hhead⟩⟩
  · rw [if_neg hz]
    obtain ⟨t, _, hpop⟩ := hi.popFree hz
    dsimp only
    rw [if_neg hz]
    exact ⟨rs, _, hpop, hz, Keeps.refl L rs h.kernel, Or.inl ⟨hz, rfl, rfl⟩⟩

/-- **Taking pages for a large block.** -/
theorem HeapInv.takePages (hi : HeapInv L h rs used free loose) {size : Nat}
    (hsize : 65536 < size) (hlt : size < 2 ^ 64) (hc : 1 ≤ pageCount size)
    (hN : 2 * pageCount size ≤ L.heapBottom)
    (hok : (allocPages L (pageCount size) h.kernel).1 ≠ 0) :
    ∃ r : PageRun, r.cls = none ∧ r.count = pageCount size ∧
      (allocPages L (pageCount size) h.kernel).1 = L.pageAddr r.page ∧
      (takePages L size h).1 = r.start L h.kernel.mmu ∧ (takePages L size h).1 ≠ 0 ∧
      Keeps L rs h.kernel (takePages L size h).2.kernel ∧
      (takePages L size h).2.kernel.size (r.start L h.kernel.mmu) = size ∧
      HeapInv L (takePages L size h).2 (r :: rs) used free ((takePages L size h).1 :: loose) := by
  obtain ⟨i, hpage, hg⟩ := hi.pages.alloc hL hc hN hok
  unfold IloPali.takePages
  generalize hcall : allocPages L (pageCount size) h.kernel = call at hok hpage hg ⊢
  obtain ⟨page, k1⟩ := call
  dsimp only at hok hpage hg ⊢
  obtain ⟨hpages, hkeep1, hheader, hapart⟩ := hi.pages.grab hL hc hg
  have hmmu := hkeep1.mmu
  obtain ⟨r, rfl, hcount, hcls⟩ : ∃ r : PageRun, r.page = i ∧ r.count = pageCount size ∧
      r.cls = none := ⟨⟨i, pageCount size, none⟩, rfl, rfl, rfl⟩
  rw [← hcount] at hg hapart hc
  have hr : r.Placed L := ⟨hg.bound, hc, fun c hcon => by
    rw [hcls] at hcon
    exact (nomatch hcon)⟩
  have hplaced : RunsPlaced L k1.mmu (r :: rs) := hpages.toRunsPlaced.cons hr hapart
  have hstart : phys2safe k1.mmu page = r.start L k1.mmu := by
    rw [hpage, PageRun.start]
  have hpos := (PageRun.start_spec hplaced.reach hL hr).2.1
  have hsplit : buckets L k1.mmu (r :: rs) = r.start L k1.mmu :: buckets L k1.mmu rs := by
    rw [buckets_cons, PageRun.pieces, hcls]
    rfl
  have hnodup := hplaced.buckets_nodup
  rw [hsplit, List.nodup_cons] at hnodup
  have hmem : r.start L k1.mmu ∈ buckets L k1.mmu (r :: rs) := hsplit ▸ List.mem_cons_self
  have hw := (Rewrites.refl (buckets L k1.mmu (r :: rs)) k1).setSize (hplaced.headersApart hL)
    hmem hlt
  rw [if_neg (by rw [hstart]; omega), hstart]
  generalize k1.setSize (r.start L k1.mmu) size = k2 at hw ⊢
  have hnew : k2.size (r.start L k1.mmu) = size := by
    rw [← Kernel.header_size, hw.header _ hmem, withSize_size, if_pos rfl]
  have hold : ∀ b ∈ buckets L k1.mmu rs, k2.header b = k1.header b := by
    intro b hb
    have hne : b ≠ r.start L k1.mmu := by
      rintro rfl
      exact hnodup.1 hb
    rw [hw.header b (hsplit ▸ List.mem_cons_of_mem _ hb), withSize_apply, if_neg hne]
  have hsame : ∀ b ∈ buckets L h.kernel.mmu rs, k2.header b = h.kernel.header b := fun b hb =>
    (hold b (by rwa [hmmu])).trans (hheader b hb)
  have hkeep2 : Keeps L rs k1 k2 := ⟨hw.mmu, fun b hb => Kernel.size_congr (hold b hb),
    fun p hp x h1 h2 => hplaced.payload_rewrites hL hw (List.mem_append_right _ hp) h1 h2⟩
  refine ⟨r, hcls, hcount, hpage, by rw [hmmu], by dsimp only; omega, hkeep1.trans hkeep2,
    by rw [← hmmu]; exact hnew,
    hi.of_headers ⟨by rw [hw.mmu]; exact hplaced, ?_, ?_⟩ rfl rfl ?_ ?_⟩
  · intro r' hr' j h1 h2
    have hbound := (hplaced.placed r' hr').bound
    rw [HeapPages.rc_rewrites hL hplaced hw (by omega)]
    rcases List.mem_cons.mp hr' with rfl | hr'
    · rw [hg.rc_eq j (by omega), if_pos ⟨h1, h2⟩]
      decide
    · exact hpages.taken r' hr' j h1 h2
  · intro r' hr'
    rcases List.mem_cons.mp hr' with rfl | hr'
    · unfold PageRun.Sized
      rw [hcls]
      dsimp only
      rw [hw.mmu, hnew]
      exact ⟨hsize, hcount.symm⟩
    · apply HeapPages.sized_congr hr' hw.mmu _ (hpages.sized r' hr')
      intro b hb
      rw [← Kernel.header_size, hold b hb, Kernel.header_size]
  · rintro b (hb | ⟨c, hb⟩)
    · exact hsame b (hi.mem_used hb)
    · exact hsame b (hi.mem_free hb)
  · dsimp only
    rw [hw.mmu, hsplit, hmmu]
    exact hi.all.cons _

/-- **Giving the pages of a large block back.** -/
theorem HeapInv.freePages {b : Nat} (hi : HeapInv L h rs used free (b :: loose))
    (hsize : 65536 < h.kernel.size b) :
    ∃ r ∈ rs, r.cls = none ∧ b = r.start L h.kernel.mmu ∧
      b ∉ buckets L h.kernel.mmu (rs.erase r) ∧
      HeapInv L { h with kernel := deallocPages L b (pageCount (h.kernel.size b)) h.kernel }
        (rs.erase r) used free loose ∧
      Keeps L (rs.erase r) h.kernel
        (deallocPages L b (pageCount (h.kernel.size b)) h.kernel) := by
  have hb := hi.mem_loose List.mem_cons_self
  obtain ⟨r, hr, hkind⟩ := hi.pages.classify hb
  have hlarge : r.cls = none ∧ b = r.start L h.kernel.mmu ∧
      pageCount (h.kernel.size b) = r.count := by
    rcases hkind with ⟨c, j, _, _, _, hcs⟩ | ⟨c, _, _, hcs⟩ | ⟨h1, h2, _, h3⟩
    · have hle := c.size_le
      omega
    · omega
    · exact ⟨h1, h2, h3⟩
  obtain ⟨hcls, hstart, hcount⟩ := hlarge
  have hbound := (hi.pages.placed r hr).bound
  have hrel := @deallocPages_spec L hL h.kernel b r.page r.count (by omega) (by omega)
    (Or.inr ⟨hstart, hi.pages.reach.pageAddr (by omega)⟩)
  rw [hcount]
  have hperm : rs.Perm (r :: rs.erase r) := List.perm_cons_erase hr
  have hapart := hi.pages.apart.perm hperm (fun h => Or.symm h)
  rw [List.pairwise_cons] at hapart
  have hsub : ∀ r' ∈ rs.erase r, r' ∈ rs := fun r' => List.mem_of_mem_erase
  have hless : HeapPages L h.kernel (rs.erase r) :=
    ⟨⟨hi.pages.reach, fun r' hr' => hi.pages.placed r' (hsub r' hr'), hapart.2⟩,
      fun r' hr' => hi.pages.taken r' (hsub r' hr'), fun r' hr' => hi.pages.sized r' (hsub r' hr')⟩
  obtain ⟨hpages, hkeep, hheader⟩ := hless.frame hL hrel.satp
    (fun r' _ x hx => by
      obtain ⟨_, hheap, _⟩ := hL.bounds
      simp only [InPages, pageAddr_eq] at hx
      apply hrel.frame
      rintro ⟨_, hlt⟩
      omega)
    (fun r' hr' j h1 h2 hpos => by
      have hrun := hapart.1 r' hr'
      have hbound' := (hi.pages.placed r' (hsub r' hr')).bound
      unfold PageRun.Apart at hrun
      rw [hrel.rc_eq j (by omega), if_neg (by omega)]
      exact hpos)
  have hbuckets : (buckets L h.kernel.mmu rs).Perm (b :: buckets L h.kernel.mmu (rs.erase r)) := by
    have hsplit := (hperm.flatMap_right (PageRun.pieces L h.kernel.mmu)).map Prod.fst
    refine hsplit.trans ?_
    change (buckets L h.kernel.mmu (r :: rs.erase r)).Perm _
    rw [buckets_cons, PageRun.pieces, hcls, hstart]
    exact List.Perm.refl _
  have hall : (loose ++ used ++ allFree free).Perm (buckets L h.kernel.mmu (rs.erase r)) :=
    List.Perm.cons_inv (hi.all.trans hbuckets)
  have hgone := (List.nodup_cons.mp (hbuckets.nodup_iff.mp hi.pages.buckets_nodup)).1
  generalize deallocPages L b r.count h.kernel = k2 at hpages hkeep hheader ⊢
  refine ⟨r, hr, hcls, hstart, hgone, hi.of_headers hpages rfl rfl ?_ (by dsimp only; rwa [hkeep.mmu]), hkeep⟩
  rintro x (hx | ⟨c, hx⟩)
  · exact hheader x (hall.mem_iff.mp (List.mem_append_left _ (List.mem_append_right _ hx)))
  · exact hheader x (hall.mem_iff.mp (List.mem_append_right _ (mem_allFree.mpr ⟨c, hx⟩)))

end Take

end IloPali
