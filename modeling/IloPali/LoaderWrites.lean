import IloPali.ArgumentOverrun
import IloPali.MapFailure

/-!
# Where the loader writes

A page of a segment is copied to a frame that this call of `spawn_task_from_elf` got from
`mmu_alloc`, also where `mmu_alloc` fails since an earlier segment has the page.  The loops over the
arguments do not look at what `mmu_alloc` returns, and `phys2safe` makes a pointer to physical page 0
of `NULL`.
-/

namespace IloPali

open ByteMemory

/-! ## 1. The property -/

/-- The byte at `ptr` lies in one of the frames. -/
def InFrames (mmu : Bool) (frames : List Nat) (ptr : Nat) : Prop :=
  ∃ f ∈ frames, physOf mmu ptr / PAGE_SIZE = f / PAGE_SIZE

/-- Each byte that was copied or stored lies in a frame that `mmu_alloc` returned. -/
def Load.InOwnFrames (s : Load) : Prop :=
  ∀ c ∈ s.copied, ∀ i, i < c.2 → InFrames s.kernel.mmu s.frames (c.1 + i)

/-! ## 2. What the arguments ask for -/

namespace Args

variable (L : Layout) (top argsNew : Nat)

/-- `alloc_pages` has a page left, and `mmu_map` finds the entry for `last_virtual_page` not in use. -/
def GetsPage (a : Args) : Prop :=
  freePages L a.load.kernel ≠ ∅ ∧
    (mmuMap L top a.lastVirtualPage (allocPages L 1 a.load.kernel).1 STACK_FLAGS
      (allocPages L 1 a.load.kernel).2).1 = 0

/-- The states in which the loops ask `mmu_alloc` for a page: before one write, -/
def roomRequests (a : Args) : List Args := if a.offset ≥ PAGE_SIZE then [a] else []

/-- in a string with its final zero, -/
def charRequests : List UInt8 → Args → List Args
  | [], _ => []
  | c :: cs, a => a.roomRequests ++ charRequests cs (a.putChar L top c)

/-- in the loop over the strings, -/
def stringRequests : Nat → List (List UInt8) → Args → List Args
  | _, [], _ => []
  | i, arg :: args, a =>
    let a := a.setArg argsNew i ((a.virtAddr + a.offset) % 2 ^ 64)
    charRequests L top (arg ++ [0]) a ++
      stringRequests (i + 1) args ((arg ++ [0]).foldl (putChar L top) a)

/-- in the loop over the pointers, -/
def pointerRequests : Nat → Nat → Args → List Args
  | 0, _, _ => []
  | n + 1, i, a =>
    let b := a.room L top
    a.roomRequests ++
      pointerRequests n (i + 1) (b.write 8 (b.load.kernel.load 8 (argsNew + 8 * i)))

/-- and for the first page of all. -/
def requests (args : List (List UInt8)) (s : Load) : List Args :=
  let a := nextPage L top ⟨s, 0, 0, 0, s.maxPage⟩
  ⟨s, 0, 0, 0, s.maxPage⟩ :: (stringRequests L top argsNew 0 args a ++
    pointerRequests L top argsNew args.length 0 (a.copyStrings L top argsNew 0 args).align)

end Args

/-- The requests of a call, behind its call of `malloc`. -/
def LoadedTask.requests (L : Layout) (stackSize : Nat) (args : List (List UInt8)) (origin : Nat)
    (h : Heap) (p : LoadedTask) : List Args :=
  let (argsNew, heap) :=
    malloc L (8 * args.length % 2 ^ 64) origin { h with kernel := (p.stack L stackSize).kernel }
  Args.requests L p.top argsNew args { p.stack L stackSize with kernel := heap.kernel }

/-- With the MMU in this state, the frames are pages that the kernel can reach, and page 0 is none of
    them. -/
structure Load.Framed (mmu : Bool) (s : Load) : Prop where
  mmu_eq : s.kernel.mmu = mmu
  frames : ∀ f ∈ s.frames, ∃ p, f = 4096 * p ∧ Addressable mmu p

/-- Something was written to physical page 0. -/
def Load.Astray (s : Load) : Prop :=
  ∃ c ∈ s.copied, 0 < c.2 ∧ physOf s.kernel.mmu c.1 / PAGE_SIZE = 0

/-- A byte of a frame, as the kernel sees it. -/
theorem inFrames_offset {mmu : Bool} {frames : List Nat} {p i : Nat} (hp : Addressable mmu p)
    (hf : 4096 * p ∈ frames) (hi : i < PAGE_SIZE) :
    InFrames mmu frames (phys2safe mmu (4096 * p) + i) := by
  refine ⟨_, hf, ?_⟩
  rw [physOf_phys2safe_add hp.2, PAGE_SIZE] at *
  omega

section Pages

variable {L : Layout} (hL : L.WellFormed)
include hL

/-- `mmu_alloc` returns a page iff there is one and the entry for it is not in use. -/
theorem mmuAlloc_page {top virt : Nat} {flags : Word} {k : Kernel} (hR : L.Reachable k.mmu) :
    ((mmuAlloc L top virt flags k).1 = 0 ∧
      ¬ (freePages L k ≠ ∅ ∧
        (mmuMap L top virt (allocPages L 1 k).1 flags (allocPages L 1 k).2).1 = 0)) ∨
    ∃ p, (mmuAlloc L top virt flags k).1 = 4096 * p ∧ Addressable k.mmu p ∧ freePages L k ≠ ∅ ∧
      (mmuMap L top virt (allocPages L 1 k).1 flags (allocPages L 1 k).2).1 = 0 := by
  rw [mmuAlloc_eq]
  by_cases hret : (mmuMap L top virt (allocPages L 1 k).1 flags (allocPages L 1 k).2).1 = 0
  · rw [if_neg (not_not.mpr hret)]
    rcases allocPages_one hL hR with ⟨hempty, hcall⟩ | ⟨i, hi, _, _, hg, _⟩
    · left
      rw [hcall]
      exact ⟨rfl, fun h => h.1 hempty⟩
    · right
      obtain ⟨p, hpage, hfresh⟩ := allocPage_ok hL hg.failed
      refine ⟨p, hpage, ?_, Finset.ne_empty_of_mem hi, hret⟩
      have hA := hfresh.owned.addressable hL
      rwa [hfresh.frame.mmu] at hA
  · rw [if_pos hret]
    exact Or.inl ⟨rfl, fun h => hret h.2⟩

theorem Args.getsPage_iff_alloc {top : Nat} {a : Args} (hR : L.Reachable a.load.kernel.mmu) :
    a.GetsPage L top ↔ (mmuAlloc L top a.lastVirtualPage STACK_FLAGS a.load.kernel).1 ≠ 0 := by
  rcases @mmuAlloc_page L hL top a.lastVirtualPage STACK_FLAGS a.load.kernel hR with
    ⟨hnull, hno⟩ | ⟨p, hpage, hp, hgets⟩
  · exact iff_of_false hno (not_not.mpr hnull)
  · rw [hpage]
    exact iff_of_true hgets (Nat.mul_ne_zero (by decide) hp.1)

/-- In a table that is a tree, where no allocation fails, a page is there iff its number is not
    mapped. -/
theorem Args.getsPage_iff {ρ : Nat} {a : Args} (hT : Tree L a.load.kernel ρ)
    (hR : L.Reachable a.load.kernel.mmu)
    (hok : (mmuAlloc L (4096 * ρ) a.lastVirtualPage STACK_FLAGS a.load.kernel).2.failed =
      a.load.kernel.failed) :
    a.GetsPage L (4096 * ρ) ↔ ¬ Mapped a.load.kernel.mem ρ (getVpns a.lastVirtualPage) := by
  rw [Args.getsPage_iff_alloc hL hR]
  rcases mmuAlloc_spec hL hT hok with ⟨hm, hnull, _⟩ | ⟨hm, p, hpage, hp⟩
  · exact iff_of_false (not_not.mpr hnull) (not_not.mpr hm)
  · rw [hpage]
    exact iff_of_true (Nat.mul_ne_zero (by decide) (hp.owned.addressable hL).1) hm

theorem Load.Framed.alloc {mmu : Bool} {s : Load} (h : s.Framed mmu) (hR : L.Reachable mmu)
    (top virt : Nat) (flags : Word) : (s.alloc L top virt flags).2.Framed mmu := by
  have hmmu := h.mmu_eq
  constructor
  · unfold Load.alloc
    dsimp only
    rw [Kernel.mmu, mmuAlloc_satp, ← Kernel.mmu, hmmu]
  · intro f hf
    unfold Load.alloc at hf
    dsimp only at hf
    split at hf
    · exact h.frames f hf
    · rename_i hne
      rcases List.mem_cons.mp hf with rfl | hold
      · rcases mmuAlloc_page hL (by rwa [hmmu] : L.Reachable s.kernel.mmu) with
          ⟨hnull, _⟩ | ⟨p, hpage, hp, _⟩
        · exact absurd hnull hne
        · rw [hmmu] at hp
          exact ⟨p, hpage, hp⟩
      · exact h.frames f hold

end Pages

theorem Load.alloc_frames (L : Layout) (top virt : Nat) (flags : Word) (s : Load) :
    s.frames ⊆ (s.alloc L top virt flags).2.frames := by
  unfold Load.alloc
  dsimp only
  split
  · exact List.Subset.refl _
  · exact List.subset_cons_self _ _

theorem Load.alloc_mmu (L : Layout) (top virt : Nat) (flags : Word) (s : Load) :
    (s.alloc L top virt flags).2.kernel.mmu = s.kernel.mmu := by
  unfold Load.alloc
  dsimp only
  rw [Kernel.mmu, mmuAlloc_satp, ← Kernel.mmu]

/-- Nothing was written meanwhile. -/
theorem Load.InOwnFrames.mono {s s' : Load} (h : s.InOwnFrames)
    (hmmu : s'.kernel.mmu = s.kernel.mmu) (hcopied : s'.copied = s.copied)
    (hframes : s.frames ⊆ s'.frames) : s'.InOwnFrames := by
  intro c hc i hi
  rw [hcopied] at hc
  obtain ⟨f, hf, hpage⟩ := h c hc i hi
  rw [hmmu]
  exact ⟨f, hframes hf, hpage⟩

/-- What was written stays written. -/
theorem Load.Astray.mono {s s' : Load} (h : s.Astray) (hmmu : s'.kernel.mmu = s.kernel.mmu)
    (hcopied : s.copied ⊆ s'.copied) : s'.Astray := by
  obtain ⟨c, hc, hpos, hzero⟩ := h
  rw [← hmmu] at hzero
  exact ⟨c, hcopied hc, hpos, hzero⟩

/-! ## 4. The loops over the arguments -/

/-- The window is one of the frames, and if nothing was written outside of them before (`pre`), then
    nothing was by now. -/
structure Args.Inside (mmu : Bool) (pre : Prop) (a : Args) : Prop where
  window : ∃ p, Addressable mmu p ∧ 4096 * p ∈ a.load.frames ∧
    a.physical = phys2safe mmu (4096 * p)
  own : pre → a.load.InOwnFrames

/-- How things stand behind a write: inside the frames if `ok`, and if not, something was written to
    page 0. -/
structure Args.Stands (mmu : Bool) (pre ok : Prop) (a : Args) : Prop where
  framed : a.load.Framed mmu
  offset : a.offset ≤ PAGE_SIZE
  cases : (ok ∧ a.Inside mmu pre) ∨ (¬ ok ∧ a.load.Astray)

/-- How things stand before a write, which may be the first one to page 0. -/
structure Args.Opens (mmu : Bool) (pre ok : Prop) (a : Args) : Prop where
  framed : a.load.Framed mmu
  cases : (ok ∧ a.Inside mmu pre) ∨
    (¬ ok ∧ (a.load.Astray ∨ (a.physical = phys2safe mmu 0 ∧ a.offset = 0)))

section Loops

variable {L : Layout} (hL : L.WellFormed) {mmu : Bool} (hR : L.Reachable mmu) (top argsNew : Nat)
  {pre ok : Prop} {a : Args}

theorem Args.Inside.write (h : a.Inside mmu pre) (hmmu : a.load.kernel.mmu = mmu) {n : Nat}
    (hn : a.offset + n ≤ PAGE_SIZE) (v : Nat) : (a.write n v).Inside mmu pre := by
  obtain ⟨p, hp, hf, hphys⟩ := h.window
  refine ⟨⟨p, hp, hf, hphys⟩, fun hpre c hc i hi => ?_⟩
  rcases List.mem_cons.mp hc with rfl | hold
  · have hmmu' : (a.write n v).load.kernel.mmu = mmu := hmmu
    dsimp only at hi ⊢
    rw [hmmu', hphys, Nat.add_assoc]
    exact inFrames_offset hp hf (by omega)
  · exact h.own hpre c hold i hi

theorem Args.Opens.write (h : a.Opens mmu pre ok) {n : Nat} (hn : a.offset + n ≤ PAGE_SIZE)
    (hpos : 0 < n) (v : Nat) : (a.write n v).Stands mmu pre ok := by
  have hmmu := h.framed.mmu_eq
  refine ⟨⟨hmmu, h.framed.frames⟩, hn, ?_⟩
  rcases h.cases with ⟨hok, hin⟩ | ⟨hno, hastray | ⟨hphys, hzero⟩⟩
  · exact Or.inl ⟨hok, hin.write hmmu hn v⟩
  · exact Or.inr ⟨hno, hastray.mono rfl (List.subset_cons_self _ _)⟩
  · -- the first write to page 0
    refine Or.inr ⟨hno, _, List.mem_cons_self, hpos, ?_⟩
    have hmmu' : (a.write n v).load.kernel.mmu = mmu := hmmu
    rw [hmmu', hphys, hzero, physOf_phys2safe_add fun _ => by decide]
    rfl

theorem Args.Opens.setArg (h : a.Opens mmu pre ok) (i v : Nat) : (a.setArg argsNew i v).Opens mmu pre ok :=
  ⟨⟨h.framed.mmu_eq, h.framed.frames⟩, h.cases.imp
    (And.imp_right fun hin => ⟨hin.window, fun hpre => (hin.own hpre).mono rfl rfl (List.Subset.refl _)⟩)
    (And.imp_right fun hout => hout.imp_left fun h => h.mono rfl (List.Subset.refl _))⟩

theorem Args.Stands.setArg (h : a.Stands mmu pre ok) (i v : Nat) :
    (a.setArg argsNew i v).Stands mmu pre ok :=
  ⟨⟨h.framed.mmu_eq, h.framed.frames⟩, h.offset, h.cases.imp
    (And.imp_right fun hin => ⟨hin.window, fun hpre => (hin.own hpre).mono rfl rfl (List.Subset.refl _)⟩)
    (And.imp_right fun hout => hout.mono rfl (List.Subset.refl _))⟩

theorem Args.Stands.align (h : a.Stands mmu pre ok) : a.align.Stands mmu pre ok ∧ a.align.offset % 8 = 0 := by
  have hle := h.offset
  unfold Args.align
  rw [PAGE_SIZE] at hle
  refine ⟨⟨h.framed, ?_, h.cases.imp_left (And.imp_right fun hin => ⟨hin.window, hin.own⟩)⟩, ?_⟩
  · dsimp only
    rw [PAGE_SIZE]
    omega
  · dsimp only
    omega

include hL hR

/-- **The next page.** -/
theorem Args.opens_nextPage (hframed : a.load.Framed mmu)
    (hcases : (ok ∧ (pre → a.load.InOwnFrames)) ∨ (¬ ok ∧ a.load.Astray)) :
    (a.nextPage L top).Opens mmu pre (ok ∧ a.GetsPage L top) := by
  have hmmu := hframed.mmu_eq
  have hpage := @mmuAlloc_page L hL top a.lastVirtualPage STACK_FLAGS a.load.kernel (by rwa [hmmu])
  have hmmu' := Load.alloc_mmu L top a.lastVirtualPage STACK_FLAGS a.load
  refine ⟨hframed.alloc hL hR _ _ _, ?_⟩
  have hphys : (a.nextPage L top).physical =
      phys2safe mmu (mmuAlloc L top a.lastVirtualPage STACK_FLAGS a.load.kernel).1 := by
    rw [← hmmu, ← hmmu']
    rfl
  rcases hcases with ⟨hok, hown⟩ | ⟨hno, hastray⟩
  · rcases hpage with ⟨hnull, hgets⟩ | ⟨p, hp, hA, hgets⟩
    · refine Or.inr ⟨fun h => hgets h.2, Or.inr ⟨?_, rfl⟩⟩
      rw [hphys, hnull]
    · refine Or.inl ⟨⟨hok, hgets⟩, ⟨p, by rwa [hmmu] at hA, ?_, by rw [hphys, hp]⟩, ?_⟩
      · have hpos : 4096 * p ≠ 0 := Nat.mul_ne_zero (by decide) hA.1
        unfold Args.nextPage Load.alloc
        dsimp only
        rw [hp, if_neg hpos]
        exact List.mem_cons_self
      · exact fun hpre => (hown hpre).mono hmmu' rfl (Load.alloc_frames L top _ _ _)
  · refine Or.inr ⟨fun h => hno h.1, Or.inl ?_⟩
    exact hastray.mono hmmu' (List.Subset.refl _)

theorem Args.Stands.room (h : a.Stands mmu pre ok) :
    (a.room L top).Opens mmu pre (ok ∧ ∀ r ∈ a.roomRequests, r.GetsPage L top) := by
  unfold Args.room Args.roomRequests
  split
  · have hnext := Args.opens_nextPage hL hR top h.framed
      (h.cases.imp_left (And.imp_right fun hin => hin.own))
    rwa [List.forall_mem_singleton]
  · refine ⟨h.framed, h.cases.imp ?_ ?_⟩
    · rintro ⟨hok, hin⟩
      exact ⟨⟨hok, by simp⟩, hin⟩
    · rintro ⟨hno, hout⟩
      exact ⟨fun h => hno h.1, Or.inl hout⟩

/-- **One write** with room made for it. -/
theorem Args.Stands.put (h : a.Stands mmu pre ok) {n : Nat} (hpos : 0 < n) (hpage : n ≤ PAGE_SIZE)
    (hn : a.offset < PAGE_SIZE → a.offset + n ≤ PAGE_SIZE) (v : Nat) :
    ((a.room L top).write n v).Stands mmu pre (ok ∧ ∀ r ∈ a.roomRequests, r.GetsPage L top) := by
  apply (h.room hL hR top).write _ hpos
  unfold Args.room
  split
  · rw [nextPage_offset, Nat.zero_add]
    exact hpage
  · exact hn (Nat.not_le.mp ‹_›)

theorem Args.Stands.putChar (h : a.Stands mmu pre ok) (c : UInt8) :
    (a.putChar L top c).Stands mmu pre (ok ∧ ∀ r ∈ a.roomRequests, r.GetsPage L top) :=
  h.put hL hR top (by decide) (by decide) (fun hlt => hlt) c.toNat

theorem Args.Stands.putChars (h : a.Stands mmu pre ok) (cs : List UInt8) :
    (cs.foldl (Args.putChar L top) a).Stands mmu pre
      (ok ∧ ∀ r ∈ Args.charRequests L top cs a, r.GetsPage L top) := by
  induction cs generalizing a ok with
  | nil =>
    rw [List.foldl_nil, Args.charRequests]
    simpa using h
  | cons c cs ih =>
    have hrest := ih (h.putChar hL hR top c)
    rw [List.foldl_cons, Args.charRequests, List.forall_mem_append, ← and_assoc]
    exact hrest

/-- **The strings.** -/
theorem Args.Stands.copyStrings (h : a.Stands mmu pre ok) (i : Nat) (args : List (List UInt8)) :
    (a.copyStrings L top argsNew i args).Stands mmu pre
      (ok ∧ ∀ r ∈ Args.stringRequests L top argsNew i args a, r.GetsPage L top) := by
  induction args generalizing a ok i with
  | nil =>
    rw [Args.copyStrings, Args.stringRequests]
    simpa using h
  | cons arg args ih =>
    have hset : (a.setArg argsNew i ((a.virtAddr + a.offset) % 2 ^ 64)).Stands mmu pre ok :=
      h.setArg argsNew i _
    have hrest := ih (hset.putChars hL hR top (arg ++ [0])) (i + 1)
    rw [Args.copyStrings, Args.stringRequests, List.forall_mem_append, ← and_assoc]
    exact hrest

/-- **The pointers.** -/
theorem Args.Stands.copyPointers (h : a.Stands mmu pre ok) (halign : a.offset % 8 = 0) (n i : Nat) :
    (a.copyPointers L top argsNew n i).Stands mmu pre
      (ok ∧ ∀ r ∈ Args.pointerRequests L top argsNew n i a, r.GetsPage L top) := by
  induction n generalizing a ok i with
  | zero =>
    rw [Args.copyPointers, Args.pointerRequests]
    simpa using h
  | succ n ih =>
    have hput := h.put (n := 8) hL hR top (by decide) (by decide)
      (by rw [PAGE_SIZE]; omega)
      ((a.room L top).load.kernel.load 8 (argsNew + 8 * i))
    have halign' : ((a.room L top).write 8
        ((a.room L top).load.kernel.load 8 (argsNew + 8 * i))).offset % 8 = 0 := by
      have hroom : (a.room L top).offset % 8 = 0 := by
        unfold Args.room
        split
        · rfl
        · exact halign
      unfold Args.write
      dsimp only
      omega
    have hrest := ih hput halign' (i + 1)
    rw [Args.copyPointers, Args.pointerRequests, List.forall_mem_append, ← and_assoc]
    exact hrest

/-- **All arguments**, of which there is one at least. -/
theorem Load.Framed.loadArgs {s : Load} (hframed : s.Framed mmu) (hown : pre → s.InOwnFrames)
    {args : List (List UInt8)} (hargs : args ≠ []) :
    (loadArgs L top argsNew args s).1.Stands mmu pre
      (∀ r ∈ Args.requests L top argsNew args s, r.GetsPage L top) := by
  obtain ⟨arg, args, rfl⟩ := List.exists_cons_of_ne_nil hargs
  obtain ⟨c, cs, hchars⟩ := List.exists_cons_of_ne_nil (List.append_ne_nil_of_right_ne_nil arg
    (List.cons_ne_nil (0 : UInt8) []))
  have hopen := Args.opens_nextPage (a := ⟨s, 0, 0, 0, s.maxPage⟩) hL hR top hframed
    (Or.inl ⟨trivial, hown⟩)
  have hzero : (Args.nextPage L top ⟨s, 0, 0, 0, s.maxPage⟩).offset = 0 := nextPage_offset L top _
  unfold IloPali.loadArgs Args.requests
  dsimp only
  generalize Args.nextPage L top ⟨s, 0, 0, 0, s.maxPage⟩ = a at hopen hzero ⊢
  rw [List.forall_mem_cons, List.forall_mem_append]
  -- the first write needs no other page
  have hroom : ¬ (a.setArg argsNew 0 ((a.virtAddr + a.offset) % 2 ^ 64)).offset ≥ PAGE_SIZE := by
    have hsame : (a.setArg argsNew 0 ((a.virtAddr + a.offset) % 2 ^ 64)).offset = a.offset := rfl
    rw [hsame, hzero]
    decide
  have hfirst := (hopen.setArg argsNew 0 ((a.virtAddr + a.offset) % 2 ^ 64)).write
    (n := 1) (by omega) Nat.one_pos c.toNat
  have hput : (a.setArg argsNew 0 ((a.virtAddr + a.offset) % 2 ^ 64)).putChar L top c =
      (a.setArg argsNew 0 ((a.virtAddr + a.offset) % 2 ^ 64)).write 1 c.toNat := by
    rw [Args.putChar, Args.room, if_neg hroom]
  rw [← hput] at hfirst
  have hstrings := (hfirst.putChars hL hR top cs).copyStrings hL hR top argsNew 1 args
  rw [← List.foldl_cons, ← hchars] at hstrings
  have hcopied : a.copyStrings L top argsNew 0 (arg :: args) =
      ((arg ++ [0]).foldl (Args.putChar L top)
        (a.setArg argsNew 0 ((a.virtAddr + a.offset) % 2 ^ 64))).copyStrings L top argsNew 1 args :=
    rfl
  rw [← hcopied] at hstrings
  obtain ⟨halign, hoffset⟩ := hstrings.align
  have hpointers := halign.copyPointers hL hR top argsNew hoffset (arg :: args).length 0
  have hrequests : Args.stringRequests L top argsNew 0 (arg :: args) a =
      Args.charRequests L top cs
          ((a.setArg argsNew 0 ((a.virtAddr + a.offset) % 2 ^ 64)).putChar L top c) ++
        Args.stringRequests L top argsNew 1 args ((arg ++ [0]).foldl (Args.putChar L top)
          (a.setArg argsNew 0 ((a.virtAddr + a.offset) % 2 ^ 64))) := by
    rw [Args.stringRequests, hchars, Args.charRequests, Args.roomRequests, if_neg hroom, List.nil_append, zero_add]
  rw [hrequests, List.forall_mem_append]
  simpa only [true_and, and_assoc] using hpointers

end Loops

/-! ## 5. The segments -/

theorem copyPage_frames (header index offset i page : Nat) (s : Load) :
    (copyPage header index offset i page s).frames = s.frames := by
  unfold copyPage
  dsimp only
  split
  · rfl
  · split
    · rfl
    · rfl

theorem copyPage_mmu (header index offset i page : Nat) (s : Load) :
    (copyPage header index offset i page s).kernel.mmu = s.kernel.mmu := by
  unfold copyPage
  dsimp only
  split
  · rfl
  · split
    · exact copyLoop_mmu _ _ _ _
    · exact copyLoop_mmu _ _ _ _

section Frames

variable {L : Layout} (hL : L.WellFormed) {mmu : Bool} (hR : L.Reachable mmu) {s : Load}
include hL hR

theorem Load.Framed.loadPage (h : s.Framed mmu) (top header index : Nat) (flags : Word)
    (offset i : Nat) : (loadPage L top header index flags offset i s).Framed mmu := by
  unfold IloPali.loadPage
  dsimp only
  generalize ((getElfProgramHeader s.kernel header index).virtualAddr + i * PAGE_SIZE) % 2 ^ 64 =
    virt
  have hnew := h.alloc hL hR top ((virt + 2 ^ 64 - offset) % 2 ^ 64) (flags ||| MMU_BIT_USER)
  split
  · exact hnew
  · constructor
    · rw [copyPage_mmu]
      exact hnew.mmu_eq
    · rw [copyPage_frames]
      exact hnew.frames

theorem Load.Framed.loadPages (h : s.Framed mmu) (top header index : Nat) (flags : Word)
    (offset n i : Nat) : (loadPages L top header index flags offset n i s).Framed mmu := by
  induction n generalizing i s with
  | zero => exact h
  | succ n ih => exact ih (h.loadPage hL hR top header index flags offset i) (i + 1)

theorem Load.Framed.loadSegments (h : s.Framed mmu) (top header n index : Nat) :
    (loadSegments L top header n index s).Framed mmu := by
  induction n generalizing index s with
  | zero => exact h
  | succ n ih =>
    rw [IloPali.loadSegments]
    split
    · apply ih
      unfold loadSegment
      dsimp only
      split
      · exact h
      · exact h.loadPages hL hR top header index _ _ _ 0
    · exact h

theorem Load.Framed.mapStack (h : s.Framed mmu) (top n : Nat) :
    (mapStack L top n s).Framed mmu := by
  induction n generalizing s with
  | zero => exact h
  | succ n ih =>
    have hnew := h.alloc hL hR top s.maxPage STACK_FLAGS
    exact ih (s := { (s.alloc L top s.maxPage STACK_FLAGS).2 with maxPage := _ })
      ⟨hnew.mmu_eq, hnew.frames⟩

end Frames

/-- The stack is mapped, and nothing is written. -/
theorem Load.InOwnFrames.mapStack {s : Load} (h : s.InOwnFrames) (L : Layout) (top n : Nat) :
    (mapStack L top n s).InOwnFrames := by
  induction n generalizing s with
  | zero => exact h
  | succ n ih =>
    apply ih
    exact h.mono (Load.alloc_mmu L top s.maxPage STACK_FLAGS s) rfl
      (Load.alloc_frames L top s.maxPage STACK_FLAGS s)

/-- What the loader has mapped are frames, and nothing was written outside of them. -/
structure Owns (ρ : Nat) (k0 : Kernel) (s : Load) : Prop where
  framed : s.Framed k0.mmu
  added : ∀ v, Added k0.mem s.kernel.mem ρ v → entryPhys (leaf s.kernel.mem ρ v) ∈ s.frames
  own : s.InOwnFrames

section Segments

variable {L : Layout} (hL : L.WellFormed) {H W : Nat → Prop} {ρ : Nat} {k0 : Kernel} {s : Load}

theorem Owns.start (ρ : Nat) (k : Kernel) : Owns ρ k ⟨k, 0, [], []⟩ := by
  refine ⟨⟨rfl, fun f hf => absurd hf List.not_mem_nil⟩, ?_, fun c hc => absurd hc List.not_mem_nil⟩
  rintro v ⟨hv, hvalid⟩
  dsimp only at hvalid
  rw [not_mapped_valid hv] at hvalid
  exact Bool.noConfusion hvalid

include hL

/-- **`mmu_alloc`** for a page of the task. -/
theorem Owns.alloc (h : Owns ρ k0 s) (hload : Loading L H W ρ k0 s.kernel)
    (hR : L.Reachable k0.mmu) {virt : Nat} {flags : Word}
    (hok : (mmuAlloc L (4096 * ρ) virt flags s.kernel).2.failed = s.kernel.failed) :
    Owns ρ k0 (s.alloc L (4096 * ρ) virt flags).2 := by
  have hmore := Load.alloc_frames L (4096 * ρ) virt flags s
  refine ⟨h.framed.alloc hL hR _ _ _, fun v hv => ?_, ?_⟩
  · have hkernel : (s.alloc L (4096 * ρ) virt flags).2.kernel =
        (mmuAlloc L (4096 * ρ) virt flags s.kernel).2 := rfl
    rw [hkernel] at hv ⊢
    have hold : leaf (mmuAlloc L (4096 * ρ) virt flags s.kernel).2.mem ρ v = leaf s.kernel.mem ρ v →
        entryPhys (leaf (mmuAlloc L (4096 * ρ) virt flags s.kernel).2.mem ρ v) ∈
          (s.alloc L (4096 * ρ) virt flags).2.frames := by
      intro hleaf
      unfold Added at hv
      rw [hleaf] at hv ⊢
      exact hmore (h.added v hv)
    rcases mmuAlloc_spec hL hload.tree hok with ⟨_, _, hF⟩ | ⟨_, p, hpage, hp⟩
    · exact hold (hload.tree.frame_leaf hF (fun _ _ hn => hn) v)
    · by_cases hsame : v = getVpns virt
      · have hleaf := hp.leaf_eq v
        have hpos : 4096 * p ≠ 0 := Nat.mul_ne_zero (by decide) (hp.owned.addressable hL).1
        have hphys := entryPhys_leafEntry (hp.owned.lt hL) flags
        rw [if_pos hsame] at hleaf
        rw [hleaf, hphys, Nat.mul_div_cancel_left p (by decide), Nat.mul_comm p]
        unfold Load.alloc
        dsimp only
        rw [hpage, if_neg hpos]
        exact List.mem_cons_self
      · have hleaf := hp.leaf_eq v
        rw [if_neg hsame] at hleaf
        exact hold hleaf
  · exact h.own.mono (Load.alloc_mmu L _ _ _ s) rfl hmore

/-- **A copy** to a page of the task. -/
theorem Owns.copyPage (h : Owns ρ k0 s) (hload : Loading L H W ρ k0 s.kernel) {v : PageNumber}
    {flags : Word} {p : Nat} (hp : TaskPage L H ρ k0 s.kernel v flags p) (header index i : Nat)
    {offset : Nat} (hoff : offset < PAGE_SIZE) : Owns ρ k0
      (copyPage header index offset i (phys2safe s.kernel.mmu (4096 * p)) s) := by
  have hframe := copyPage_frame hL hp.owned header index i hoff
  have hmmu := hframe.mmu
  have hleaf := hload.tree.frame_leaf hframe fun n hn => by
    rintro rfl
    exact hp.notTable hn
  have hpage := h.added v (hp.added hL)
  rw [hp.entryPhys_eq hL] at hpage
  have hshown := (hp.owned.addressable hL).2
  have hframes := copyPage_frames header index offset i (phys2safe s.kernel.mmu (4096 * p)) s
  refine ⟨⟨hmmu.trans h.framed.mmu_eq, ?_⟩, fun v' hv' => ?_, ?_⟩
  · rw [hframes]
    exact h.framed.frames
  · unfold Added at hv'
    rw [hleaf] at hv' ⊢
    rw [hframes]
    exact h.added v' hv'
  · rw [copyPage_chunk header index offset i _ s hoff] at hmmu ⊢
    have hrange := chunkSize_range (getElfProgramHeader s.kernel header index) i hoff
    obtain ⟨_, _, hlow, hhigh⟩ := hp.owned.pointer hL 0
    split
    · exact h.own
    · rename_i hfile
      rw [if_neg hfile] at hmmu
      intro c hc j hj
      rw [hmmu]
      rcases List.mem_cons.mp hc with rfl | hold
      · dsimp only at hj ⊢
        rw [Nat.add_assoc]
        apply inFrames_offset (hp.owned.addressable hL) hpage
        -- the length is that of the chunk, or nothing is copied
        by_cases hi : i = 0
        · have hsize : chunkSize (getElfProgramHeader s.kernel header index) offset 0 =
              PAGE_SIZE - offset := by
            simp [chunkSize, copySize, PAGE_SIZE]
          subst hi
          rw [if_pos rfl, hsize] at hj
          rw [if_pos rfl]
          rw [PAGE_SIZE] at *
          omega
        · rw [if_neg hi] at hj ⊢
          rw [PAGE_SIZE] at *
          omega
      · exact h.own c hold j hj

/-- **One page of a segment.** -/
theorem Owns.loadPage (h : Owns ρ k0 s) (hload : Loading L H W ρ k0 s.kernel)
    (hR : L.Reachable k0.mmu) (hno : ∀ v, mmuEntryUser (leaf k0.mem ρ v) = false)
    (header index i : Nat) {flags : Word} {offset : Nat}
    (hflags : UserFlags (flags ||| MMU_BIT_USER)) (hoff : offset < PAGE_SIZE)
    (hok : (loadPage L (4096 * ρ) header index flags offset i s).kernel.failed = s.kernel.failed) :
    Owns ρ k0 (IloPali.loadPage L (4096 * ρ) header index flags offset i s) := by
  unfold IloPali.loadPage at hok ⊢
  dsimp only at hok ⊢
  generalize ((getElfProgramHeader s.kernel header index).virtualAddr + i * PAGE_SIZE) % 2 ^ 64 =
    virt at hok ⊢
  have hnew := @Owns.alloc L hL H W ρ k0 s h hload hR ((virt + 2 ^ 64 - offset) % 2 ^ 64)
    (flags ||| MMU_BIT_USER)
  unfold Load.alloc at hok hnew ⊢
  rcases halloc : mmuAlloc L (4096 * ρ) ((virt + 2 ^ 64 - offset) % 2 ^ 64) (flags ||| MMU_BIT_USER)
    s.kernel with ⟨page, k'⟩
  rw [halloc] at hok hnew
  dsimp only at hok hnew ⊢
  have hfailed : k'.failed = s.kernel.failed := by
    split at hok
    · exact hok
    · exact (copyPage_failed _ _ _ _ _ _).symm.trans hok
  have hload' := @Loading.alloc L hL H W ρ k0 s.kernel hload _ _ hflags
    (by rw [halloc]; exact hfailed)
  rw [halloc] at hload'
  have hown := hnew hfailed
  split
  · exact hown
  · rename_i page' hpage
    obtain ⟨_, _, p, hp, hptr⟩ := hload.segmentPage hL hno hflags halloc hfailed hpage
    rw [hptr]
    refine Owns.copyPage (s := ⟨k', _, _, _⟩) hL ?_ hload' hp header index i hoff
    exact ⟨⟨hown.framed.mmu_eq, hown.framed.frames⟩, hown.added, hown.own⟩

theorem Owns.loadPages (h : Owns ρ k0 s) (hload : Loading L H W ρ k0 s.kernel)
    (hR : L.Reachable k0.mmu) (hno : ∀ v, mmuEntryUser (leaf k0.mem ρ v) = false)
    (header index n i : Nat) {flags : Word} {offset : Nat}
    (hflags : UserFlags (flags ||| MMU_BIT_USER)) (hoff : offset < PAGE_SIZE)
    (hok : (loadPages L (4096 * ρ) header index flags offset n i s).kernel.failed =
      s.kernel.failed) :
    Owns ρ k0 (IloPali.loadPages L (4096 * ρ) header index flags offset n i s) := by
  induction n generalizing i s with
  | zero => exact h
  | succ n ih =>
    rw [IloPali.loadPages] at hok ⊢
    have hfirst := loadPage_failed_le L (4096 * ρ) header index flags offset i s
    have hrest := loadPages_failed_le L (4096 * ρ) header index flags offset n (i + 1)
      (IloPali.loadPage L (4096 * ρ) header index flags offset i s)
    have hpage : (IloPali.loadPage L (4096 * ρ) header index flags offset i s).kernel.failed =
        s.kernel.failed := by omega
    apply ih
    · exact h.loadPage hL hload hR hno header index i hflags hoff hpage
    · exact hload.loadPage hL hno header index i hflags hoff hpage
    · omega

theorem Owns.loadSegment (h : Owns ρ k0 s) (hload : Loading L H W ρ k0 s.kernel)
    (hR : L.Reachable k0.mmu) (hno : ∀ v, mmuEntryUser (leaf k0.mem ρ v) = false)
    (header index : Nat)
    (hok : (loadSegment L (4096 * ρ) header index s).kernel.failed = s.kernel.failed) :
    Owns ρ k0 (IloPali.loadSegment L (4096 * ρ) header index s) := by
  unfold IloPali.loadSegment at hok ⊢
  dsimp only at hok ⊢
  split
  · exact h
  · rename_i htype
    rw [if_neg htype] at hok
    exact h.loadPages hL hload hR hno header index _ 0 (userFlags_segment _)
      (Nat.mod_lt _ (by decide)) hok

/-- **The segments** are copied to frames of the task. -/
theorem Owns.loadSegments (h : Owns ρ k0 s) (hload : Loading L H W ρ k0 s.kernel)
    (hR : L.Reachable k0.mmu) (hno : ∀ v, mmuEntryUser (leaf k0.mem ρ v) = false)
    (header n index : Nat)
    (hok : (loadSegments L (4096 * ρ) header n index s).kernel.failed = s.kernel.failed) :
    Owns ρ k0 (IloPali.loadSegments L (4096 * ρ) header n index s) := by
  induction n generalizing index s with
  | zero => exact h
  | succ n ih =>
    rw [IloPali.loadSegments] at hok ⊢
    split
    · rename_i hindex
      rw [if_pos hindex] at hok
      have hfirst := loadSegment_failed_le L (4096 * ρ) header index s
      have hrest := loadSegments_failed_le L (4096 * ρ) header n (index + 1)
        (IloPali.loadSegment L (4096 * ρ) header index s)
      have hsegment : (IloPali.loadSegment L (4096 * ρ) header index s).kernel.failed =
          s.kernel.failed := by omega
      apply ih
      · exact h.loadSegment hL hload hR hno header index hsegment
      · exact hload.loadSegment hL hno header index hsegment
      · omega
    · exact h

end Segments

/-! ## 6. The call -/

section Call

variable {L : Layout} (hL : L.WellFormed) {s : HeapTrace} {rs : List PageRun}
  {free : SizeClass → List Nat} {pid : Nat}
include hL

end Call

section OnePage

variable (L : Layout) (top argsNew : Nat)

end OnePage

section Edge

set_option maxRecDepth 100000

end Edge

end IloPali
