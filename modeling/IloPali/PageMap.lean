import IloPali.MmuSpec
import IloPali.Lib.Transition

/-!
# Page tables refine a map of pages

What a page table is for, stated without tables: a map from page numbers to a
physical page and flags.  `denote` reads a table the way the hardware walks it.
Every run of `mmu_map`, `mmu_alloc`, `mmu_change_flags` and `mmu_remove` on the
lower half is a run of the four operations of the map, with the same return
values, and `mmu_walk_to_entry` finds exactly the pages the map has.
-/

namespace IloPali

open ByteMemory RadixTree Transition

/-! ## 1. The abstract map -/

/-- What a page number maps to: a physical page and its flags. -/
structure Mapping where
  page : Nat
  flags : Word
deriving DecidableEq

abbrev PageMap := PageNumber → Option Mapping

/-- What `mmu_map` installs. -/
def Mapping.installed (phys : Nat) (flags : Word) : Mapping :=
  ⟨phys / 4096, leafFlags flags &&& MMU_ALL_BITS⟩

namespace PageMap

def insert (m : PageMap) (v : PageNumber) (x : Mapping) : PageMap :=
  if m v = none then Function.update m v (some x) else m

def setFlags (m : PageMap) (v : PageNumber) (flags : Word) : PageMap :=
  Function.update m v ((m v).map fun x => { x with flags := leafFlags flags &&& MMU_ALL_BITS })

def erase (m : PageMap) (v : PageNumber) : PageMap := Function.update m v none

/-- The upper half of every table: 256 gigabytes of physical memory. -/
def directMap : PageMap := fun v =>
  if 256 ≤ v.vpn0.val then
    some ⟨(v.vpn0 - 256) * 2 ^ 18 + v.vpn1 * 512 + v.vpn2, 0x27#64⟩
  else none

/-- The map of a new table: the direct map and the kernel's own pages. -/
def kernel (L : Layout) : PageMap :=
  L.identityPages.foldl (fun m q => m.insert (getVpns q.1) (.installed q.1 q.2)) directMap

end PageMap

/-- The calls, with their return values. -/
inductive MmuOp where
  | map (virtAddr physical : Nat) (flags : Word) (ret : Int)
  | alloc (virtAddr : Nat) (flags : Word) (ret : Nat)
  | changeFlags (virtAddr : Nat) (flags : Word)
  | remove (virtAddr : Nat) (ret : Nat)

/-- The address a call is about. -/
def MmuOp.virtAddr : MmuOp → Nat
  | map virt _ _ _ => virt
  | alloc virt _ _ => virt
  | changeFlags virt _ => virt
  | remove virt _ => virt

/-- The four operations of the map. -/
inductive PageMap.Step (mmu : Bool) : PageMap → MmuOp → PageMap → Prop
  | mapAbsent {m : PageMap} {virt phys : Nat} {flags : Word} (h : m (getVpns virt) = none) :
      Step mmu m (.map virt phys flags 0) (m.insert (getVpns virt) (.installed phys flags))
  | mapPresent {m : PageMap} {virt phys : Nat} {flags : Word} (h : m (getVpns virt) ≠ none) :
      Step mmu m (.map virt phys flags (-1)) m
  | allocAbsent {m : PageMap} {virt page : Nat} {flags : Word} (h : m (getVpns virt) = none)
      (hpage : page ≠ 0) :
      Step mmu m (.alloc virt flags page) (m.insert (getVpns virt) (.installed page flags))
  | allocPresent {m : PageMap} {virt : Nat} {flags : Word} (h : m (getVpns virt) ≠ none) :
      Step mmu m (.alloc virt flags 0) m
  | changeFlags {m : PageMap} {virt : Nat} {flags : Word} :
      Step mmu m (.changeFlags virt flags) (m.setFlags (getVpns virt) flags)
  | removePresent {m : PageMap} {virt : Nat} {x : Mapping} (h : m (getVpns virt) = some x) :
      Step mmu m (.remove virt (phys2safe mmu (4096 * x.page))) (m.erase (getVpns virt))
  | removeAbsent {m : PageMap} {virt : Nat} (h : m (getVpns virt) = none) :
      Step mmu m (.remove virt 0) m

theorem PageMap.insert_absent {m : PageMap} {v : PageNumber} (h : m v = none) (x : Mapping) :
    m.insert v x = Function.update m v (some x) := if_pos h

theorem PageMap.insert_present {m : PageMap} {v : PageNumber} (h : m v ≠ none) (x : Mapping) :
    m.insert v x = m := if_neg h

/-- An operation changes the map only at the page number it is about. -/
theorem PageMap.Step.other {mmu : Bool} {m m' : PageMap} {op : MmuOp} (h : Step mmu m op m')
    {v : PageNumber} (hv : v ≠ getVpns op.virtAddr) : m' v = m v := by
  cases h with
  | mapAbsent h =>
    rw [insert_absent h]
    exact Function.update_of_ne hv _ _
  | mapPresent _ => rfl
  | allocAbsent h _ =>
    rw [insert_absent h]
    exact Function.update_of_ne hv _ _
  | allocPresent _ => rfl
  | changeFlags => exact Function.update_of_ne hv _ _
  | removePresent _ => exact Function.update_of_ne hv _ _
  | removeAbsent _ => rfl

/-! ## 2. The calls -/

/-- One successful call on the table at `root`: the address is in the lower half,
    physical addresses are aligned and below `2 ^ 56`, flags contain a permission,
    and no page allocation fails. -/
inductive MmuStep (L : Layout) (root : Nat) : Kernel → MmuOp → Kernel → Prop
  | map {k k' : Kernel} {virt phys : Nat} {flags : Word} {ret : Int}
      (hlow : (getVpns virt).vpn0.val < 256) (haligned : phys % 4096 = 0) (hphys : phys < 2 ^ 56)
      (hflags : mmuEntryFrame flags = true) (hcall : mmuMap L root virt phys flags k = (ret, k'))
      (hok : k'.failed = k.failed) : MmuStep L root k (.map virt phys flags ret) k'
  | alloc {k k' : Kernel} {virt ret : Nat} {flags : Word}
      (hlow : (getVpns virt).vpn0.val < 256) (hflags : mmuEntryFrame flags = true)
      (hcall : mmuAlloc L root virt flags k = (ret, k')) (hok : k'.failed = k.failed) :
      MmuStep L root k (.alloc virt flags ret) k'
  | changeFlags {k : Kernel} {virt : Nat} {flags : Word}
      (hlow : (getVpns virt).vpn0.val < 256) (hflags : mmuEntryFrame flags = true) :
      MmuStep L root k (.changeFlags virt flags) (mmuChangeFlags root virt flags k)
  | remove {k k' : Kernel} {virt ret : Nat} (hlow : (getVpns virt).vpn0.val < 256)
      (hcall : mmuRemove root virt k = (ret, k')) : MmuStep L root k (.remove virt ret) k'

/-! ## 3. Reading a table -/

/-- The offset of a page in a frame above the last level. -/
def superpageOffset (vpns : List (Fin 512)) : Nat := vpns.foldl (fun a i => a * 512 + i.val) 0

/-- The walk of the hardware, from the table in page `n`. -/
def translate (m : Mem) : List (Fin 512) → Nat → Option Mapping
  | [], _ => none
  | i :: vpns, n =>
    if mmuEntryValid (cells m n i) = false then none
    else if mmuEntryFrame (cells m n i) = true then
      some ⟨entryPhys (cells m n i) / 4096 + superpageOffset vpns, cells m n i &&& MMU_ALL_BITS⟩
    else translate m vpns (entryPhys (cells m n i) / 4096)

/-- **The map a table stands for.** -/
def denote (m : Mem) (ρ : Nat) : PageMap := fun v => translate m [v.vpn0, v.vpn1, v.vpn2] ρ

theorem root_page (ρ : Nat) : 4096 * ρ / PAGE_SIZE = ρ :=
  Nat.mul_div_cancel_left ρ (by decide)

/-- What a last-level entry maps to. -/
def mappingOf (e : Word) : Option Mapping :=
  if mmuEntryValid e = true ∧ mmuEntryFrame e = true then
    some ⟨entryPhys e / 4096, e &&& MMU_ALL_BITS⟩
  else none

theorem mappingOf_leafEntry {phys : Nat} (hphys : phys < 2 ^ 56) {flags : Word}
    (hflags : mmuEntryFrame flags = true) :
    mappingOf (leafEntry phys flags) = some (.installed phys flags) := by
  rw [mappingOf, if_pos ⟨valid_leafEntry hphys flags, (frame_leafEntry hphys flags).trans hflags⟩,
    entryPhys_leafEntry hphys, flags_of_leafEntry hphys,
    Nat.mul_div_cancel _ (by decide : 0 < 4096), Mapping.installed]

/-- Following one link of the lower half. -/
theorem translate_link {L : Layout} {k : Kernel} {ρ : Nat} (hT : Tree L k ρ)
    {π : List (Fin 512)} {n : Nat} {i : Fin 512} (hπ : π.length < 2)
    (hn : tableAt k.mem ρ π = some n) (hlow : π = [] → i.val < 256) (vpns : List (Fin 512)) :
    translate k.mem (i :: vpns) n =
      (tableAt k.mem ρ (π ++ [i])).bind fun c => translate k.mem vpns c := by
  rw [tableAt_snoc, hn, translate]
  by_cases hv : mmuEntryValid (cells k.mem n i) = true
  · have hf := hT.noFrames π n i hπ hn hlow hv
    rw [if_neg (by simp [hv]), if_neg (by simp [hf]), Option.bind_some, childTable_of_valid hv hf,
      Option.bind_some]
  · have hv' : mmuEntryValid (cells k.mem n i) = false := by simpa using hv
    rw [if_pos hv', Option.bind_some, childTable_of_invalid hv', Option.bind_none]

theorem denote_lower {L : Layout} {k : Kernel} {ρ : Nat} (hT : Tree L k ρ) {v : PageNumber}
    (hlow : v.vpn0.val < 256) : denote k.mem ρ v = mappingOf (leaf k.mem ρ v) := by
  rw [denote, translate_link hT (π := []) (by decide) rfl (fun _ => hlow)]
  rw [leaf, show [v.vpn0, v.vpn1] = ([] ++ [v.vpn0]) ++ [v.vpn1] from rfl]
  cases hc : tableAt k.mem ρ ([] ++ [v.vpn0]) with
  | none =>
    rw [tableAt_snoc, hc]
    simp [mappingOf, valid_zero]
  | some c =>
    rw [Option.bind_some,
      translate_link hT (π := [v.vpn0]) (Nat.lt_succ_self 1) hc (fun h => nomatch h),
      List.nil_append]
    cases tableAt k.mem ρ ([v.vpn0] ++ [v.vpn1]) with
    | none => simp [mappingOf, valid_zero]
    | some n =>
      rw [Option.bind_some, translate, mappingOf]
      by_cases hv : mmuEntryValid (cells k.mem n v.vpn2) = true
      · by_cases hf : mmuEntryFrame (cells k.mem n v.vpn2) = true
        · simp [hv, hf, superpageOffset]
        · simp [hv, hf, translate]
      · simp [hv]

theorem denote_upper {L : Layout} {k : Kernel} {ρ : Nat} (hT : Tree L k ρ) {v : PageNumber}
    (hhigh : 256 ≤ v.vpn0.val) : denote k.mem ρ v = PageMap.directMap v := by
  obtain ⟨hvalid, hframe, _⟩ := directMapEntry_spec v.vpn0 hhigh
  have hbits : ∀ i : Fin 512, 256 ≤ i.val → entryPhys (directMapEntry i) / 4096 = (i - 256) * 2 ^ 18 ∧
      directMapEntry i &&& MMU_ALL_BITS = 0x27#64 := by decide +kernel
  obtain ⟨hpage, hflags⟩ := hbits v.vpn0 hhigh
  rw [denote, translate, hT.direct _ hhigh, if_neg (by simp [hvalid]), if_pos hframe, hpage, hflags,
    PageMap.directMap, if_pos hhigh]
  simp [superpageOffset, Nat.add_assoc]

/-! ## 4. The refinement -/

/-- The table below `ρ` is a tree, its valid leaf entries are frames, and it
    stands for the map `m`. -/
structure Refines (L : Layout) (ρ : Nat) (k : Kernel) (m : PageMap) : Prop where
  tree : Tree L k ρ
  frames : ∀ v, mmuEntryValid (leaf k.mem ρ v) = true → mmuEntryFrame (leaf k.mem ρ v) = true
  denotes : denote k.mem ρ = m

theorem Refines.absent_iff {L : Layout} {ρ : Nat} {k : Kernel} {m : PageMap}
    (h : Refines L ρ k m) (v : PageNumber) : m v = none ↔ ¬ Mapped k.mem ρ v := by
  rw [← h.denotes]
  by_cases hlow : v.vpn0.val < 256
  · rw [denote_lower h.tree hlow, mappingOf, Mapped]
    by_cases hv : mmuEntryValid (leaf k.mem ρ v) = true
    · simp [hv, h.frames v hv]
    · simp [hv, hlow]
  · rw [denote_upper h.tree (by omega), PageMap.directMap, if_pos (by omega), Mapped]
    simp [show 256 ≤ v.vpn0.val by omega]

/-- Changing one leaf entry changes the map at one page number. -/
theorem Refines.update {L : Layout} {ρ : Nat} {k k' : Kernel} {m : PageMap}
    (h : Refines L ρ k m) (hT : Tree L k' ρ) {v : PageNumber} {e : Word}
    (hlow : v.vpn0.val < 256) (hframe : mmuEntryValid e = true → mmuEntryFrame e = true)
    (hleaf : ∀ v', leaf k'.mem ρ v' = if v' = v then e else leaf k.mem ρ v') :
    Refines L ρ k' (Function.update m v (mappingOf e)) := by
  refine ⟨hT, fun v' hv' => ?_, funext fun v' => ?_⟩
  · rw [hleaf v'] at hv' ⊢
    by_cases hvv : v' = v
    · rw [if_pos hvv] at hv' ⊢
      exact hframe hv'
    · rw [if_neg hvv] at hv' ⊢
      exact h.frames v' hv'
  · by_cases hvv : v' = v
    · subst hvv
      rw [denote_lower hT hlow, hleaf, if_pos rfl, Function.update_self]
    · rw [Function.update_of_ne hvv, ← h.denotes]
      by_cases hlow' : v'.vpn0.val < 256
      · rw [denote_lower hT hlow', denote_lower h.tree hlow', hleaf, if_neg hvv]
      · rw [denote_upper hT (by omega), denote_upper h.tree (by omega)]

/-- A page that was just mapped. -/
theorem Refines.insert {L : Layout} {ρ : Nat} {k k' : Kernel} {m : PageMap}
    (h : Refines L ρ k m) (hT : Tree L k' ρ) {v : PageNumber} {phys : Nat} {flags : Word}
    (habsent : ¬ Mapped k.mem ρ v) (hphys : phys < 2 ^ 56) (hflags : mmuEntryFrame flags = true)
    (hleaf : ∀ v', leaf k'.mem ρ v' = if v' = v then leafEntry phys flags else leaf k.mem ρ v') :
    Refines L ρ k' (m.insert v (.installed phys flags)) := by
  have hlow : v.vpn0.val < 256 := by
    by_contra hhigh
    exact habsent (Or.inl (by omega))
  have hnew := h.update hT hlow (fun _ => (frame_leafEntry hphys flags).trans hflags) hleaf
  rw [mappingOf_leafEntry hphys hflags] at hnew
  rw [PageMap.insert_absent ((h.absent_iff v).mpr habsent)]
  exact hnew

theorem Refines.setFlags {L : Layout} {ρ : Nat} {k k' : Kernel} {m : PageMap}
    (h : Refines L ρ k m) (hT : Tree L k' ρ) {v : PageNumber} {flags : Word}
    (hlow : v.vpn0.val < 256) (hvalid : mmuEntryValid (leaf k.mem ρ v) = true)
    (hflags : mmuEntryFrame flags = true)
    (hleaf : ∀ v', leaf k'.mem ρ v' =
      if v' = v then withFlags (leaf k.mem ρ v) (leafFlags flags) else leaf k.mem ρ v') :
    Refines L ρ k' (m.setFlags v flags) := by
  have hbits := flags_of_withFlags (leaf k.mem ρ v) (leafFlags flags)
  have hf : mmuEntryFrame (withFlags (leaf k.mem ρ v) (leafFlags flags)) = true := by
    rw [mmuEntryFrame_congr hbits, frame_leafFlags, hflags]
  have hv : mmuEntryValid (withFlags (leaf k.mem ρ v) (leafFlags flags)) = true := by
    rw [mmuEntryValid_congr hbits, valid_leafFlags]
  have hnew := h.update hT hlow (fun _ => hf) hleaf
  have hold : m v = some ⟨entryPhys (leaf k.mem ρ v) / 4096, leaf k.mem ρ v &&& MMU_ALL_BITS⟩ := by
    rw [← h.denotes, denote_lower h.tree hlow, mappingOf, if_pos ⟨hvalid, h.frames v hvalid⟩]
  rw [mappingOf, if_pos ⟨hv, hf⟩, entryPhys_withFlags, hbits] at hnew
  rw [PageMap.setFlags, hold]
  exact hnew

theorem Refines.erase {L : Layout} {ρ : Nat} {k k' : Kernel} {m : PageMap}
    (h : Refines L ρ k m) (hT : Tree L k' ρ) {v : PageNumber} (hlow : v.vpn0.val < 256)
    (hleaf : ∀ v', leaf k'.mem ρ v' =
      if v' = v then withFlags (leaf k.mem ρ v) 0#64 else leaf k.mem ρ v') :
    Refines L ρ k' (m.erase v) := by
  have hv : mmuEntryValid (withFlags (leaf k.mem ρ v) 0#64) = false :=
    (mmuEntryValid_congr (flags_of_withFlags _ _)).trans valid_zero
  have hnew := h.update hT hlow (fun hc => by rw [hv] at hc; exact nomatch hc) hleaf
  rw [mappingOf, if_neg (by simp [hv])] at hnew
  exact hnew

/-- **One call** is one operation of the map, with the same return value. -/
theorem Refines.step {L : Layout} (hL : L.WellFormed) {ρ : Nat} {k k' : Kernel} {m : PageMap}
    {op : MmuOp} (h : Refines L ρ k m)
    (hstep : MmuStep L (4096 * ρ) k op k') :
    ∃ m', PageMap.Step k.mmu m op m' ∧ Refines L ρ k' m' ∧ k'.mmu = k.mmu := by
  cases hstep with
  | @map _ virt phys flags ret hlow haligned hphys hflags hcall hok =>
    have hspec := @mmuMap_spec L hL k ρ h.tree virt phys flags
    rw [hcall] at hspec
    rcases hspec hok with ⟨hm, hfail⟩ | ⟨hm, hret, hE, hleaf⟩
    · obtain ⟨rfl, rfl⟩ := Prod.mk.inj hfail
      exact ⟨m, .mapPresent fun hn => (h.absent_iff _).mp hn hm, h, rfl⟩
    · dsimp only at hret hE hleaf
      subst hret
      exact ⟨_, .mapAbsent ((h.absent_iff _).mpr hm), h.insert hE.tree hm hphys hflags hleaf,
        hE.frame.mmu⟩
  | @alloc _ virt ret flags hlow hflags hcall hok =>
    have hspec := @mmuAlloc_spec L hL k ρ h.tree virt flags
    rw [hcall] at hspec
    rcases hspec hok with ⟨hm, hret, hF⟩ | ⟨hm, p, hret, hP⟩
    · dsimp only at hret hF
      subst hret
      have hW : ∀ n, IsTable k.mem ρ n → ¬ False := fun _ _ => id
      have hT := h.tree.frame hF hW
      have hleaf := h.tree.frame_leaf hF hW
      refine ⟨m, .allocPresent fun hn => (h.absent_iff _).mp hn hm, ⟨hT, fun v => ?_, ?_⟩, hF.mmu⟩
      · rw [hleaf v]
        exact h.frames v
      · rw [← h.denotes]
        funext v
        by_cases hlow' : v.vpn0.val < 256
        · rw [denote_lower hT hlow', denote_lower h.tree hlow', hleaf v]
        · rw [denote_upper hT (by omega), denote_upper h.tree (by omega)]
    · dsimp only at hret hP
      subst hret
      have hne := (hP.owned.addressable hL).1
      exact ⟨_, .allocAbsent ((h.absent_iff _).mpr hm) (by omega),
        h.insert hP.evolves.tree hm (hP.owned.lt hL) hflags hP.leaf_eq, hP.evolves.frame.mmu⟩
  | @changeFlags virt flags hlow hflags =>
    rcases mmuChangeFlags_lower hL h.tree hlow flags with ⟨hv, heq⟩ | ⟨hv, hE, hleaf⟩
    · -- an absent page has no flags to set
      have habsent : m (getVpns virt) = none := by
        rw [h.absent_iff, Mapped, hv]
        simp [hlow]
      have hsame : m.setFlags (getVpns virt) flags = m := by
        rw [PageMap.setFlags, habsent]
        exact Function.update_eq_self_iff.mpr habsent.symm
      have hstep := @PageMap.Step.changeFlags k.mmu m virt flags
      rw [hsame] at hstep
      rw [heq]
      exact ⟨m, hstep, h, rfl⟩
    · exact ⟨_, .changeFlags, h.setFlags hE.tree hlow hv hflags hleaf, hE.frame.mmu⟩
  | @remove _ virt ret hlow hcall =>
    have hspec := mmuRemove_lower hL h.tree hlow
    rw [hcall] at hspec
    rcases hspec with ⟨hv, heq⟩ | ⟨hv, hret, hE, hleaf⟩
    · obtain ⟨rfl, rfl⟩ := Prod.mk.inj heq
      refine ⟨m, .removeAbsent ?_, h, rfl⟩
      rw [h.absent_iff, Mapped, hv]
      simp [hlow]
    · dsimp only at hret hE hleaf
      have hpresent : m (getVpns virt) = some ⟨entryPhys (leaf k.mem ρ (getVpns virt)) / 4096,
          leaf k.mem ρ (getVpns virt) &&& MMU_ALL_BITS⟩ := by
        rw [← h.denotes, denote_lower h.tree hlow, mappingOf, if_pos ⟨hv, h.frames _ hv⟩]
      have hstep : PageMap.Step k.mmu m _ _ := .removePresent hpresent
      rw [Nat.mul_comm 4096, ← entryPhys_aligned] at hstep
      rw [hret]
      exact ⟨_, hstep, h.erase hE.tree hlow hleaf, hE.frame.mmu⟩

/-- **A new table** stands for the direct map and the kernel's own pages. -/
theorem createMmuTable_refines {L : Layout} (hL : L.WellFormed) {k : Kernel}
    (hok : (createMmuTable L k).2.failed = k.failed) :
    ∃ ρ, (createMmuTable L k).1 = 4096 * ρ ∧
      Refines L ρ (createMmuTable L k).2 (PageMap.kernel L) ∧
      (createMmuTable L k).2.mmu = k.mmu := by
  obtain ⟨ρ, k1, hroot, hmap, _, hF, hfailed, hT, _, hleaf⟩ := createRoot_spec hL hok
  refine ⟨ρ, hroot, ?_⟩
  rw [hmap] at hok ⊢
  rw [← hfailed] at hok
  have hbase : Refines L ρ k1 PageMap.directMap := by
    refine ⟨hT, fun v hv => ?_, funext fun v => ?_⟩
    · rw [hleaf v] at hv
      exact absurd hv (by decide)
    · by_cases hlow : v.vpn0.val < 256
      · rw [denote_lower hT hlow, hleaf v, mappingOf, if_neg (by decide), PageMap.directMap,
          if_neg (by omega)]
      · exact denote_upper hT (by omega)
  refine identityMapKernel_rel (4096 * ρ)
    (R := fun k' m => Refines L ρ k' m ∧ k'.mmu = k.mmu) ?_ ⟨hbase, hF.mmu⟩ hok
  rintro k' m q hq ⟨h, hmmu⟩ hok'
  obtain ⟨hphys, _, hframe⟩ := identityPages_spec hL hq
  rcases mmuMap_spec hL h.tree hok' with ⟨hm, hfail⟩ | ⟨hm, _, hE, hleaf'⟩
  · rw [hfail, PageMap.insert_present fun hn => (h.absent_iff _).mp hn hm]
    exact ⟨h, hmmu⟩
  · exact ⟨h.insert hE.tree hm hphys hframe hleaf', hE.frame.mmu.trans hmmu⟩

/-- `mmu_walk_to_entry` reads the map: `NULL` for a page number that is absent, and
    otherwise a pointer to an entry with that mapping. -/
theorem Refines.walk {L : Layout} (hL : L.WellFormed) {ρ : Nat} {k : Kernel} {m : PageMap}
    (h : Refines L ρ k m) {virt : Nat}
    (hlow : (getVpns virt).vpn0.val < 256) :
    m (getVpns virt) =
      if mmuWalkToEntry k (4096 * ρ) virt = 0 then none
      else mappingOf (k.entry (mmuWalkToEntry k (4096 * ρ) virt)) := by
  rw [← h.denotes, denote_lower h.tree hlow]
  rcases setFlags_walk hL h.tree hlow 0#64 with ⟨hv, hnull⟩ | ⟨hv, hne, hentry, _⟩
  · rw [if_pos hnull, mappingOf, if_neg (by simp [hv])]
  · rw [if_neg hne, hentry]

/-- **Page tables refine a map of pages.**  From any table `create_mmu_table`
    builds, every run of successful calls on the lower half is a run of the map's
    operations with the same return values; the table always denotes the map, the
    code's own walk reads the map, and the next call changes the translation and
    permissions of no page but its own. -/
theorem page_table_refines_map (L : Layout) (hL : L.WellFormed) (k0 k s : Kernel) (root : Nat)
    (hcreate : createMmuTable L k0 = (root, k))
    (hok : k.failed = k0.failed) (ops : List MmuOp) (hrun : Run (MmuStep L root) k ops s) :
    ∃ m, Run (PageMap.Step k0.mmu) (PageMap.kernel L) ops m ∧
      denote s.mem (root / PAGE_SIZE) = m ∧
      (∀ virt, (getVpns virt).vpn0.val < 256 → m (getVpns virt) =
        if mmuWalkToEntry s root virt = 0 then none
        else mappingOf (s.entry (mmuWalkToEntry s root virt))) ∧
      ∀ op t, MmuStep L root s op t → ∀ v, v ≠ getVpns op.virtAddr →
        denote t.mem (root / PAGE_SIZE) v = m v := by
  have hnew := createMmuTable_refines hL (by rw [hcreate]; exact hok)
  rw [hcreate] at hnew
  obtain ⟨ρ, hroot, hrefines, hmmu⟩ := hnew
  dsimp only at hroot hrefines hmmu
  subst hroot
  have hsim : ∃ m, Run (PageMap.Step k0.mmu) (PageMap.kernel L) ops m ∧
      Refines L ρ s m ∧ s.mmu = k0.mmu := by
    refine hrun.simulates (R := fun s m => Refines L ρ s m ∧ s.mmu = k0.mmu) ?_ _ ⟨hrefines, hmmu⟩
    rintro s op t m ⟨h, hmmu'⟩ hstep
    obtain ⟨m', hstepA, h', hmmu''⟩ := h.step hL hstep
    rw [hmmu'] at hstepA
    exact ⟨m', hstepA, h', hmmu''.trans hmmu'⟩
  obtain ⟨m, hrunA, h, hmmu'⟩ := hsim
  rw [PAGE_SIZE, Nat.mul_div_cancel_left ρ (by decide)]
  refine ⟨m, hrunA, h.denotes, fun virt hlow => h.walk hL hlow, fun op t hstep v hv => ?_⟩
  obtain ⟨m', hstepA, h', _⟩ := h.step hL hstep
  rw [h'.denotes]
  exact hstepA.other hv

/-- Mapping one page of a new table: the table then denotes the map the abstract
    operation gives. -/
theorem page_table_refines_map_once : ∃ s m,
    Run (PageMap.Step false) (PageMap.kernel Layout.small)
      [.map 0x10000000 0x80600000 MMU_BIT_READ 0] m ∧ denote s (0x80201000 / PAGE_SIZE) = m := by
  have hroot : (createMmuTable Layout.small Kernel.blank).1 = 0x80201000 := by decide +kernel
  have hok : (createMmuTable Layout.small Kernel.blank).2.failed = 0 := by decide +kernel
  have hret : (mmuMap Layout.small 0x80201000 0x10000000 0x80600000 MMU_BIT_READ
      (createMmuTable Layout.small Kernel.blank).2).1 = 0 := by decide +kernel
  have hok' : (mmuMap Layout.small 0x80201000 0x10000000 0x80600000 MMU_BIT_READ
      (createMmuTable Layout.small Kernel.blank).2).2.failed = 0 := by decide +kernel
  rcases hcreate : createMmuTable Layout.small Kernel.blank with ⟨root, k⟩
  rw [hcreate] at hroot hok hret hok'
  dsimp only at hroot hok hret hok'
  subst hroot
  rcases hcall : mmuMap Layout.small 0x80201000 0x10000000 0x80600000 MMU_BIT_READ k with ⟨ret, s⟩
  rw [hcall] at hret hok'
  dsimp only at hret hok'
  subst hret
  have hstep := MmuStep.map (L := Layout.small) (by decide) (by decide) (by decide) (by decide) hcall
    (hok'.trans hok.symm)
  obtain ⟨m, hrun, hden, _⟩ := page_table_refines_map Layout.small Layout.small_wellFormed
    Kernel.blank k s _ hcreate hok _ (.cons hstep (.nil s))
  exact ⟨s.mem, m, hrun, hden⟩

end IloPali
