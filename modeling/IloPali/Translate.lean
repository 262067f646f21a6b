import IloPali.MapFailure
import Mathlib.Tactic.IntervalCases

/-!
# `mmu_translate`

The walk of `mmu_translate` is the walk of the hardware: it ends at the same leaf, and the
loop that rebuilds the offset gives the low 30, 21 or 12 bits of the address.  But the address
in the leaf goes through `mmu_entry_phys`, and so through `phys2safe`: with the MMU on, what
comes out is a pointer into the direct map.
-/

namespace IloPali

open ByteMemory RadixTree Transition

/-! ## 1. The code -/

def VPN_COUNT : Nat := 3

/-- `vpns[j]`. -/
def PageNumber.vpns (v : PageNumber) : Nat → Fin 512
  | 0 => v.vpn0
  | 1 => v.vpn1
  | _ => v.vpn2

/-- `n` steps of `for (int j = VPN_COUNT - 1; j >= i; j--)`, from index `j`. -/
def offsetLoop (v : PageNumber) : Nat → Nat → Nat → Nat
  | 0, _, offset => offset
  | n + 1, j, offset =>
    offsetLoop v n (j - 1) (offset ||| ((v.vpns j).val <<< (12 + (VPN_COUNT - j - 1) * 9)))

/-- `n` steps of the loop of `mmu_translate`, from index `i`, and what follows it: `none` where
    the source returns `false`, otherwise `*phys_addr`. -/
def mmuTranslateLoop (k : Kernel) (v : PageNumber) (offset : Nat) : Nat → Nat → Nat → Option Nat
  | 0, _, entry =>
    if mmuEntryFrame (k.entry entry) = false then none
    else some (mmuEntryPhys k.mmu (k.entry entry) ||| offset)
  | n + 1, i, entry =>
    if mmuEntryFrame (k.entry entry) = true then
      some (mmuEntryPhys k.mmu (k.entry entry) |||
        offsetLoop v (VPN_COUNT - i) (VPN_COUNT - 1) offset)
    else
      let entry := mmuEntryGet k (k.entry entry) (v.vpns i)
      if entry = 0 then none else mmuTranslateLoop k v offset n (i + 1) entry

def mmuTranslate (k : Kernel) (root virtAddr : Nat) : Option Nat :=
  let v := getVpns virtAddr
  let offset := virtAddr % 4096
  let entry := mmuRootGet k root v.vpn0
  if entry = 0 then none else mmuTranslateLoop k v offset (VPN_COUNT - 1) 1 entry

/-! ## 2. The walk of the hardware -/

/-- The leaf at which the walk from page `n` ends, and the number of address bits it leaves to
    the offset: 30, 21 or 12 for a gigabyte, two megabytes or a page. -/
def walkLeaf (m : Mem) : List (Fin 512) → Nat → Option (Word × Nat)
  | [], _ => none
  | i :: vpns, n =>
    if mmuEntryValid (cells m n i) = false then none
    else if mmuEntryFrame (cells m n i) = true then some (cells m n i, 12 + 9 * vpns.length)
    else walkLeaf m vpns (entryPhys (cells m n i) / 4096)

/-- The walk for an address. -/
def walk (m : Mem) (ρ addr : Nat) : Option (Word × Nat) :=
  walkLeaf m [(getVpns addr).vpn0, (getVpns addr).vpn1, (getVpns addr).vpn2] ρ

/-- The address in a leaf above the offset bits, and the offset bits of `addr`. -/
def leafAddr (e : Word) (bits addr : Nat) : Nat := entryPhys e / 2 ^ bits * 2 ^ bits + addr % 2 ^ bits

/-- `mmu_translate` finds a leaf where the hardware does, and computes the same address. -/
def TranslatesLikeHardware (root addr : Nat) (k : Kernel) : Prop :=
  mmuTranslate k root addr =
    (walk k.mem (root / PAGE_SIZE) addr).map fun x => leafAddr x.1 x.2 addr

/-! ## 3. The offset -/

/-- Putting the next bits of a number above its low ones. -/
theorem low_or_next (a n m : Nat) :
    a % 2 ^ n ||| (a / 2 ^ n % 2 ^ m) <<< n = a % 2 ^ (n + m) := by
  have hlt : a % 2 ^ n < 2 ^ n := Nat.mod_lt _ (Nat.two_pow_pos n)
  rw [Nat.or_comm, ← Nat.shiftLeft_add_eq_or_of_lt hlt, Nat.shiftLeft_eq, Nat.pow_add, Nat.mod_mul,
    Nat.mul_comm, Nat.add_comm]

/-- The loop gives the bits below the indices that the walk has used. -/
theorem offsetLoop_eq (addr : Nat) {n : Nat} (hn : n ≤ 2) :
    offsetLoop (getVpns addr) n (VPN_COUNT - 1) (addr % 4096) = addr % 2 ^ (12 + 9 * n) := by
  have h2 : addr % 4096 ||| (addr / 2 ^ 12 % 512) <<< 12 = addr % 2 ^ 21 := low_or_next addr 12 9
  have h1 : addr % 2 ^ 21 ||| (addr / 2 ^ 21 % 512) <<< 21 = addr % 2 ^ 30 := low_or_next addr 21 9
  interval_cases n
  · rfl
  · exact h2
  · exact (congrArg (· ||| (addr / 2 ^ 21 % 512) <<< 21) h2).trans h1

/-! ## 4. The same walk -/

/-- The kernel can reach the tables of the walk. -/
def WalkAddressable (mmu : Bool) (m : Mem) : List (Fin 512) → Nat → Prop
  | [], _ => True
  | i :: vpns, n => Addressable mmu n ∧
    (vpns ≠ [] → mmuEntryValid (cells m n i) = true → mmuEntryFrame (cells m n i) = false →
      WalkAddressable mmu m vpns (entryPhys (cells m n i) / 4096))

/-- The pointer that the walk goes on with at entry `i` of page `n`. -/
def validSlot (k : Kernel) (n : Nat) (i : Fin 512) : Nat :=
  if mmuEntryValid (cells k.mem n i) = true then slot k.mmu n i else 0

/-- The loop from entry `i` of page `n`, with the indices `vpns` left from index `j`. -/
theorem mmuTranslateLoop_walk {k : Kernel} {addr : Nat} (vpns : List (Fin 512)) {n j : Nat}
    {i : Fin 512} (hA : WalkAddressable k.mmu k.mem (i :: vpns) n)
    (hvpns : ∀ t (ht : t < vpns.length), (getVpns addr).vpns (j + t) = vpns.get ⟨t, ht⟩)
    (hj : 1 ≤ j) (hlen : j + vpns.length = VPN_COUNT) :
    (if validSlot k n i = 0 then none
      else mmuTranslateLoop k (getVpns addr) (addr % 4096) vpns.length j (validSlot k n i)) =
      (walkLeaf k.mem (i :: vpns) n).map fun x => mmuEntryPhys k.mmu x.1 ||| addr % 2 ^ x.2 := by
  induction vpns generalizing n j i with
  | nil =>
    cases hv : mmuEntryValid (cells k.mem n i) with
    | false => simp [validSlot, walkLeaf, hv]
    | true =>
      have hvalid : ¬ mmuEntryValid (cells k.mem n i) = false := by simp [hv]
      rw [validSlot, if_pos hv, if_neg (slot_ne_zero hA.1 i), List.length_nil, mmuTranslateLoop,
        entry_slot hA.1, walkLeaf, if_neg hvalid]
      cases hf : mmuEntryFrame (cells k.mem n i) with
      | true => rfl
      | false => rfl
  | cons next vpns ih =>
    cases hv : mmuEntryValid (cells k.mem n i) with
    | false => simp [validSlot, walkLeaf, hv]
    | true =>
      have hvalid : ¬ mmuEntryValid (cells k.mem n i) = false := by simp [hv]
      rw [validSlot, if_pos hv, if_neg (slot_ne_zero hA.1 i), List.length_cons, mmuTranslateLoop,
        entry_slot hA.1, walkLeaf, if_neg hvalid]
      have hlen' : VPN_COUNT - j = vpns.length + 1 := by
        rw [← hlen, List.length_cons]
        omega
      cases hf : mmuEntryFrame (cells k.mem n i) with
      | true =>
        rw [if_pos rfl, if_pos rfl, hlen', offsetLoop_eq]
        · rfl
        · rw [VPN_COUNT] at hlen'
          omega
      | false =>
        have hA' := hA.2 (List.cons_ne_nil _ _) hv hf
        have hnext : (getVpns addr).vpns j = next := hvpns 0 (Nat.succ_pos _)
        rw [if_neg Bool.false_ne_true, if_neg Bool.false_ne_true, hnext,
          mmuEntryGet_slot hv hf rfl hA'.1]
        refine ih hA' (fun t ht => ?_) (Nat.le_add_left 1 j) ?_
        · have hshift := hvpns (t + 1) (Nat.succ_lt_succ ht)
          rw [show j + 1 + t = j + (t + 1) by omega]
          exact hshift
        · rw [← hlen, List.length_cons]
          omega

/-- **`mmu_translate` walks like the hardware**, in any memory whose tables it can reach, and
    combines what `mmu_entry_phys` makes of the leaf with the bits of the offset. -/
theorem mmuTranslate_walk {k : Kernel} {ρ addr : Nat} (hA : WalkAddressable k.mmu k.mem
      [(getVpns addr).vpn0, (getVpns addr).vpn1, (getVpns addr).vpn2] ρ) :
    mmuTranslate k (4096 * ρ) addr =
      (walk k.mem ρ addr).map fun x => mmuEntryPhys k.mmu x.1 ||| addr % 2 ^ x.2 := by
  have hstart : mmuRootGet k (4096 * ρ) (getVpns addr).vpn0 = validSlot k ρ (getVpns addr).vpn0 :=
    mmuRootGet_slot hA.1 _
  unfold mmuTranslate
  dsimp only
  rw [hstart]
  refine mmuTranslateLoop_walk [(getVpns addr).vpn1, (getVpns addr).vpn2] (j := 1) hA ?_ (le_refl 1) rfl
  intro t ht
  match t, ht with
  | 0, _ => rfl
  | 1, _ => rfl

/-! ## 5. Tables that can be reached -/

section Reached

variable {L : Layout} {k : Kernel} {ρ : Nat} (hT : Tree L k ρ)
include hT

/-- Following one link of the lower half. -/
theorem walkLeaf_link {π : List (Fin 512)} {n : Nat} {i : Fin 512} (hπ : π.length < 2)
    (hn : tableAt k.mem ρ π = some n) (hlow : π = [] → i.val < 256) (vpns : List (Fin 512)) :
    walkLeaf k.mem (i :: vpns) n =
      (tableAt k.mem ρ (π ++ [i])).bind fun c => walkLeaf k.mem vpns c := by
  rw [tableAt_snoc, hn, walkLeaf, Option.bind_some]
  cases hv : mmuEntryValid (cells k.mem n i) with
  | false =>
    rw [if_pos rfl, childTable_of_invalid hv]
    rfl
  | true =>
    have hf := hT.noFrames π n i hπ hn hlow hv
    rw [if_neg (by simp), hf, if_neg (by simp), childTable_of_valid hv hf]
    rfl

/-- In the lower half a leaf is an entry of the last level. -/
theorem walk_lower {addr : Nat} (hlow : (getVpns addr).vpn0.val < 256) :
    walk k.mem ρ addr =
      if mmuEntryValid (leaf k.mem ρ (getVpns addr)) = true ∧
          mmuEntryFrame (leaf k.mem ρ (getVpns addr)) = true then
        some (leaf k.mem ρ (getVpns addr), 12)
      else none := by
  unfold walk
  generalize getVpns addr = v at hlow ⊢
  rw [walkLeaf_link hT (π := []) (by decide) rfl (fun _ => hlow)]
  rw [leaf, show [v.vpn0, v.vpn1] = ([] ++ [v.vpn0]) ++ [v.vpn1] from rfl]
  cases hc : tableAt k.mem ρ ([] ++ [v.vpn0]) with
  | none =>
    rw [tableAt_snoc, hc]
    simp [valid_zero]
  | some c =>
    rw [Option.bind_some,
      walkLeaf_link hT (π := [v.vpn0]) (Nat.lt_succ_self 1) hc
        (fun h => absurd h (List.cons_ne_nil _ _)),
      List.nil_append]
    cases tableAt k.mem ρ ([v.vpn0] ++ [v.vpn1]) with
    | none => simp [valid_zero]
    | some n =>
      rw [Option.bind_some, walkLeaf]
      cases mmuEntryValid (cells k.mem n v.vpn2) with
      | false => simp
      | true =>
        cases mmuEntryFrame (cells k.mem n v.vpn2) with
        | false => simp [walkLeaf]
        | true => simp

/-- In the upper half it is a gigabyte of the direct map. -/
theorem walk_upper {addr : Nat} (hhigh : 256 ≤ (getVpns addr).vpn0.val) :
    walk k.mem ρ addr = some (directMapEntry (getVpns addr).vpn0, 30) := by
  obtain ⟨hv, hf, _⟩ := directMapEntry_spec _ hhigh
  rw [walk, walkLeaf, hT.direct _ hhigh, if_neg (by simp [hv]), if_pos hf]
  rfl

/-- The kernel can reach every table of a tree. -/
theorem Tree.walkAddressable (hL : L.WellFormed) (v : PageNumber) :
    WalkAddressable k.mmu k.mem [v.vpn0, v.vpn1, v.vpn2] ρ := by
  have hroot := hT.addressable hL (isTable_root k.mem ρ)
  by_cases hlow : v.vpn0.val < 256
  · refine ⟨hroot, fun _ hv hf => ?_⟩
    have hc : tableAt k.mem ρ [v.vpn0] = some (entryPhys (cells k.mem ρ v.vpn0) / 4096) := by
      have hsnoc := tableAt_snoc k.mem ρ [] v.vpn0
      exact hsnoc.trans (childTable_of_valid hv hf)
    refine ⟨hT.addressable hL ⟨[v.vpn0], Nat.le_succ 1, hc⟩, fun _ hv' hf' => ?_⟩
    have hc' : tableAt k.mem ρ ([v.vpn0] ++ [v.vpn1]) = some
        (entryPhys (cells k.mem (entryPhys (cells k.mem ρ v.vpn0) / 4096) v.vpn1) / 4096) := by
      rw [tableAt_snoc, hc, Option.bind_some, childTable_of_valid hv' hf']
    exact ⟨hT.addressable hL ⟨_, le_refl 2, hc'⟩, fun h => absurd rfl h⟩
  · refine ⟨hroot, fun _ hv hf => ?_⟩
    have hhigh := Nat.not_lt.mp hlow
    rw [hT.direct _ hhigh, (directMapEntry_spec _ hhigh).2.1] at hf
    exact nomatch hf

end Reached

/-- A map of a physical address. -/
def TableCall.Physical : TableCall → Prop
  | .map _ phys _ => phys < 2 ^ 56
  | _ => True

/-- All valid leaf entries hold physical addresses. -/
def LeavesPhysical (m : Mem) (ρ : Nat) : Prop :=
  ∀ v, mmuEntryValid (leaf m ρ v) = true → entryPhys (leaf m ρ v) < 2 ^ 56

theorem entryPhys_leafEntry_lt {phys : Nat} (hphys : phys < 2 ^ 56) (flags : Word) :
    entryPhys (leafEntry phys flags) < 2 ^ 56 := by
  rw [entryPhys_leafEntry hphys]
  exact lt_of_le_of_lt (Nat.div_mul_le_self phys 4096) hphys

/-- **One step** leaves physical addresses in the leaf entries. -/
theorem TableStep.leaves {L : Layout} (hL : L.WellFormed) {ρ : Nat} {k k' : Kernel}
    {call : TableCall} (hT : Tree L k ρ) (hR : L.Reachable k.mmu)
    (henough : EnoughPages L (4096 * ρ) k call) (hcall : call.Physical)
    (hleaves : LeavesPhysical k.mem ρ) (hstep : TableStep L (4096 * ρ) k call k') :
    LeavesPhysical k'.mem ρ := by
  intro v
  cases hstep with
  | map virt phys flags =>
    rcases (mmuMap_keeps hL hT hR henough).2.1 v with hsame | hnew
    · rw [hsame]
      exact hleaves v
    · rw [hnew]
      exact fun _ => entryPhys_leafEntry_lt hcall flags
  | alloc virt flags =>
    rcases (mmuAlloc_keeps hL hT hR henough).2.1 v with hsame | ⟨p, hp, hnew⟩
    · rw [hsame]
      exact hleaves v
    · rw [hnew]
      exact fun _ => entryPhys_leafEntry_lt hp flags
  | changeFlags virt flags hlow =>
    rcases mmuChangeFlags_lower hL hT hlow flags with ⟨_, hsame⟩ | ⟨hv, _, hleaf⟩
    · rw [hsame]
      exact hleaves v
    · rw [hleaf]
      split
      · rw [entryPhys_withFlags]
        exact fun _ => hleaves _ hv
      · exact hleaves v
  | remove virt hlow =>
    rcases mmuRemove_lower hL hT hlow with ⟨_, hsame⟩ | ⟨hv, _, _, hleaf⟩
    · rw [hsame]
      exact hleaves v
    · rw [hleaf]
      split
      · rw [entryPhys_withFlags]
        exact fun _ => hleaves _ hv
      · exact hleaves v
  | elsewhere _ _ hsame =>
    rw [root_page] at hsame
    rw [(hT.elsewhere hsame).2]
    exact hleaves v

/-- The pages of a new table have physical addresses. -/
theorem Refines.leaves {L : Layout} (hL : L.WellFormed) {k : Kernel} {ρ : Nat}
    (h : Refines L ρ k (PageMap.kernel L)) : LeavesPhysical k.mem ρ := by
  intro v hv
  have hf := h.frames v hv
  by_cases hlow : v.vpn0.val < 256
  · have hmap := congrFun h.denotes v
    rw [denote_lower h.tree hlow, mappingOf, if_pos ⟨hv, hf⟩, PageMap.kernel, foldl_insert] at hmap
    simp only [PageMap.directMap, if_neg (Nat.not_le.mpr hlow)] at hmap
    obtain ⟨q, hq, hpage⟩ := Option.map_eq_some_iff.mp hmap.symm
    have hphys := (identityPages_spec hL (List.mem_of_find?_eq_some hq)).1
    have haligned := entryPhys_aligned (leaf k.mem ρ v)
    have hsame : q.1 / 4096 = entryPhys (leaf k.mem ρ v) / 4096 := congrArg Mapping.page hpage
    omega
  · have hnone : leaf k.mem ρ v = 0#64 := by
      -- the entry of the direct map links to no table
      have hchild : tableAt k.mem ρ [v.vpn0] = none := by
        have hsnoc := tableAt_snoc k.mem ρ [] v.vpn0
        obtain ⟨_, hframe, _⟩ := directMapEntry_spec v.vpn0 (Nat.not_lt.mp hlow)
        rw [List.nil_append] at hsnoc
        rw [hsnoc]
        simp [nodeAt, childTable, h.tree.direct _ (Nat.not_lt.mp hlow), hframe]
      have hnode : tableAt k.mem ρ ([v.vpn0] ++ [v.vpn1]) = none := by
        rw [tableAt_snoc, hchild]
        rfl
      unfold leaf
      rw [show [v.vpn0, v.vpn1] = [v.vpn0] ++ [v.vpn1] from rfl, hnode]
    rw [hnone] at hv
    exact absurd hv (by decide)

/-- **Every run** from a new table leaves a tree with physical addresses. -/
theorem reachable_leaves {L : Layout} (hL : L.WellFormed) {k0 k s : Kernel} {root : Nat}
    (hR : L.Reachable k0.mmu) (hcreate : createMmuTable L k0 = (root, k))
    (hok : k.failed = k0.failed) {calls : List TableCall}
    (hrun : Run (guarded (fun k call => EnoughPages L root k call ∧ call.Physical)
      (TableStep L root)) k calls s) :
    ∃ ρ, root = 4096 * ρ ∧ Tree L s ρ ∧ L.Reachable s.mmu ∧ LeavesPhysical s.mem ρ := by
  have hnew := createMmuTable_refines hL (by rw [hcreate]; exact hok)
  rw [hcreate] at hnew
  obtain ⟨ρ, hroot, hrefines, hmmu⟩ := hnew
  dsimp only at hroot hrefines hmmu
  subst hroot
  refine ⟨ρ, rfl, ?_⟩
  refine @Run.invariant _ _ _ (fun s => Tree L s ρ ∧ L.Reachable s.mmu ∧ LeavesPhysical s.mem ρ) ?_
    _ _ _ hrun ⟨hrefines.tree, by rwa [hmmu], hrefines.leaves hL⟩
  rintro s call t ⟨hT, hR', hleaves⟩ ⟨⟨henough, hcall⟩, hstep⟩
  obtain ⟨hT', hR''⟩ := hstep.tree hL hT hR' henough
  exact ⟨hT', hR'', hstep.leaves hL hT hR' henough hcall hleaves⟩

/-- A leaf of such a table is aligned, and its address physical. -/
theorem walk_leaf {L : Layout} {k : Kernel} {ρ addr bits : Nat} {e : Word} (hT : Tree L k ρ)
    (hleaves : LeavesPhysical k.mem ρ) (h : walk k.mem ρ addr = some (e, bits)) :
    bits ≤ 30 ∧ entryPhys e % 2 ^ bits = 0 ∧ entryPhys e < 2 ^ 56 := by
  by_cases hlow : (getVpns addr).vpn0.val < 256
  · rw [walk_lower hT hlow] at h
    split at h
    · rename_i hvalid
      obtain ⟨rfl, rfl⟩ := Prod.mk.inj (Option.some.inj h)
      refine ⟨by decide, ?_, hleaves _ hvalid.1⟩
      rw [entryPhys_aligned]
      exact Nat.mul_mod_left _ _
    · exact nomatch h
  · rw [walk_upper hT (Nat.not_lt.mp hlow)] at h
    obtain ⟨rfl, rfl⟩ := Prod.mk.inj (Option.some.inj h)
    have hall : ∀ i : Fin 512, 256 ≤ i.val →
        entryPhys (directMapEntry i) % 2 ^ 30 = 0 ∧ entryPhys (directMapEntry i) < 2 ^ 56 := by
      decide +kernel
    exact ⟨le_refl 30, hall _ (Nat.not_lt.mp hlow)⟩

/-- What `mmu_translate` makes of a leaf is its address with the MMU off, and never with the
    MMU on. -/
theorem leafAddr_iff {e : Word} {bits addr : Nat} (mmu : Bool) (hbits : bits ≤ 30)
    (haligned : entryPhys e % 2 ^ bits = 0) (hphys : entryPhys e < 2 ^ 56) :
    (mmuEntryPhys mmu e ||| addr % 2 ^ bits) = leafAddr e bits addr ↔ mmu = false := by
  have hlt : addr % 2 ^ bits < 2 ^ bits := Nat.mod_lt _ (Nat.two_pow_pos bits)
  have hpow : 2 ^ bits ≤ 2 ^ 30 := Nat.pow_le_pow_right (by decide) hbits
  have hsum : leafAddr e bits addr = entryPhys e + addr % 2 ^ bits := by
    rw [leafAddr, Nat.div_mul_cancel (Nat.dvd_of_mod_eq_zero haligned)]
  cases mmu with
  | false =>
    refine iff_of_true ?_ rfl
    obtain ⟨c, hc⟩ := Nat.dvd_of_mod_eq_zero haligned
    rw [hsum, mmuEntryPhys, phys2safe_off, hc]
    exact (Nat.two_pow_add_eq_or_of_lt hlt c).symm
  | true =>
    refine iff_of_false (fun h => ?_) (by decide)
    rw [hsum, mmuEntryPhys] at h
    by_cases hsee : entryPhys e < DIRECT_MAP_SIZE
    · -- a pointer into the direct map lies above every physical address
      rw [phys2safe_on hsee] at h
      have hle : KERNEL_SPACE_OFFSET + entryPhys e ≤
          (KERNEL_SPACE_OFFSET + entryPhys e) ||| addr % 2 ^ bits := Nat.left_le_or
      rw [h] at hle
      simp only [KERNEL_SPACE_OFFSET] at hle
      omega
    · -- of an address past the direct map only the offset is left
      rw [phys2safe_past (Nat.not_lt.mp hsee) hphys, Nat.zero_or] at h
      simp only [DIRECT_MAP_SIZE] at hsee
      omega

/-- **When `mmu_translate` computes the hardware's address**: with the MMU off, and on for the
    addresses that are not mapped. -/
theorem mmu_translate_iff (L : Layout) (hL : L.WellFormed) (k0 k s : Kernel) (root : Nat)
    (hR : L.Reachable k0.mmu) (hcreate : createMmuTable L k0 = (root, k))
    (hok : k.failed = k0.failed) (calls : List TableCall)
    (hrun : Run (guarded (fun k call => EnoughPages L root k call ∧ call.Physical)
      (TableStep L root)) k calls s) (addr : Nat) :
    TranslatesLikeHardware root addr s ↔
      (s.mmu = false ∨ walk s.mem (root / PAGE_SIZE) addr = none) := by
  obtain ⟨ρ, rfl, hT, hR', hleaves⟩ := reachable_leaves hL hR hcreate hok hrun
  unfold TranslatesLikeHardware
  rw [root_page, mmuTranslate_walk (hT.walkAddressable hL _)]
  cases hwalk : walk s.mem ρ addr with
  | none => simp
  | some x =>
    obtain ⟨hbits, haligned, hphys⟩ := walk_leaf hT hleaves hwalk
    simp only [Option.map_some, Option.some.injEq, reduceCtorEq, or_false]
    exact leafAddr_iff s.mmu hbits haligned hphys

theorem mmu_translate_small : ∃ s, TranslatesLikeHardware 0x80201000 0x80200004 s ↔
    (s.mmu = false ∨ walk s.mem (0x80201000 / PAGE_SIZE) 0x80200004 = none) := by
  have hroot : (createMmuTable .small .blank).1 = 0x80201000 := by decide +kernel
  have hok : (createMmuTable .small .blank).2.failed = 0 := by decide +kernel
  rcases hcreate : createMmuTable .small .blank with ⟨root, k⟩
  rw [hcreate] at hroot hok
  dsimp only at hroot hok
  subst hroot
  have hR : Layout.small.Reachable Kernel.blank.mmu := fun hon => absurd hon (by decide)
  exact ⟨k, mmu_translate_iff .small Layout.small_wellFormed .blank k k 0x80201000 hR hcreate hok
    [] (.nil k) 0x80200004⟩

/-- With the MMU on, the kernel's own page at `0x80200000` is said to lie in the direct map. -/
theorem mmu_translate_virtual : ∃ k, createMmuTable .small ⟨fun _ => 0, 1#64 <<< 63, 0⟩ =
      (0x80201000, k) ∧ k.failed = 0 ∧
    mmuTranslate k 0x80201000 0x80200004 = some (KERNEL_SPACE_OFFSET + 0x80200004) ∧
    (walk k.mem 0x80201 0x80200004).map (fun x => leafAddr x.1 x.2 0x80200004) = some 0x80200004 ∧
    ¬ TranslatesLikeHardware 0x80201000 0x80200004 k := by
  have hroot : (createMmuTable .small ⟨fun _ => 0, 1#64 <<< 63, 0⟩).1 = 0x80201000 := by
    decide +kernel
  have hok : (createMmuTable .small ⟨fun _ => 0, 1#64 <<< 63, 0⟩).2.failed = 0 := by decide +kernel
  have hcode : mmuTranslate (createMmuTable .small ⟨fun _ => 0, 1#64 <<< 63, 0⟩).2 0x80201000
      0x80200004 = some (KERNEL_SPACE_OFFSET + 0x80200004) := by decide +kernel
  have hhard : (walk (createMmuTable .small ⟨fun _ => 0, 1#64 <<< 63, 0⟩).2.mem 0x80201
      0x80200004).map (fun x => leafAddr x.1 x.2 0x80200004) = some 0x80200004 := by decide +kernel
  rcases hcreate : createMmuTable .small ⟨fun _ => 0, 1#64 <<< 63, 0⟩ with ⟨root, k⟩
  rw [hcreate] at hroot hok hcode hhard
  dsimp only at hroot hok hcode hhard
  subst hroot
  refine ⟨k, rfl, hok, hcode, hhard, fun h => ?_⟩
  unfold TranslatesLikeHardware at h
  rw [show 0x80201000 / PAGE_SIZE = 0x80201 by decide, hcode, hhard] at h
  exact absurd (Option.some.inj h) (by decide)

end IloPali
