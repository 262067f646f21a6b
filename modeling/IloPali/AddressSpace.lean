import IloPali.PageMap

/-!
# The address space of the kernel

What a new table translates, address by address.  `PageMap.kernel` is a fold over the pages
that `identity_map_kernel` visits; here it is read back as ranges: the six ranges of the
kernel are mapped to themselves, the upper half shows physical memory, and nothing else is
mapped.
-/

namespace IloPali

open ByteMemory

/-! ## 1. Addresses -/

/-- The addresses of Sv39: the upper 25 bits repeat bit 38. -/
def Canonical (addr : Nat) : Prop :=
  addr < DIRECT_MAP_SIZE ∨ (KERNEL_SPACE_OFFSET ≤ addr ∧ addr < 2 ^ 64)

instance (addr : Nat) : Decidable (Canonical addr) := by
  unfold Canonical
  infer_instance

/-- What a page may be used for. -/
def permissions (flags : Word) : Word :=
  flags &&& (MMU_BIT_READ ||| MMU_BIT_WRITE ||| MMU_BIT_EXEC ||| MMU_BIT_USER)

/-- The translation of an address by the table at `ρ`: a physical address and permissions. -/
def translation (m : Mem) (ρ addr : Nat) : Option (Nat × Word) :=
  if Canonical addr then
    (denote m ρ (getVpns addr)).map fun x => (4096 * x.page + addr % 4096, permissions x.flags)
  else none

/-- Two addresses of the lower half lie in the same page iff they have one page number. -/
theorem getVpns_eq_iff {a b : Nat} (ha : a < 2 ^ 39) (hb : b < 2 ^ 39) :
    getVpns a = getVpns b ↔ a / 4096 = b / 4096 := by
  simp only [getVpns, PageNumber.mk.injEq, Fin.ext_iff, Fin.val_ofNat]
  omega

theorem getVpns_lower {a : Nat} (ha : a < DIRECT_MAP_SIZE) : (getVpns a).vpn0.val < 256 := by
  simp only [DIRECT_MAP_SIZE] at ha
  simp only [getVpns, Fin.val_ofNat]
  omega

/-- The page number of an address of the upper half, in the direct map. -/
theorem directMap_upper {p : Nat} (hp : p < DIRECT_MAP_SIZE) :
    256 ≤ (getVpns (KERNEL_SPACE_OFFSET + p)).vpn0.val ∧
      PageMap.directMap (getVpns (KERNEL_SPACE_OFFSET + p)) = some ⟨p / 4096, 0x27#64⟩ := by
  have hhigh : 256 ≤ (getVpns (KERNEL_SPACE_OFFSET + p)).vpn0.val := by
    simp only [DIRECT_MAP_SIZE] at hp
    simp only [getVpns, Fin.val_ofNat, KERNEL_SPACE_OFFSET]
    omega
  refine ⟨hhigh, ?_⟩
  rw [PageMap.directMap, if_pos hhigh]
  simp only [DIRECT_MAP_SIZE] at hp
  simp only [getVpns, Fin.val_ofNat, KERNEL_SPACE_OFFSET, Option.some.injEq, Mapping.mk.injEq,
    and_true]
  omega

/-! ## 2. The kernel's ranges -/

/-- `kernel.ld` and `init_pages`: the ranges follow one another, each starts on a page
    boundary, and all lie below `2 ^ 38`. -/
structure Layout.Linked (L : Layout) : Prop extends L.WellFormed where
  text_aligned : L.textStart % PAGE_SIZE = 0
  data_aligned : L.dataStart % PAGE_SIZE = 0
  roData_aligned : L.roDataStart % PAGE_SIZE = 0
  sdata_aligned : L.sdataStart % PAGE_SIZE = 0
  stack_aligned : L.stackStart % PAGE_SIZE = 0
  below : L.heapBottom ≤ DIRECT_MAP_SIZE

/-- The page of `addr` meets the range `[start, end)`. -/
def PageMeets (addr : Nat) (r : Nat × Nat × Word) : Prop :=
  ∃ x, x / PAGE_SIZE = addr / PAGE_SIZE ∧ r.1 ≤ x ∧ x < r.2.1

theorem pageMeets_iff {addr : Nat} {r : Nat × Nat × Word} (hr : r.1 % PAGE_SIZE = 0) :
    PageMeets addr r ↔ r.1 ≤ addr / 4096 * 4096 ∧ addr / 4096 * 4096 < r.2.1 := by
  simp only [PAGE_SIZE] at hr
  constructor
  · rintro ⟨x, hx, hlo, hhi⟩
    simp only [PAGE_SIZE] at hx
    omega
  · rintro ⟨hlo, hhi⟩
    exact ⟨_, Nat.mul_div_cancel _ (by decide), hlo, hhi⟩

namespace Layout.Linked

variable {L : Layout} (hL : L.Linked)
include hL

theorem range_aligned {r : Nat × Nat × Word} (hr : r ∈ L.kernelRanges) : r.1 % PAGE_SIZE = 0 := by
  simp only [kernelRanges, List.mem_cons, List.not_mem_nil, or_false] at hr
  rcases hr with rfl | rfl | rfl | rfl | rfl | rfl
  · exact hL.text_aligned
  · exact hL.data_aligned
  · exact hL.roData_aligned
  · exact hL.sdata_aligned
  · exact hL.stack_aligned
  · exact hL.pagesBottom_aligned

theorem range_below {r : Nat × Nat × Word} (hr : r ∈ L.kernelRanges) :
    r.2.1 ≤ DIRECT_MAP_SIZE := by
  have himage := hL.image
  have htable := hL.table_nonneg
  have hbelow := hL.below
  simp only [kernelRanges, List.mem_cons, List.not_mem_nil, or_false] at hr
  rcases hr with rfl | rfl | rfl | rfl | rfl | rfl
  all_goals dsimp only
  all_goals omega

/-- No two ranges share an address. -/
theorem ranges_disjoint {r s : Nat × Nat × Word} (hr : r ∈ L.kernelRanges)
    (hs : s ∈ L.kernelRanges) {x : Nat} (hrx : r.1 ≤ x ∧ x < r.2.1) (hsx : s.1 ≤ x ∧ x < s.2.1) :
    r = s := by
  have himage := hL.image
  -- each range ends before the later ones start
  have hpair : L.kernelRanges.Pairwise fun r s => r.2.1 ≤ s.1 := by
    simp only [kernelRanges, List.pairwise_cons, List.mem_cons, List.not_mem_nil, or_false]
    refine ⟨?_, ?_, ?_, ?_, ?_, ?_, List.Pairwise.nil⟩
    all_goals rintro s hs
    all_goals rcases hs with rfl | rfl | rfl | rfl | rfl
    all_goals dsimp only
    all_goals omega
  have hshare : L.kernelRanges.Pairwise fun r s =>
      (r.1 ≤ x ∧ x < r.2.1) → (s.1 ≤ x ∧ x < s.2.1) → r = s :=
    hpair.imp fun h hr hs => absurd (h.trans hs.1) (Nat.not_le.mpr hr.2)
  have hflip := hpair.imp (S := fun r s => (s.1 ≤ x ∧ x < s.2.1) → (r.1 ≤ x ∧ x < r.2.1) → s = r)
    fun h hs hr => absurd (h.trans hs.1) (Nat.not_le.mpr hr.2)
  exact List.Pairwise.forall_of_forall_of_flip (fun _ _ _ _ => rfl) hshare hflip hr hs hrx hsx

/-- The pages that `identity_map_kernel` visits: those that start in a range. -/
theorem mem_identityPages {q : Nat × Word} : q ∈ L.identityPages ↔
    ∃ r ∈ L.kernelRanges, q.2 = r.2.2 ∧ q.1 % 4096 = 0 ∧ r.1 ≤ q.1 ∧ q.1 < r.2.1 := by
  rw [identityPages, List.mem_flatMap]
  refine exists_congr fun r => and_congr_right fun hr => ?_
  have haligned := hL.range_aligned hr
  simp only [PAGE_SIZE] at haligned
  simp only [rangePages, List.mem_map, List.mem_range, PAGE_SIZE]
  constructor
  · rintro ⟨i, hi, rfl⟩
    refine ⟨rfl, ?_⟩
    dsimp only
    omega
  · rintro ⟨hflags, hq, hlo, hhi⟩
    refine ⟨(q.1 - r.1) / 4096, by omega, Prod.ext ?_ hflags.symm⟩
    dsimp only
    omega

end Layout.Linked

/-! ## 3. The map of a new table -/

/-- Inserting a list of pages: the first one for a page number is the one that counts. -/
theorem foldl_insert (qs : List (Nat × Word)) (m : PageMap) (v : PageNumber) :
    qs.foldl (fun m q => m.insert (getVpns q.1) (.installed q.1 q.2)) m v =
      match m v with
      | some x => some x
      | none => (qs.find? fun q => getVpns q.1 = v).map fun q => .installed q.1 q.2 := by
  induction qs generalizing m with
  | nil =>
    rw [List.foldl_nil]
    cases m v with
    | none => rfl
    | some x => rfl
  | cons q qs ih =>
    rw [List.foldl_cons, ih]
    by_cases hq : getVpns q.1 = v
    · subst hq
      cases hm : m (getVpns q.1) with
      | none => simp [PageMap.insert_absent hm]
      | some x => simp [PageMap.insert_present (by simp [hm] : m (getVpns q.1) ≠ none), hm]
    · have hsame : m.insert (getVpns q.1) (.installed q.1 q.2) v = m v := by
        unfold PageMap.insert
        split
        · exact Function.update_of_ne (Ne.symm hq) _ _
        · rfl
      rw [hsame, List.find?_cons_of_neg (by simpa using hq)]

section KernelMap

variable {L : Layout} (hL : L.Linked)
include hL

/-- An address whose page meets a range is mapped to itself. -/
theorem kernel_map_range {r : Nat × Nat × Word} (hr : r ∈ L.kernelRanges) {addr : Nat}
    (hmeets : PageMeets addr r) : addr < DIRECT_MAP_SIZE ∧
      PageMap.kernel L (getVpns addr) = some (.installed (addr / 4096 * 4096) r.2.2) := by
  rw [pageMeets_iff (hL.range_aligned hr)] at hmeets
  have hbelow := hL.range_below hr
  have hlow : addr < DIRECT_MAP_SIZE := by
    simp only [DIRECT_MAP_SIZE] at hbelow ⊢
    omega
  refine ⟨hlow, ?_⟩
  have hvpn := getVpns_lower hlow
  rw [PageMap.kernel, foldl_insert]
  simp only [PageMap.directMap, if_neg (Nat.not_le.mpr hvpn)]
  have hmem : (addr / 4096 * 4096, r.2.2) ∈ L.identityPages :=
    hL.mem_identityPages.mpr ⟨r, hr, rfl, Nat.mul_mod_left _ _, hmeets⟩
  -- any page of the list with this page number is that page
  have hunique : ∀ q ∈ L.identityPages, getVpns q.1 = getVpns addr →
      q = (addr / 4096 * 4096, r.2.2) := by
    intro q hq hv
    obtain ⟨s, hs, hflags, hqa, hq1, hq2⟩ := hL.mem_identityPages.mp hq
    have hsbelow := hL.range_below hs
    simp only [DIRECT_MAP_SIZE] at hsbelow hlow
    rw [getVpns_eq_iff (by omega) (by omega)] at hv
    have haddr : q.1 = addr / 4096 * 4096 := by omega
    rw [haddr] at hq1 hq2
    obtain rfl := hL.ranges_disjoint hr hs hmeets ⟨hq1, hq2⟩
    exact Prod.ext haddr hflags
  cases hfind : L.identityPages.find? fun q => getVpns q.1 = getVpns addr with
  | none =>
    have hno := List.find?_eq_none.mp hfind _ hmem
    simp only [decide_eq_true_eq] at hno
    refine absurd ?_ hno
    simp only [DIRECT_MAP_SIZE] at hlow
    rw [getVpns_eq_iff (by omega) (by omega)]
    exact Nat.mul_div_cancel _ (by decide)
  | some q =>
    have hq := hunique q (List.mem_of_find?_eq_some hfind) (by simpa using List.find?_some hfind)
    rw [hq]
    rfl

/-- An address of the lower half whose page meets no range is not mapped. -/
theorem kernel_map_absent {addr : Nat} (hlow : addr < DIRECT_MAP_SIZE)
    (hno : ∀ r ∈ L.kernelRanges, ¬ PageMeets addr r) : PageMap.kernel L (getVpns addr) = none := by
  have hvpn := getVpns_lower hlow
  rw [PageMap.kernel, foldl_insert]
  simp only [PageMap.directMap, if_neg (Nat.not_le.mpr hvpn)]
  rw [Option.map_eq_none_iff, List.find?_eq_none]
  intro q hq hv
  rw [decide_eq_true_eq] at hv
  obtain ⟨r, hr, _, hqa, hq1, hq2⟩ := hL.mem_identityPages.mp hq
  have hbelow := hL.range_below hr
  simp only [DIRECT_MAP_SIZE] at hbelow hlow
  rw [getVpns_eq_iff (by omega) (by omega)] at hv
  apply hno r hr
  rw [pageMeets_iff (hL.range_aligned hr)]
  omega

omit hL in
/-- An address of the direct map. -/
theorem kernel_map_direct {p : Nat} (hp : p < DIRECT_MAP_SIZE) :
    PageMap.kernel L (getVpns (KERNEL_SPACE_OFFSET + p)) = some ⟨p / 4096, 0x27#64⟩ := by
  rw [PageMap.kernel, foldl_insert, (directMap_upper hp).2]

end KernelMap

/-- What the flags of a kernel range come to. -/
theorem permissions_installed {L : Layout} {r : Nat × Nat × Word} (hr : r ∈ L.kernelRanges) :
    permissions (leafFlags r.2.2 &&& MMU_ALL_BITS) = permissions r.2.2 := by
  simp only [Layout.kernelRanges, List.mem_cons, List.not_mem_nil, or_false] at hr
  rcases hr with rfl | rfl | rfl | rfl | rfl | rfl
  all_goals dsimp only
  all_goals decide

/-- **The address space of the kernel.**  For every layout, if no page allocation fails, the
    table that `create_mmu_table` builds maps the pages of the six ranges to themselves with
    the range's permissions, shows the physical address `p` at `0xffffffc000000000 + p` for
    reading and writing by the kernel, and translates no other address. -/
theorem kernel_address_space (L : Layout) (hL : L.Linked) (k : Kernel)
    (hok : (createMmuTable L k).2.failed = k.failed) :
    let table := translation (createMmuTable L k).2.mem ((createMmuTable L k).1 / PAGE_SIZE)
    (∀ r ∈ L.kernelRanges, ∀ addr, PageMeets addr r →
      table addr = some (addr, permissions r.2.2)) ∧
    (∀ p, p < DIRECT_MAP_SIZE →
      table (KERNEL_SPACE_OFFSET + p) = some (p, MMU_BIT_READ ||| MMU_BIT_WRITE)) ∧
    ∀ addr, (∀ r ∈ L.kernelRanges, ¬ PageMeets addr r) →
      (∀ p, p < DIRECT_MAP_SIZE → addr ≠ KERNEL_SPACE_OFFSET + p) → table addr = none := by
  intro table
  obtain ⟨ρ, hroot, hrefines, _⟩ := createMmuTable_refines hL.toWellFormed hok
  have hρ : (createMmuTable L k).1 / PAGE_SIZE = ρ := by
    rw [hroot, PAGE_SIZE, Nat.mul_div_cancel_left ρ (by decide)]
  have htable : ∀ addr, table addr = if Canonical addr then
      (PageMap.kernel L (getVpns addr)).map
        fun x => (4096 * x.page + addr % 4096, permissions x.flags) else none := by
    intro addr
    simp only [table, translation, hρ, hrefines.denotes]
  refine ⟨fun r hr addr hmeets => ?_, fun p hp => ?_, fun addr hno hdirect => ?_⟩
  · obtain ⟨hlow, hmap⟩ := kernel_map_range hL hr hmeets
    have hcanonical : Canonical addr := Or.inl hlow
    rw [htable, if_pos hcanonical, hmap, Option.map_some, Mapping.installed]
    dsimp only
    rw [permissions_installed hr, Nat.mul_div_cancel _ (by decide : 0 < 4096),
      Nat.div_add_mod addr 4096]
  · have hcanonical : Canonical (KERNEL_SPACE_OFFSET + p) := by
      right
      have hsum := KERNEL_SPACE_OFFSET_add
      omega
    rw [htable, if_pos hcanonical, kernel_map_direct hp, Option.map_some]
    have hoffset : (KERNEL_SPACE_OFFSET + p) % 4096 = p % 4096 := by
      simp only [KERNEL_SPACE_OFFSET]
      omega
    dsimp only
    rw [hoffset, Nat.div_add_mod p 4096, show permissions 0x27#64 = MMU_BIT_READ ||| MMU_BIT_WRITE
      by decide]
  · rw [htable]
    by_cases hcanonical : Canonical addr
    · rw [if_pos hcanonical]
      rcases hcanonical with hlow | ⟨hhigh, hlt⟩
      · rw [kernel_map_absent hL hlow hno]
        rfl
      · have hsum := KERNEL_SPACE_OFFSET_add
        exact absurd (Nat.add_sub_cancel' hhigh).symm (hdirect _ (by omega))
    · rw [if_neg hcanonical]

theorem Layout.small_linked : Layout.small.Linked :=
  ⟨small_wellFormed, by decide, by decide, by decide, by decide, by decide, by decide⟩

theorem kernel_address_space_small :
    translation (createMmuTable .small .blank).2.mem ((createMmuTable .small .blank).1 / PAGE_SIZE)
      0xffffffc080200004 = some (0x80200004, MMU_BIT_READ ||| MMU_BIT_WRITE) :=
  (kernel_address_space .small Layout.small_linked .blank (by decide +kernel)).2.1 0x80200004
    (by decide)

end IloPali
