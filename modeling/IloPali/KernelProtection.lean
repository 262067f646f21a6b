import IloPali.ArgumentOverrun

/-!
# The kernel's pages in the table of a task

What `create_mmu_table` has mapped for the kernel stays in the table of a new task as it is, and the
loader adds pages for user code only, none of them to write and to execute at once: whatever the
image says, an occupied entry is never replaced.  The one way out is the memory of the table
itself, where `args_new` runs over it.
-/

namespace IloPali

/-! ## 1. The property -/

/-- The kernel has mapped the page: it belongs to the direct map, or meets one of the ranges that are
    mapped to themselves. -/
def KernelPage (L : Layout) (v : PageNumber) : Prop :=
  256 ≤ v.vpn0.val ∨ ∃ r ∈ L.kernelRanges, ∃ addr, PageMeets addr r ∧ getVpns addr = v

/-- No page is both to be written and to be executed, and the pages of the kernel are mapped as in a
    new table, not for user code. -/
structure KernelProtected (L : Layout) (m : PageMap) : Prop where
  writeXorExec : ∀ v x, m v = some x →
    ¬ (mmuEntryWrite x.flags = true ∧ mmuEntryExec x.flags = true)
  kept : ∀ v, KernelPage L v →
    ∃ x, m v = some x ∧ PageMap.kernel L v = some x ∧ mmuEntryUser x.flags = false

/-! ## 2. A new table -/

theorem directMap_flags {v : PageNumber} {x : Mapping} (hx : PageMap.directMap v = some x) :
    x.flags = 0x27#64 := by
  unfold PageMap.directMap at hx
  split at hx
  · rw [← Option.some.inj hx]
  · exact nomatch hx

section Kernel

variable {L : Layout}

/-- The upper half of a new table is the direct map. -/
theorem kernel_upper {v : PageNumber} (hhigh : 256 ≤ v.vpn0.val) :
    PageMap.kernel L v = PageMap.directMap v := by
  rw [PageMap.kernel, foldl_insert, PageMap.directMap, if_pos hhigh]

/-- A mapping of a new table belongs to the direct map, or to one of the ranges. -/
theorem kernel_map_cases {v : PageNumber} {x : Mapping} (hx : PageMap.kernel L v = some x) :
    x.flags = 0x27#64 ∨ ∃ r ∈ L.kernelRanges, x.flags = leafFlags r.2.2 &&& MMU_ALL_BITS := by
  rw [PageMap.kernel, foldl_insert] at hx
  cases hdirect : PageMap.directMap v with
  | some y =>
    rw [hdirect] at hx
    obtain rfl := Option.some.inj hx
    exact Or.inl (directMap_flags hdirect)
  | none =>
    rw [hdirect] at hx
    obtain ⟨q, hq, rfl⟩ := Option.map_eq_some_iff.mp hx
    obtain ⟨r, hr, hpage⟩ := List.mem_flatMap.mp (List.mem_of_find?_eq_some hq)
    obtain ⟨i, _, rfl⟩ := List.mem_map.mp hpage
    exact Or.inr ⟨r, hr, rfl⟩

theorem kernel_map_flags {v : PageNumber} {x : Mapping} (hx : PageMap.kernel L v = some x) :
    ¬ (mmuEntryWrite x.flags = true ∧ mmuEntryExec x.flags = true) ∧
      mmuEntryUser x.flags = false := by
  rcases kernel_map_cases hx with hflags | ⟨r, hr, hflags⟩
  · rw [hflags]
    decide
  · rw [hflags]
    simp only [Layout.kernelRanges, List.mem_cons, List.not_mem_nil, or_false] at hr
    rcases hr with rfl | rfl | rfl | rfl | rfl | rfl
    all_goals dsimp only
    all_goals decide

/-- **A new table** protects the kernel. -/
theorem kernel_protected (hL : L.Linked) : KernelProtected L (PageMap.kernel L) := by
  refine ⟨fun v x hx => (kernel_map_flags hx).1, fun v hv => ?_⟩
  obtain ⟨x, hx⟩ : ∃ x, PageMap.kernel L v = some x := by
    rcases hv with hhigh | ⟨r, hr, addr, hmeets, rfl⟩
    · rw [kernel_upper hhigh, PageMap.directMap, if_pos hhigh]
      exact ⟨_, rfl⟩
    · exact ⟨_, (kernel_map_range hL hr hmeets).2⟩
  exact ⟨x, hx, hx, (kernel_map_flags hx).2⟩

end Kernel

/-! ## 3. Loading -/

/-- A page of the task cannot be both written and executed. -/
theorem userFlags_mapping {flags : Word} (h : UserFlags flags) {phys : Nat} (hphys : phys < 2 ^ 56)
    {x : Mapping} (hx : mappingOf (leafEntry phys flags) = some x) :
    ¬ (mmuEntryWrite x.flags = true ∧ mmuEntryExec x.flags = true) := by
  have hflags : ∀ bit, MMU_ALL_BITS &&& bit = bit → MMU_BIT_VALID &&& bit = 0#64 →
      MMU_BIT_ACCESSED &&& bit = 0#64 → MMU_BIT_DIRTY &&& bit = 0#64 →
      x.flags &&& bit = flags &&& bit := by
    intro bit hall hvalid hacc hdirty
    unfold mappingOf at hx
    split at hx
    · rw [← Option.some.inj hx]
      dsimp only
      rw [flags_of_leafEntry hphys, BitVec.and_assoc, hall, leafFlags_and hvalid hacc hdirty]
    · exact nomatch hx
  have hwrite := hflags MMU_BIT_WRITE (by decide) (by decide) (by decide) (by decide)
  have hexec := hflags MMU_BIT_EXEC (by decide) (by decide) (by decide) (by decide)
  have huser := h.2
  unfold mmuEntryWrite mmuEntryExec at huser ⊢
  rw [hwrite, hexec]
  exact huser

section Loading

variable {L : Layout} (hL : L.Linked) {H W : Nat → Prop} {ρ : Nat} {k0 k : Kernel}
include hL

/-- **The loader** keeps what protects the kernel. -/
theorem Loading.kernelProtected (h : Loading L H W ρ k0 k) (hT : Tree L k0 ρ)
    (hnew : denote k0.mem ρ = PageMap.kernel L) : KernelProtected L (denote k.mem ρ) := by
  have hsame : ∀ v, v.vpn0.val < 256 → leaf k.mem ρ v = leaf k0.mem ρ v →
      denote k.mem ρ v = PageMap.kernel L v := by
    intro v hlow hleaf
    rw [← hnew, denote_lower h.tree hlow, denote_lower hT hlow, hleaf]
  have hupper : ∀ v, 256 ≤ v.vpn0.val → denote k.mem ρ v = PageMap.kernel L v := by
    intro v hhigh
    rw [denote_upper h.tree hhigh, kernel_upper hhigh]
  have hkernel := kernel_protected hL
  constructor
  · intro v x hx
    rcases Nat.lt_or_ge v.vpn0.val 256 with hlow | hhigh
    · rcases h.leaves v with hleaf | ⟨flags, p, hp⟩
      · exact hkernel.writeXorExec v x ((hsame v hlow hleaf).symm.trans hx)
      · rw [denote_lower h.tree hlow, hp.leaf_eq] at hx
        exact userFlags_mapping hp.flags (hp.owned.lt hL.toWellFormed) hx
    · exact hkernel.writeXorExec v x ((hupper v hhigh).symm.trans hx)
  · intro v hv
    obtain ⟨x, hx, _, huser⟩ := hkernel.kept v hv
    refine ⟨x, ?_, hx, huser⟩
    rcases Nat.lt_or_ge v.vpn0.val 256 with hlow | hhigh
    · rcases h.leaves v with hleaf | ⟨flags, p, hp⟩
      · exact (hsame v hlow hleaf).trans hx
      · -- the loader maps no page that is mapped already
        apply absurd _ hp.unmapped
        rw [← hnew, denote_lower hT hlow] at hx
        unfold mappingOf at hx
        split at hx
        · rename_i hvalid
          exact Or.inr hvalid.1
        · exact nomatch hx
    · exact (hupper v hhigh).trans hx

end Loading

/-! ## 4. The table of the task -/

/-- The map of the table before the program is loaded. -/
theorem NewTable.denotes {L : Layout} (hL : L.Linked) {s : HeapTrace} {rs : List PageRun}
    {free : SizeClass → List Nat} {pid ρ : Nat}
    (h : NewTable L s rs free pid ρ (taskTable L pid s.heap.kernel).2)
    (hroot : (taskTable L pid s.heap.kernel).1 = 4096 * ρ)
    (hfirst : pid = 0 →
      denote s.heap.kernel.mem (getMmu s.heap.kernel.satp / PAGE_SIZE) = PageMap.kernel L) :
    denote (taskTable L pid s.heap.kernel).2.mem ρ = PageMap.kernel L := by
  have hfailed := h.failed
  unfold taskTable at hroot hfailed ⊢
  by_cases hpid : pid = 0
  · rw [if_pos hpid] at hroot ⊢
    have hmap := hfirst hpid
    dsimp only at hroot
    rw [hroot, root_page] at hmap
    exact hmap
  · rw [if_neg hpid] at hroot hfailed ⊢
    obtain ⟨ρ', hroot', hrefines, _⟩ := createMmuTable_refines hL.toWellFormed hfailed
    obtain rfl : ρ' = ρ := by omega
    exact hrefines.denotes

/-- **The kernel is protected** in the table of every task that is loaded, whatever the image says,
    where no page allocation fails and `malloc` has a block of the size of the argument vector.  For
    the first task the table in force has to be as `create_mmu_table` made it. -/
theorem task_table_protected_when (L : Layout) (hL : L.Linked) (s : HeapTrace) (rs : List PageRun)
    (free : SizeClass → List Nat) (sys sys' : System) (h' : Heap) (pid header stackSize : Nat)
    (args : List (List UInt8)) (origin : Nat) (hready : Ready L s rs free pid)
    (hfirst : pid = 0 →
      denote s.heap.kernel.mem (getMmu s.heap.kernel.satp / PAGE_SIZE) = PageMap.kernel L)
    (hspawn : spawnTaskFromElf L header stackSize args origin sys s.heap = (some pid, sys', h'))
    (hok : h'.kernel.failed = s.heap.kernel.failed) (hholds : s.Holds L (8 * args.length)) :
    KernelProtected L (denote h'.kernel.mem ((sys'.tasks pid).mmuData / PAGE_SIZE)) := by
  have hwf := hL.toWellFormed
  obtain ⟨_, rfl, rfl⟩ := spawnTaskFromElf_some hspawn
  obtain ⟨_, _, htop⟩ := installTask_args sys pid
    (spawnTask L pid header stackSize args origin s.heap).loaded
  obtain ⟨ρ, rs', free', argsNew, k, hp⟩ :=
    spawnTask_prepares hwf hready header stackSize args origin hholds hok
  have hinv := (hp.spawns hwf).inv.working.loading
  have htable := hp.table
  have hroot := hp.root
  have hmap := @NewTable.denotes L hL s rs free pid ρ htable hroot hfirst
  have hloaded : (spawnTask L pid header stackSize args origin s.heap).loaded.top = 4096 * ρ := hroot
  rw [htop, hloaded, root_page]
  exact hinv.kernelProtected hL htable.loading.tree hmap

theorem task_table_protected_crowded :
    KernelProtected .small (denote (crowdedTask 251).heap.kernel.mem
      (((installTask twoSlots 1 (crowdedTask 251).loaded).tasks 1).mmuData / PAGE_SIZE)) := by
  have hn : 251 = 251 ∨ 251 = 252 := Or.inl rfl
  obtain ⟨_, hfailed, _, _⟩ := crowded_loadArgs hn
  exact task_table_protected_when .small Layout.small_linked (slotsTrace 251 lowSegment) [slotsRun]
    (slotsFree 251) twoSlots _ _ 1 lowHeader 1 manyArgs 0 (crowded_ready (by decide) (by decide))
    (fun h => nomatch h) (crowded_spawn hn) hfailed crowded_holds

/-- **With the last slot of a region** for `args_new`, no page allocation fails and the new table does not
    map the kernel: its root links to nothing for the pages from 0x80000000 on. -/
theorem task_table_unprotected :
    Ready .small (slotsTrace 252 lowSegment) [slotsRun] (slotsFree 252) 1 ∧
    ∃ sys' h', spawnTaskFromElf .small lowHeader 1 manyArgs 0 twoSlots (slotsHeap 252 lowSegment) =
        (some 1, sys', h') ∧
      h'.kernel.failed = (slotsHeap 252 lowSegment).kernel.failed ∧
      ¬ KernelProtected .small (denote h'.kernel.mem ((sys'.tasks 1).mmuData / PAGE_SIZE)) := by
  have hn : 252 = 251 ∨ 252 = 252 := Or.inr rfl
  obtain ⟨_, hfailed, _, _⟩ := crowded_loadArgs hn
  refine ⟨crowded_ready (by decide) (by decide), _, _, crowded_spawn hn, hfailed, fun hprotected => ?_⟩
  obtain ⟨_, _, hroot⟩ := installTask_args twoSlots 1 (crowdedTask 252).loaded
  have htop : (crowdedTask 252).loaded.top = 4096 * 0x80242 := (crowded_top hn).1
  rw [hroot, htop, root_page] at hprotected
  have hrange : (0x80200000, 0x80201000, MMU_BIT_READ ||| MMU_BIT_WRITE ||| MMU_BIT_GLOBAL) ∈
      Layout.small.kernelRanges := by
    decide
  obtain ⟨x, hx, _⟩ := hprotected.kept (getVpns 0x80200000)
    (Or.inr ⟨_, hrange, 0x80200000, ⟨0x80200000, rfl, by decide, by decide⟩, rfl⟩)
  have hvpn : (getVpns 0x80200000).vpn0 = 2 := by decide
  have hinvalid : mmuEntryValid (cells (crowdedTask 252).heap.kernel.mem 0x80242 2) = false := by
    rw [crowded_root (by decide)]
    decide
  unfold denote translate at hx
  rw [hvpn, hinvalid, if_pos rfl] at hx
  exact absurd hx (Option.some_ne_none x).symm

end IloPali
