import IloPali.HeapUse

/-!
# A region whose slots are in use

A heap with one region of blocks of 1024 bytes, of which the first `n` are in use and the others
free, as `malloc` leaves it after `n` calls.  With all 252 formatted slots in use, the block that
the next call gets is the slot behind them, of which the region holds 128 bytes.
-/

namespace IloPali

open ByteMemory LinkedList

/-! ## 1. The heap -/

/-- The slots of the first region of the small machine, as the kernel sees them with the MMU on. -/
def slotAt (j : Nat) : Nat := SizeClass.free1024.slot 0xffffffc080201000 j

/-- The words in the header of slot `j`, where `n` slots are in use: `next`, `prev`, `size` and
    `origin`. -/
def slotWord (n j : Nat) : Nat → Nat
  | 0 => if n ≤ j then slotAt (j + 1) else if j = 0 then 0 else slotAt (j - 1)
  | 1 => if n ≤ j then (if j = 0 then 0 else slotAt (j - 1))
      else if j + 1 < n then slotAt (j + 1) else 0
  | 2 => 1024
  | _ => 0

/-- The refcount table with a one for every page of the region, the region with its headers, and
    `image` behind it. -/
def slotsMem (n : Nat) (image : Mem) (x : Nat) : UInt8 :=
  if x < 0x80200000 then 0
  else if x < 0x80200082 then UInt8.ofNat (1 - x % 2)
  else if x < 0x80201000 then 0
  else if x < 0x80201000 + 252 * 1056 then
    UInt8.ofNat (slotWord n ((x - 0x80201000) / 1056) ((x - 0x80201000) % 1056 / 8) /
      256 ^ ((x - 0x80201000) % 8))
  else if x < 0x80242000 then 0
  else image x

/-- The heap with the first `n` slots in use, one of them at least; the table in force lies outside
    of the page heap. -/
def slotsHeap (n : Nat) (image : Mem) : Heap :=
  ⟨⟨slotsMem n image, 0x8000000000090001#64, 0⟩, false, slotAt (n - 1),
    Function.update (fun _ => 0) .free1024 (slotAt n)⟩

def slotsTrace (n : Nat) (image : Mem) : HeapTrace where
  heap := slotsHeap n image
  live := (List.range n).map fun i => ⟨slotAt (n - 1 - i), 1024⟩
  regions := [(0xffffffc080201000, .free1024)]
  large := []

/-- The pages of the region. -/
def slotsRun : PageRun := ⟨0, 65, some .free1024⟩

def slotsFree (n : Nat) : SizeClass → List Nat :=
  Function.update (fun _ => []) .free1024 ((List.range (253 - n)).map fun i => slotAt (n + i))

/-! ## 2. Its headers -/

theorem slotAt_eq (j : Nat) : slotAt j = 0xffffffc080201000 + 1056 * j := by
  rw [slotAt, SizeClass.slot, Nat.mul_comm]
  rfl

theorem slotAt_ne_zero (j : Nat) : slotAt j ≠ 0 := by
  rw [slotAt_eq]
  omega

section Headers

variable (n : Nat) (image : Mem)

@[simp] theorem slotsHeap_mmu : (slotsHeap n image).kernel.mmu = true := by
  show mmuEnabled 0x8000000000090001#64 = true
  decide

theorem slotsHeap_load {p : Nat} (hp : KERNEL_SPACE_OFFSET ≤ p) :
    (slotsHeap n image).kernel.load 8 p = load (slotsMem n image) 8 (p - KERNEL_SPACE_OFFSET) := by
  rw [Kernel.load, slotsHeap_mmu, physOf, safe2phys_on hp]
  rfl

/-- The physical address of a header. -/
theorem slotAt_phys (j w : Nat) : KERNEL_SPACE_OFFSET ≤ slotAt j + 8 * w ∧
    slotAt j + 8 * w - KERNEL_SPACE_OFFSET = 0x80201000 + 1056 * j + 8 * w := by
  rw [slotAt_eq, KERNEL_SPACE_OFFSET]
  omega

theorem slotsMem_word {j w : Nat} (hj : j < 252) (hw : w < 4) :
    load (slotsMem n image) 8 (0x80201000 + 1056 * j + 8 * w) = slotWord n j w % 256 ^ 8 := by
  apply load_digits
  intro i hi
  have hindex : (0x80201000 + 1056 * j + 8 * w + i - 0x80201000) / 1056 = j := by omega
  have hword : (0x80201000 + 1056 * j + 8 * w + i - 0x80201000) % 1056 / 8 = w := by omega
  have hbyte : (0x80201000 + 1056 * j + 8 * w + i - 0x80201000) % 8 = i := by omega
  unfold slotsMem
  rw [if_neg (by omega), if_neg (by omega), if_neg (by omega), if_pos (by omega), hindex, hword, hbyte]

theorem slotWord_lt {j : Nat} (hj : j < 252) (w : Nat) : slotWord n j w < 256 ^ 8 := by
  have hlt : ∀ i, i ≤ 252 → slotAt i < 256 ^ 8 := by
    intro i hi
    rw [slotAt_eq]
    omega
  unfold slotWord
  split
  · split_ifs
    · exact hlt _ (by omega)
    · decide
    · exact hlt _ (by omega)
  · split_ifs
    · decide
    · exact hlt _ (by omega)
    · exact hlt _ (by omega)
    · decide
  · decide
  · decide

/-- The headers of the formatted slots. -/
theorem slotsHeap_header {j : Nat} (hj : j < 252) :
    (slotsHeap n image).kernel.header (slotAt j) =
      ⟨slotWord n j 0, slotWord n j 1, slotWord n j 2⟩ := by
  have hword : ∀ w, w < 4 →
      (slotsHeap n image).kernel.load 8 (slotAt j + 8 * w) = slotWord n j w := by
    intro w hw
    obtain ⟨hdirect, hphys⟩ := slotAt_phys j w
    rw [slotsHeap_load n image hdirect, hphys, slotsMem_word n image hj hw,
      Nat.mod_eq_of_lt (slotWord_lt n hj w)]
  exact Header.ext (hword 0 (by decide)) (hword 1 (by decide)) (hword 2 (by decide))

/-- The header of the slot behind them. -/
theorem slotsHeap_last : (slotsHeap n image).kernel.header (slotAt 252) = ⟨0, 0, 0⟩ := by
  have hword : ∀ w, w < 4 → (slotsHeap n image).kernel.load 8 (slotAt 252 + 8 * w) = 0 := by
    intro w hw
    obtain ⟨hdirect, hphys⟩ := slotAt_phys 252 w
    rw [slotsHeap_load n image hdirect, hphys]
    apply load_of_zero
    intro x h1 h2
    unfold slotsMem
    rw [if_neg (by omega), if_neg (by omega), if_neg (by omega), if_neg (by omega), if_pos (by omega)]
  exact Header.ext (hword 0 (by decide)) (hword 1 (by decide)) (hword 2 (by decide))

theorem slotsHeap_rc {i : Nat} (hi : i < 65) : rc .small (slotsHeap n image).kernel i = 1 := by
  have h := @load_digits (slotsMem n image) 2 (0x80200000 + 2 * i) 1 fun j hj => by
    unfold slotsMem
    rw [if_neg (by omega), if_pos (by omega)]
    have hcases : j = 0 ∨ j = 1 := by omega
    rcases hcases with rfl | rfl
    · rw [show (0x80200000 + 2 * i + 0) % 2 = 0 by omega]
      rfl
    · rw [show (0x80200000 + 2 * i + 1) % 2 = 1 by omega]
      rfl
  exact h

end Headers

/-! ## 3. The invariant -/

section Invariant

variable {n : Nat} (image : Mem)

theorem slotsRun_start : slotsRun.start .small true = 0xffffffc080201000 := by decide

theorem slotsRun_slot (j : Nat) : SizeClass.free1024.slot (slotsRun.start .small true) j = slotAt j := by
  rw [slotsRun_start, slotAt]

/-- The blocks of the region with their lengths. -/
theorem slotsRun_pieces : pieces .small true [slotsRun] = (List.range 253).map fun j =>
    (slotAt j, min SizeClass.free1024.slotSize (REGION_SIZE - j * SizeClass.free1024.slotSize)) := by
  have hcount : SizeClass.free1024.slotCount + 1 = 253 := by decide
  have hcls : slotsRun.cls = some .free1024 := rfl
  simp only [pieces, List.flatMap_cons, List.flatMap_nil, List.append_nil, PageRun.pieces, hcls,
    SizeClass.pieces, hcount, slotsRun_slot]

theorem slots_buckets : buckets .small true [slotsRun] = (List.range 253).map slotAt := by
  rw [buckets, slotsRun_pieces, List.map_map]
  rfl

theorem slotsHeap_next {j : Nat} (hj : j < 252) :
    (slotsHeap n image).kernel.next (slotAt j) = slotWord n j 0 := by
  rw [Kernel.next_of_header (slotsHeap_header n image hj)]

theorem slotsHeap_prev {j : Nat} (hj : j < 252) :
    (slotsHeap n image).kernel.prev (slotAt j) = slotWord n j 1 := by
  rw [Kernel.prev_of_header (slotsHeap_header n image hj)]

/-- The used list leads from the last slot that was taken to the first. -/
theorem slots_usedChain (h1 : 1 ≤ n) (hn : n ≤ 252) :
    Chain 0 (slotsHeap n image).kernel.next (slotAt (n - 1))
      ((List.range n).map fun i => slotAt (n - 1 - i)) := by
  obtain ⟨m, rfl⟩ := Nat.exists_eq_add_of_le' h1
  apply chain_range (s := fun i => slotAt (m + 1 - 1 - i))
  · intro j hj
    rw [slotsHeap_next image (by omega), slotWord, if_neg (by omega), if_neg (by omega)]
    congr 1
  · rw [slotsHeap_next image (by omega), slotWord, if_neg (by omega), if_pos (by omega)]
  · exact fun j _ => slotAt_ne_zero _

theorem slots_usedBack (h1 : 1 ≤ n) (hn : n ≤ 252) :
    Back (slotsHeap n image).kernel.prev 0 ((List.range n).map fun i => slotAt (n - 1 - i)) := by
  obtain ⟨m, rfl⟩ := Nat.exists_eq_add_of_le' h1
  apply back_range (s := fun i => slotAt (m + 1 - 1 - i))
  · rw [slotsHeap_prev image (by omega), slotWord, if_neg (by omega), if_neg (by omega)]
  · intro j hj
    rw [slotsHeap_prev image (by omega), slotWord, if_neg (by omega), if_pos (by omega)]
    congr 1
    omega

/-- The free list leads through the other slots. -/
theorem slots_freeChain (hn : n ≤ 252) (c : SizeClass) :
    Chain 0 (slotsHeap n image).kernel.next ((slotsHeap n image).free c) (slotsFree n c) := by
  unfold slotsHeap slotsFree
  dsimp only
  by_cases hc : c = .free1024
  · subst hc
    rw [Function.update_self, Function.update_self]
    obtain ⟨m, hm⟩ := Nat.exists_eq_add_of_le hn
    rw [show 253 - n = m + 1 by omega]
    apply chain_range (s := fun i => slotAt (n + i))
    · intro j hj
      have hnext := @slotsHeap_next n image (n + j) (by omega)
      rw [slotWord, if_pos (Nat.le_add_right n j)] at hnext
      exact hnext
    · rw [← hm]
      exact Kernel.next_of_header (slotsHeap_last n image)
    · exact fun j _ => slotAt_ne_zero _
  · rw [Function.update_of_ne hc, Function.update_of_ne hc]
    rfl

theorem slots_perm (h1 : 1 ≤ n) (hn : n ≤ 252) :
    (((List.range n).map fun i => slotAt (n - 1 - i)) ++ allFree (slotsFree n)).Perm
      (buckets .small true [slotsRun]) := by
  have hfree : allFree (slotsFree n) = (List.range (253 - n)).map fun i => slotAt (n + i) := by
    simp [allFree, SizeClass.all, slotsFree, Function.update]
  have hused : ((List.range n).map fun i => slotAt (n - 1 - i)) =
      ((List.range n).map slotAt).reverse := by
    rw [← List.map_reverse, List.range_eq_range', List.reverse_range', List.map_map]
    simp [List.range_eq_range']
  have hall : (List.range 253).map slotAt =
      (List.range n).map slotAt ++ (List.range (253 - n)).map fun i => slotAt (n + i) := by
    rw [show 253 = n + (253 - n) by omega, List.range_add, List.map_append, List.map_map]
    rw [Nat.add_sub_cancel_left]
    rfl
  rw [hfree, hused, slots_buckets, hall]
  exact (List.reverse_perm _).append_right _

theorem slots_pages : HeapPages .small (slotsHeap n image).kernel [slotsRun] := by
  refine ⟨⟨?_, ?_, List.pairwise_singleton _ _⟩, ?_, ?_⟩
  · exact fun _ => by decide
  · intro r hr
    obtain rfl := List.mem_singleton.mp hr
    exact ⟨by decide, by decide, fun _ _ => rfl⟩
  · intro r hr i _ hi
    obtain rfl := List.mem_singleton.mp hr
    rw [slotsHeap_rc n image (i := i) (Nat.zero_add 65 ▸ hi)]
    exact one_ne_zero
  · intro r hr
    obtain rfl := List.mem_singleton.mp hr
    have hcount : SizeClass.free1024.slotCount = 252 := by decide
    have hcls : slotsRun.cls = some .free1024 := rfl
    unfold PageRun.Sized
    rw [slotsHeap_mmu, hcls]
    dsimp only
    rw [hcount]
    constructor
    · intro j hj
      rw [slotsRun_slot]
      exact Kernel.size_of_header (slotsHeap_header n image hj)
    · rw [slotsRun_slot]
      exact Kernel.size_of_header (slotsHeap_last n image)

/-- **The heap is in order**, whatever lies behind the region. -/
theorem slots_useInv (h1 : 1 ≤ n) (hn : n ≤ 252) :
    UseInv .small (slotsTrace n image) [slotsRun] (slotsFree n) := by
  have hlive : (slotsTrace n image).live.map LiveBlock.bucket =
      (List.range n).map fun i => slotAt (n - 1 - i) := by
    simp [slotsTrace]
  have hpages := @slots_pages n image
  have hsize : ∀ j, j < 252 → (slotsHeap n image).kernel.size (slotAt j) = 1024 := fun j hj =>
    Kernel.size_of_header (slotsHeap_header n image hj)
  refine ⟨⟨⟨hpages, ?_, ?_, slots_freeChain image hn, ?_, ?_⟩, ?_, ?_⟩, ?_⟩
  · rw [hlive]
    exact slots_usedChain image h1 hn
  · rw [hlive]
    exact slots_usedBack image h1 hn
  · rw [hlive]
    show (_ ++ allFree (slotsFree n)).Perm (buckets .small (slotsHeap n image).kernel.mmu [slotsRun])
    rw [slotsHeap_mmu]
    exact slots_perm h1 hn
  · intro c b hb
    unfold slotsFree at hb
    by_cases hc : c = .free1024
    · subst hc
      rw [Function.update_self] at hb
      obtain ⟨i, hi, rfl⟩ := List.mem_map.mp hb
      rw [List.mem_range] at hi
      rcases Nat.lt_or_ge (n + i) 252 with hlt | hge
      · exact Or.inl (hsize _ hlt)
      · right
        rw [show n + i = 252 by omega]
        exact Kernel.size_of_header (slotsHeap_last n image)
    · rw [Function.update_of_ne hc] at hb
      exact nomatch hb
  · rintro ⟨a, c⟩
    have hstart : slotsRun.start .small (slotsHeap n image).kernel.mmu = 0xffffffc080201000 := by
      rw [slotsHeap_mmu, slotsRun_start]
    show (a, c) ∈ [(0xffffffc080201000, SizeClass.free1024)] ↔ ∃ r ∈ [slotsRun],
      r.cls = some c ∧ r.start .small (slotsHeap n image).kernel.mmu = a
    constructor
    · intro h
      obtain ⟨rfl, rfl⟩ := Prod.mk.inj (List.mem_singleton.mp h)
      exact ⟨slotsRun, List.mem_singleton_self _, rfl, hstart⟩
    · rintro ⟨r, hr, hc, ha⟩
      obtain rfl := List.mem_singleton.mp hr
      rw [hstart] at ha
      rw [← ha, ← Option.some.inj hc]
      exact List.mem_singleton_self _
  · rintro ⟨a, c⟩
    simp [slotsTrace, slotsRun]
  · intro b hb
    obtain ⟨i, hi, rfl⟩ := List.mem_map.mp hb
    rw [List.mem_range] at hi
    have hpieces : (slotAt (n - 1 - i), 1056) ∈ pieces .small true [slotsRun] := by
      rw [slotsRun_pieces]
      refine List.mem_map.mpr ⟨n - 1 - i, List.mem_range.mpr (by omega), ?_⟩
      have hregion : REGION_SIZE = 266240 := by decide
      have hslot : SizeClass.free1024.slotSize = 1056 := by decide
      refine Prod.ext rfl (min_eq_left ?_)
      rw [hregion, hslot]
      omega
    refine ⟨1056, ?_, (by decide : HEADER_SIZE + 1024 ≤ 1056), ?_⟩
    · show _ ∈ pieces .small (slotsHeap n image).kernel.mmu [slotsRun]
      rw [slotsHeap_mmu]
      exact hpieces
    · show HEADER_SIZE + (slotsHeap n image).kernel.size (slotAt (n - 1 - i)) ≤ 1056
      rw [hsize _ (by omega)]
      decide

end Invariant

end IloPali
