import IloPali.FdtAddress
import IloPali.FdtDump
import IloPali.FdtProgress

/-!
# The device tree through the direct map (`fdt_phys2safe`)

`kinit` reads the device tree through its physical address first, and through the direct map
after `set_mmu`.  The functions that read it compute their pointers from the ones they are given,
so with all of these moved, what they return is moved by as much.
-/

namespace IloPali

open ByteMemory

/-! ## 1. The code -/

/-- `fdt_phys2safe`. -/
def fdtPhys2safe (mmu : Bool) (fdt : FdtT) : FdtT where
  header := phys2safe mmu fdt.header
  memoryReservationBlock := phys2safe mmu fdt.memoryReservationBlock
  structureBlock := phys2safe mmu fdt.structureBlock
  stringsBlock := phys2safe mmu fdt.stringsBlock

/-- Memory as kernel pointers see it. -/
def Kernel.seen (k : Kernel) : Mem := fun p => k.mem (physOf k.mmu p)

/-! ## 2. Memory that is moved -/

/-- A pointer that is moved, unless it is `NULL`. -/
def rebase (s p : Nat) : Nat := if p = 0 then 0 else s + p

/-- A property with its pointers moved, unless it is the zero result. -/
def FdtProperty.rebase (s : Nat) (r : FdtProperty) : FdtProperty :=
  if r.data = 0 then r else ⟨r.len, s + r.key, s + r.data⟩

section Moved

variable {m m' : Mem} {s : Nat} (hm : ∀ x, m' (s + x) = m x) (hs : s % 4 = 0)
include hm

theorem beToLe_moved (size a : Nat) : beToLe size m' (s + a) = beToLe size m a := by
  unfold beToLe
  simp only [Nat.add_assoc, hm]

theorem skipString_moved (fuel c : Nat) :
    skipString m' fuel (s + c) = (skipString m fuel c).map (s + ·) := by
  induction fuel generalizing c with
  | zero => rfl
  | succ fuel ih =>
    rw [skipString, skipString, hm, Nat.add_assoc, ih]
    split
    · rfl
    · rfl

theorem matchName_moved (c : Nat) (name : List UInt8) :
    matchName m' (s + c) name = (s + (matchName m c name).1, (matchName m c name).2) := by
  induction name generalizing c with
  | nil => rfl
  | cons t name ih =>
    rw [matchName, matchName, hm, Nat.add_assoc, ih]
    split
    · split
      · rfl
      · rfl
    · rfl

theorem matchComponent_moved (c : Nat) (path : List UInt8) :
    matchComponent m' (s + c) path =
      (s + (matchComponent m c path).1, (matchComponent m c path).2) := by
  induction path generalizing c with
  | nil => rfl
  | cons t path ih =>
    rw [matchComponent, matchComponent, hm, Nat.add_assoc, ih]
    split
    · split
      · rfl
      · rfl
    · rfl

theorem strcmp_moved (c : Nat) (key : List UInt8) : strcmp m' (s + c) key = strcmp m c key := by
  induction key generalizing c with
  | nil => rw [strcmp, strcmp, hm]
  | cons t key ih => rw [strcmp, strcmp, hm, Nat.add_assoc, ih]

theorem seekAt_moved (fuel c : Nat) :
    seekAt m' fuel (s + c) = (seekAt m fuel c).map (s + ·) := by
  induction fuel generalizing c with
  | zero => rfl
  | succ fuel ih =>
    rw [seekAt, seekAt, hm, Nat.add_assoc, ih]
    split
    · rfl
    · split
      · rfl
      · rfl

theorem addrLoop_moved (fuel c result : Nat) :
    addrLoop m' fuel (s + c) result = addrLoop m fuel c result := by
  induction fuel generalizing c result with
  | zero => rfl
  | succ fuel ih => rw [addrLoop, addrLoop, hm, Nat.add_assoc, ih]

omit hm in
include hs in
theorem floor4_moved (p : Nat) : floor4 (s + p) = s + floor4 p := by
  unfold floor4
  omega

end Moved

/-! ## 3. Loops that are moved -/

/-- A turn with its state and its result moved. -/
def Turn.map {σ ρ : Type} (f : σ → σ) (g : ρ → ρ) : Turn σ ρ → Turn σ ρ
  | .returns r => .returns (g r)
  | .goesOn s => .goesOn (f s)
  | .runsOut => .runsOut

/-- **A loop whose turns are moved** returns what it returned, moved. -/
theorem run_moved {σ ρ : Type} {turn turn' : Nat → σ → Turn σ ρ} {loop loop' : Nat → σ → Option ρ}
    (h0 : ∀ s, loop 0 s = none) (h0' : ∀ s, loop' 0 s = none)
    (hloop : ∀ fuel s, loop (fuel + 1) s = (turn fuel s).run (loop fuel))
    (hloop' : ∀ fuel s, loop' (fuel + 1) s = (turn' fuel s).run (loop' fuel))
    {f : σ → σ} {g : ρ → ρ} {P : σ → Prop}
    (hturn : ∀ fuel s, P s → turn' fuel (f s) = (turn fuel s).map f g)
    (hkeep : ∀ fuel s s', P s → turn fuel s = .goesOn s' → P s') (fuel : Nat) {s : σ} (hs : P s) :
    loop' fuel (f s) = (loop fuel s).map g := by
  induction fuel generalizing s with
  | zero => rw [h0, h0', Option.map_none]
  | succ fuel ih =>
    rw [hloop, hloop', hturn fuel s hs]
    cases hcase : turn fuel s with
    | returns r => rfl
    | goesOn s' => exact ih (hkeep fuel s s' hs hcase)
    | runsOut => rfl

theorem skipString_lt {m : Mem} {fuel c c' : Nat} (h : skipString m fuel c = some c') : c < c' := by
  induction fuel generalizing c with
  | zero => cases h
  | succ fuel ih =>
    rw [skipString] at h
    split at h
    · cases h
      exact Nat.lt_succ_self c
    · exact Nat.lt_of_succ_lt (ih h)

theorem floor4_pos {c : Nat} (hc : 0 < c) : 0 < floor4 (c + 3) := by
  unfold floor4
  omega

/-- Where a turn goes on that skips a name. -/
theorem skipTo_goesOn {σ ρ : Type} {m : Mem} {fuel c : Nat} {next : Nat → σ} {s' : σ}
    (h : (skipTo m fuel c next : Turn σ ρ) = .goesOn s') : ∃ p, 0 < p ∧ s' = next p := by
  unfold skipTo at h
  cases hskip : skipString m fuel c with
  | none =>
    rw [hskip] at h
    cases h
  | some c' =>
    rw [hskip] at h
    cases h
    exact ⟨_, floor4_pos (Nat.zero_lt_of_lt (skipString_lt hskip)), rfl⟩

section Loops

variable {m m' : Mem} {s : Nat} (hm : ∀ x, m' (s + x) = m x) (hs : s % 4 = 0)
include hm hs

theorem skipTo_moved {σ ρ : Type} (fuel c : Nat) {next next' : Nat → σ} {f : σ → σ} {g : ρ → ρ}
    (hnext : ∀ p, next' (s + p) = f (next p)) :
    skipTo m' fuel (s + c) next' = (skipTo m fuel c next).map f g := by
  unfold skipTo
  rw [skipString_moved hm]
  cases skipString m fuel c with
  | none => rfl
  | some c =>
    dsimp only [Option.map_some, Turn.map]
    rw [Nat.add_assoc, floor4_moved hs, hnext]

theorem findTurn_moved (name : List UInt8) (fuel : Nat) {last : Nat} (hpos : 0 < last) :
    findTurn m' name fuel (s + last) = (findTurn m name fuel last).map (s + ·) (rebase s) := by
  have hlast : rebase s last = s + last := if_neg (Nat.ne_of_gt hpos)
  unfold findTurn
  simp only [Nat.add_assoc, beToLe_moved hm, matchName_moved hm, hm, floor4_moved hs]
  split_ifs
  · rfl
  · rw [Turn.map, hlast]
  · exact skipTo_moved hm hs fuel _ fun _ => rfl
  · rfl
  · rfl
  · rfl
  · rfl

theorem pathTurn_moved (fuel : Nat) {st : PathState} (hpos : 0 < st.last) :
    pathTurn m' fuel { st with last := s + st.last } =
      (pathTurn m fuel st).map (fun st => { st with last := s + st.last }) (rebase s) := by
  have hlast : rebase s st.last = s + st.last := if_neg (Nat.ne_of_gt hpos)
  unfold pathTurn
  simp only [Nat.add_assoc, beToLe_moved hm, matchComponent_moved hm, hm, floor4_moved hs]
  split_ifs
  · rfl
  · rw [Turn.map, hlast]
  · exact skipTo_moved hm hs fuel _ fun _ => rfl
  · exact skipTo_moved hm hs fuel _ fun _ => rfl
  · rfl
  · rfl
  · rfl
  · rfl
  · rfl

theorem propertyTurn_moved (stringsBlock : Nat) (key : List UInt8) (fuel : Nat)
    {st : PropertyState} (_ : 0 < st.node) :
    propertyTurn m' (s + stringsBlock) key fuel { st with node := s + st.node } =
      (propertyTurn m stringsBlock key fuel st).map (fun st => { st with node := s + st.node })
        (FdtProperty.rebase s) := by
  unfold propertyTurn
  simp only [Nat.add_assoc, beToLe_moved hm, strcmp_moved hm, floor4_moved hs]
  split_ifs
  · rfl
  · exact skipTo_moved hm hs fuel _ fun _ => rfl
  · rfl
  · rfl
  · rw [Turn.map, FdtProperty.rebase, if_neg (by simp)]
  · rfl
  · rfl
  · rfl

end Loops

section Positive

variable {m : Mem} {fuel : Nat}

theorem findTurn_pos {name : List UInt8} {last last' : Nat} (hpos : 0 < last)
    (h : findTurn m name fuel last = .goesOn last') : 0 < last' := by
  unfold findTurn at h
  dsimp only at h
  split_ifs at h
  · obtain ⟨p, hp, rfl⟩ := skipTo_goesOn h
    exact hp
  all_goals
    cases h
  · exact Nat.succ_pos _
  · exact floor4_pos (by omega)
  · exact Nat.succ_pos _
  · exact hpos

theorem pathTurn_pos {st st' : PathState} (hpos : 0 < st.last)
    (h : pathTurn m fuel st = .goesOn st') : 0 < st'.last := by
  unfold pathTurn at h
  dsimp only at h
  split_ifs at h
  · obtain ⟨p, hp, rfl⟩ := skipTo_goesOn h
    exact hp
  · obtain ⟨p, hp, rfl⟩ := skipTo_goesOn h
    exact hp
  all_goals
    cases h
  · exact Nat.succ_pos _
  · exact floor4_pos (by omega)
  · exact Nat.succ_pos _
  · exact hpos

theorem propertyTurn_pos {stringsBlock : Nat} {key : List UInt8} {st st' : PropertyState}
    (hpos : 0 < st.node) (h : propertyTurn m stringsBlock key fuel st = .goesOn st') :
    0 < st'.node := by
  unfold propertyTurn at h
  dsimp only at h
  split_ifs at h
  · obtain ⟨p, hp, rfl⟩ := skipTo_goesOn h
    exact hp
  all_goals
    cases h
  · exact Nat.succ_pos _
  · exact floor4_pos (by omega)
  · exact Nat.succ_pos _
  · exact hpos

end Positive

/-! ## 4. The readers -/

section Readers

variable {m m' : Mem} {s : Nat} (hm : ∀ x, m' (s + x) = m x) (hs : s % 4 = 0)
include hm hs

theorem findLoop_moved (name : List UInt8) (fuel : Nat) {last : Nat} (hpos : 0 < last) :
    findLoop m' name fuel (s + last) = (findLoop m name fuel last).map (rebase s) :=
  run_moved (fun _ => rfl) (fun _ => rfl) (findLoop_turn m name) (findLoop_turn m' name)
    (fun fuel _ h => findTurn_moved hm hs name fuel h) (fun _ _ _ h hturn => findTurn_pos h hturn)
    fuel hpos

theorem fdtFind_moved (fuel : Nat) {structureBlock : Nat} (hpos : 0 < structureBlock)
    (name : List UInt8) (last : Nat) :
    fdtFind fuel m' (s + structureBlock) name (rebase s last) =
      (fdtFind fuel m structureBlock name last).map (rebase s) := by
  unfold fdtFind rebase
  by_cases hlast : last = 0
  · rw [if_pos hlast, if_pos rfl, if_pos hlast]
    exact findLoop_moved hm hs name fuel hpos
  · rw [if_neg hlast, if_neg (by omega), if_neg hlast, Nat.add_assoc, skipString_moved hm]
    cases hskip : skipString m fuel (last + 4) with
    | none => rfl
    | some c =>
      have hc := skipString_lt hskip
      rw [Option.map_some, Option.bind_some, Option.bind_some, Nat.add_assoc, floor4_moved hs]
      exact findLoop_moved hm hs name fuel (@floor4_pos (c + 1) (by omega))

theorem pathLoop_moved (fuel : Nat) (st : PathState) (hpos : 0 < st.last) :
    pathLoop m' fuel (s + st.last) st.path st.depth st.intendedDepth =
      (pathLoop m fuel st.last st.path st.depth st.intendedDepth).map (rebase s) :=
  @run_moved PathState Nat (pathTurn m) (pathTurn m')
    (fun fuel st => pathLoop m fuel st.last st.path st.depth st.intendedDepth)
    (fun fuel st => pathLoop m' fuel st.last st.path st.depth st.intendedDepth)
    (fun _ => rfl) (fun _ => rfl) (pathLoop_turn m) (pathLoop_turn m')
    (fun st => { st with last := s + st.last }) (rebase s) (fun st => 0 < st.last)
    (fun fuel _ h => pathTurn_moved hm hs fuel h) (fun _ _ _ h hturn => pathTurn_pos h hturn)
    fuel st hpos

theorem fdtPath_moved (fuel : Nat) {structureBlock : Nat} (hpos : 0 < structureBlock)
    (path : List UInt8) (last : Nat) :
    fdtPath fuel m' (s + structureBlock) path (rebase s last) =
      (fdtPath fuel m structureBlock path last).map (rebase s) := by
  unfold fdtPath
  have hnull : rebase s last = 0 ↔ last = 0 := by
    unfold rebase
    split
    · simp_all
    · omega
  simp only [hnull]
  split_ifs with hstart hslash
  · exact pathLoop_moved hm hs fuel ⟨structureBlock, path.tail, 1, 1⟩ hpos
  · exact pathLoop_moved hm hs fuel ⟨structureBlock, path, 1, 1⟩ hpos
  · have hlast : rebase s last = s + last := if_neg fun hzero => hstart (Or.inl hzero)
    rw [hlast, Nat.add_assoc, skipString_moved hm]
    cases hskip : skipString m fuel (last + 4) with
    | none => rfl
    | some c =>
      have hc := skipString_lt hskip
      rw [Option.map_some, Option.bind_some, Option.bind_some, Nat.add_assoc, floor4_moved hs]
      exact pathLoop_moved hm hs fuel ⟨floor4 (c + 4), path, 1, 1⟩
        (@floor4_pos (c + 1) (by omega))

theorem getPropertyLoop_moved (stringsBlock : Nat) (key : List UInt8) (fuel : Nat)
    (st : PropertyState) (hpos : 0 < st.node) :
    getPropertyLoop m' (s + stringsBlock) key fuel (s + st.node) st.depth =
      (getPropertyLoop m stringsBlock key fuel st.node st.depth).map (FdtProperty.rebase s) :=
  @run_moved PropertyState FdtProperty (propertyTurn m stringsBlock key)
    (propertyTurn m' (s + stringsBlock) key)
    (fun fuel st => getPropertyLoop m stringsBlock key fuel st.node st.depth)
    (fun fuel st => getPropertyLoop m' (s + stringsBlock) key fuel st.node st.depth)
    (fun _ => rfl) (fun _ => rfl) (getPropertyLoop_turn m stringsBlock key)
    (getPropertyLoop_turn m' (s + stringsBlock) key)
    (fun st => { st with node := s + st.node }) (FdtProperty.rebase s) (fun st => 0 < st.node)
    (fun fuel _ h => propertyTurn_moved hm hs stringsBlock key fuel h)
    (fun _ _ _ h hturn => propertyTurn_pos h hturn) fuel st hpos

theorem fdtGetProperty_moved (fuel : Nat) {structureBlock : Nat} (hpos : 0 < structureBlock)
    (stringsBlock node : Nat) (key : List UInt8) :
    fdtGetProperty fuel m' (s + structureBlock) (s + stringsBlock) (rebase s node) key =
      (fdtGetProperty fuel m structureBlock stringsBlock node key).map (FdtProperty.rebase s) := by
  have hcursor : (if rebase s node = 0 then s + structureBlock else rebase s node) =
      s + if node = 0 then structureBlock else node := by
    unfold rebase
    split_ifs
    · rfl
    · omega
    · omega
    · rfl
  have hcursorPos : 0 < if node = 0 then structureBlock else node := by
    split
    · exact hpos
    · exact Nat.pos_of_ne_zero ‹_›
  unfold fdtGetProperty
  dsimp only
  rw [hcursor, beToLe_moved hm]
  generalize (if node = 0 then structureBlock else node) = cursor at hcursorPos
  split
  · rfl
  · exact getPropertyLoop_moved hm hs stringsBlock key fuel ⟨cursor, 0⟩ hcursorPos

omit hs in
theorem fdtGetNodeAddr_moved (fuel node : Nat) :
    fdtGetNodeAddr fuel m' (s + node) = fdtGetNodeAddr fuel m node := by
  unfold fdtGetNodeAddr
  rw [beToLe_moved hm, Nat.add_assoc, seekAt_moved hm]
  split
  · rfl
  · cases seekAt m fuel (node + 4) with
    | none => rfl
    | some c => rw [Option.map_some, Option.bind_some, Option.bind_some, hm, addrLoop_moved hm]

end Readers

theorem beToLe_lt (m : Mem) (a : Nat) : beToLe 32 m a < 2 ^ 32 := by
  have hdigit : ∀ i k, k + 8 ≤ 32 → (m (a + i)).toNat <<< k < 2 ^ 32 := by
    intro i k hk
    rw [Nat.shiftLeft_eq]
    have hbyte := Nat.mul_lt_mul_of_pos_right (m (a + i)).toNat_lt (Nat.two_pow_pos k)
    have hpow := Nat.pow_le_pow_right (show 0 < 2 by decide) hk
    rw [Nat.pow_add, Nat.mul_comm] at hpow
    exact Nat.lt_of_lt_of_le hbyte hpow
  show ((((0 ||| _ <<< 24) ||| _ <<< 16) ||| _ <<< 8) ||| _ <<< 0) < 2 ^ 32
  exact Nat.or_lt_two_pow (Nat.or_lt_two_pow (Nat.or_lt_two_pow (Nat.or_lt_two_pow (by decide)
    (hdigit 0 24 (by decide))) (hdigit 1 16 (by decide))) (hdigit 2 8 (by decide)))
    (hdigit 3 0 (by decide))

/-! ## 5. The tree behind `fdt_phys2safe` -/

theorem Kernel.seen_direct {k : Kernel} (hon : k.mmu = true) (x : Nat) :
    k.seen (KERNEL_SPACE_OFFSET + x) = k.mem x := by
  rw [seen, hon, physOf, safe2phys_on (Nat.le_add_right _ _), Nat.add_sub_cancel_left]

/-- What `verify_fdt` makes of a blob that the direct map shows. -/
theorem verifyFdt_shown {k : Kernel} (hon : k.mmu = true) {fdt : Nat}
    (hshown : fdt + 2 ^ 32 ≤ DIRECT_MAP_SIZE) (hverified : (verifyFdt k.mem fdt).header ≠ 0) :
    verifyFdt k.seen (KERNEL_SPACE_OFFSET + fdt) = fdtPhys2safe true (verifyFdt k.mem fdt) ∧
    0 < (verifyFdt k.mem fdt).structureBlock ∧
    (verifyFdt k.mem fdt).structureBlock < DIRECT_MAP_SIZE ∧
    (verifyFdt k.mem fdt).stringsBlock < DIRECT_MAP_SIZE := by
  have hoffset := beToLe_lt k.mem
  have h8 := hoffset (fdt + 8)
  have h12 := hoffset (fdt + 12)
  have h16 := hoffset (fdt + 16)
  unfold verifyFdt at hverified ⊢
  split at hverified
  · rename_i hok
    simp only [Nat.add_assoc, beToLe_moved (Kernel.seen_direct hon)]
    rw [if_pos hok, if_pos ⟨by omega, hok.2⟩]
    refine ⟨?_, ?_, ?_, ?_⟩
    · unfold fdtPhys2safe
      dsimp only
      rw [phys2safe_on (by omega), phys2safe_on (by omega), phys2safe_on (by omega),
        phys2safe_on (by omega)]
    · dsimp only
      omega
    · dsimp only
      omega
    · dsimp only
      omega
  · exact absurd rfl hverified

/-- **The same tree through the direct map.**  For every blob that the direct map shows,
    `verify_fdt` of its direct-map address is what `fdt_phys2safe` makes of the one of its physical
    address; and `fdt_find`, `fdt_path`, `fdt_get_property` and `fdt_get_node_addr` return through the
    direct map what they returned before, with every pointer moved there. -/
theorem fdt_phys2safe_reads (k : Kernel) (hon : k.mmu = true) (fdt : Nat)
    (hshown : fdt + 2 ^ 32 ≤ DIRECT_MAP_SIZE) (hverified : (verifyFdt k.mem fdt).header ≠ 0)
    (fuel : Nat) :
    let t := verifyFdt k.mem fdt
    let safe := fdtPhys2safe true t
    verifyFdt k.seen (KERNEL_SPACE_OFFSET + fdt) = safe ∧
    (∀ name last, fdtFind fuel k.seen safe.structureBlock name (rebase KERNEL_SPACE_OFFSET last) =
      (fdtFind fuel k.mem t.structureBlock name last).map (rebase KERNEL_SPACE_OFFSET)) ∧
    (∀ path last, fdtPath fuel k.seen safe.structureBlock path (rebase KERNEL_SPACE_OFFSET last) =
      (fdtPath fuel k.mem t.structureBlock path last).map (rebase KERNEL_SPACE_OFFSET)) ∧
    (∀ node key, fdtGetProperty fuel k.seen safe.structureBlock safe.stringsBlock
        (rebase KERNEL_SPACE_OFFSET node) key =
      (fdtGetProperty fuel k.mem t.structureBlock t.stringsBlock node key).map
        (FdtProperty.rebase KERNEL_SPACE_OFFSET)) ∧
    ∀ node, fdtGetNodeAddr fuel k.seen (KERNEL_SPACE_OFFSET + node) =
      fdtGetNodeAddr fuel k.mem node := by
  have hm := Kernel.seen_direct hon
  have hs : KERNEL_SPACE_OFFSET % 4 = 0 := by decide
  obtain ⟨hsafe, hpos, hstructure, hstrings⟩ := verifyFdt_shown hon hshown hverified
  have hsb : (fdtPhys2safe true (verifyFdt k.mem fdt)).structureBlock =
      KERNEL_SPACE_OFFSET + (verifyFdt k.mem fdt).structureBlock := phys2safe_on hstructure
  have hst : (fdtPhys2safe true (verifyFdt k.mem fdt)).stringsBlock =
      KERNEL_SPACE_OFFSET + (verifyFdt k.mem fdt).stringsBlock := phys2safe_on hstrings
  dsimp only
  rw [hsb, hst]
  exact ⟨hsafe, fun name last => fdtFind_moved hm hs fuel hpos name last,
    fun path last => fdtPath_moved hm hs fuel hpos path last,
    fun node key => fdtGetProperty_moved hm hs fuel hpos _ node key,
    fun node => fdtGetNodeAddr_moved hm fuel node⟩

/-- The small blob at 16, with the MMU on. -/
def smallKernel : Kernel := ⟨ofBytes 16 smallBlob, 0x8000000000000001#64, 0⟩

theorem fdt_phys2safe_reads_small :
    verifyFdt smallKernel.seen (KERNEL_SPACE_OFFSET + 16) =
      ⟨KERNEL_SPACE_OFFSET + 16, KERNEL_SPACE_OFFSET + 1040, KERNEL_SPACE_OFFSET + 64,
        KERNEL_SPACE_OFFSET + 108⟩ := by
  have hverified : verifyFdt smallKernel.mem 16 = ⟨16, 1040, 64, 108⟩ := smallBlob_verified
  have hreads := fdt_phys2safe_reads smallKernel (by decide) 16 (by decide)
    (by rw [hverified]; decide) 0
  rw [hverified] at hreads
  rw [hreads.1]
  decide

end IloPali
