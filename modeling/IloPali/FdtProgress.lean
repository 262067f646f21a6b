import IloPali.FdtPath
import IloPali.FdtProperty

/-!
# Progress in the device tree

`fdt_find`, `fdt_path` and `fdt_get_property` have the same loop: each turn reads the word at the
cursor, and returns or goes on behind the token.  None of them has a case for a word that is no
token, so at such a word the next turn is the same again.  This module says exactly when every
turn returns or moves the cursor.
-/

namespace IloPali

open ByteMemory

/-! ## 1. Loops in turns -/

/-- What one turn of a loop does; `runsOut` where a loop inside it did not end. -/
inductive Turn (σ ρ : Type) where
  | returns (result : ρ)
  | goesOn (state : σ)
  | runsOut

section Loops

variable {σ ρ : Type} (turn : Nat → σ → Turn σ ρ) (cursor : σ → Nat)

/-- The states a loop comes to. -/
inductive Comes (s : σ) : σ → Prop
  | start : Comes s s
  | next {s' s'' : σ} {fuel : Nat} (h : Comes s s') (hturn : turn fuel s' = .goesOn s'') : Comes s s''

/-- The turn returns or moves the cursor forward. -/
def Moves (s : σ) : Prop :=
  ∃ fuel, (∃ r, turn fuel s = .returns r) ∨ ∃ s', turn fuel s = .goesOn s' ∧ cursor s < cursor s'

/-- Every turn of the loop returns or moves the cursor forward. -/
def Progresses (s : σ) : Prop := ∀ s', Comes turn s s' → Moves turn cursor s'

variable {turn cursor}

/-- What is exact for one turn is exact for the whole loop. -/
theorem progresses_iff {p : σ → Prop} (h : ∀ s, Moves turn cursor s ↔ p s) (s : σ) :
    Progresses turn cursor s ↔ ∀ s', Comes turn s s' → p s' := by
  constructor
  · intro hall s' hs'
    exact (h s').mp (hall s' hs')
  · intro hall s' hs'
    exact (h s').mpr (hall s' hs')

end Loops

/-! ## 2. The three loops -/

/-- The end of a turn that skips the rest of a name. -/
def skipTo {σ ρ : Type} (m : Mem) (fuel c : Nat) (next : Nat → σ) : Turn σ ρ :=
  match skipString m fuel c with
  | none => .runsOut
  | some c => .goesOn (next (floor4 (c + 3)))

/-- A turn of `fdt_find`. -/
def findTurn (m : Mem) (name : List UInt8) (fuel last : Nat) : Turn Nat Nat :=
  let current := beToLe 32 m last
  if current = FDT_END then .returns 0
  else if current = FDT_BEGIN_NODE then
    let (c, tempName) := matchName m (last + 4) name
    if (m c = 0 ∨ m c = atSign) ∧ tempName = [] then .returns last
    else skipTo m fuel c fun last => last
  else if current = FDT_END_NODE then .goesOn (last + 4)
  else if current = FDT_PROP then .goesOn (floor4 (last + 12 + beToLe 32 m (last + 4) + 3))
  else if current = FDT_NOP then .goesOn (last + 4)
  else .goesOn last

/-- The variables of `fdt_path`. -/
structure PathState where
  last : Nat
  path : List UInt8
  depth : Nat
  intendedDepth : Nat

/-- A turn of `fdt_path`. -/
def pathTurn (m : Mem) (fuel : Nat) (s : PathState) : Turn PathState Nat :=
  let current := beToLe 32 m s.last
  if current = FDT_END then .returns 0
  else if current = FDT_BEGIN_NODE then
    let (c, tempName) := matchComponent m (s.last + 4) s.path
    if m c = 0 ∧ tempName = [] then .returns s.last
    else
      let matched := m c = 0 ∧ tempName.head? = some slash
      skipTo m fuel c fun last =>
        ⟨last, if matched then tempName.tail else s.path, s.depth + 1,
          if matched then s.intendedDepth + 1 else s.intendedDepth⟩
  else if current = FDT_END_NODE then
    if s.depth - 1 < s.intendedDepth then .returns 0
    else .goesOn { s with last := s.last + 4, depth := s.depth - 1 }
  else if current = FDT_PROP then
    .goesOn { s with last := floor4 (s.last + 12 + beToLe 32 m (s.last + 4) + 3) }
  else if current = FDT_NOP then .goesOn { s with last := s.last + 4 }
  else .goesOn s

/-- The variables of `fdt_get_property`. -/
structure PropertyState where
  node : Nat
  depth : Nat

/-- A turn of `fdt_get_property`. -/
def propertyTurn (m : Mem) (stringsBlock : Nat) (key : List UInt8) (fuel : Nat) (s : PropertyState) :
    Turn PropertyState FdtProperty :=
  let current := beToLe 32 m s.node
  if current = FDT_END then .returns .zero
  else if current = FDT_BEGIN_NODE then
    skipTo m fuel (s.node + 4) fun node => ⟨node, s.depth + 1⟩
  else if current = FDT_END_NODE then
    if s.depth - 1 = 0 then .returns .zero else .goesOn ⟨s.node + 4, s.depth - 1⟩
  else if current = FDT_PROP then
    let len := beToLe 32 m (s.node + 4)
    let nameOffset := beToLe 32 m (s.node + 8)
    if s.depth = 1 ∧ strcmp m (stringsBlock + nameOffset) key = 0 then
      .returns ⟨len, stringsBlock + nameOffset, s.node + 12⟩
    else .goesOn ⟨floor4 (s.node + 12 + len + 3), s.depth⟩
  else if current = FDT_NOP then .goesOn ⟨s.node + 4, s.depth⟩
  else .goesOn s

/-- A loop with fuel that takes these turns. -/
def Turn.run {σ ρ : Type} (loop : σ → Option ρ) : Turn σ ρ → Option ρ
  | .returns r => some r
  | .goesOn s => loop s
  | .runsOut => none

theorem skipTo_run {σ ρ : Type} (m : Mem) (fuel c : Nat) (next : Nat → σ) (loop : σ → Option ρ) :
    (skipTo m fuel c next).run loop =
      (skipString m fuel c).bind fun c => loop (next (floor4 (c + 3))) := by
  unfold skipTo
  cases skipString m fuel c with
  | none => rfl
  | some c => rfl

theorem findLoop_turn (m : Mem) (name : List UInt8) (fuel last : Nat) :
    findLoop m name (fuel + 1) last =
      (findTurn m name fuel last).run (findLoop m name fuel) := by
  rw [findLoop, findTurn]
  dsimp only
  split_ifs
  · rfl
  · rfl
  · rw [skipTo_run]
  · rfl
  · rfl
  · rfl
  · rfl

theorem pathLoop_turn (m : Mem) (fuel : Nat) (s : PathState) :
    pathLoop m (fuel + 1) s.last s.path s.depth s.intendedDepth =
      (pathTurn m fuel s).run fun s => pathLoop m fuel s.last s.path s.depth s.intendedDepth := by
  rw [pathLoop, pathTurn]
  dsimp only
  split_ifs
  · rfl
  · rfl
  · rw [skipTo_run]
  · rw [skipTo_run]
  · rfl
  · rfl
  · rfl
  · rfl
  · rfl

theorem getPropertyLoop_turn (m : Mem) (stringsBlock : Nat) (key : List UInt8) (fuel : Nat)
    (s : PropertyState) :
    getPropertyLoop m stringsBlock key (fuel + 1) s.node s.depth =
      (propertyTurn m stringsBlock key fuel s).run fun s =>
        getPropertyLoop m stringsBlock key fuel s.node s.depth := by
  rw [getPropertyLoop, propertyTurn]
  dsimp only
  split_ifs
  · rfl
  · rw [skipTo_run]
  · rfl
  · rfl
  · rfl
  · rfl
  · rfl
  · rfl

/-! ## 3. Where a turn moves the cursor -/

/-- A string that begins at `c` ends. -/
def Terminated (m : Mem) (c : Nat) : Prop := ∃ z, c ≤ z ∧ m z = 0

/-- There is a token at `p`, and a name in it ends. -/
def TokenAt (m : Mem) (p : Nat) : Prop :=
  beToLe 32 m p ∈ fdtNodeTypes ∧ (beToLe 32 m p = FDT_BEGIN_NODE → Terminated m (p + 4))

/-- `fdt_find` also gets by with a name that does not end, if it is the one looked for and an `@`
    comes behind it. -/
def FindTokenAt (m : Mem) (name : List UInt8) (p : Nat) : Prop :=
  TokenAt m p ∨ beToLe 32 m p = FDT_BEGIN_NODE ∧ (∀ b ∈ name, b ≠ 0 ∧ b ≠ atSign) ∧
    HoldsBytes m (p + 4) (name ++ [atSign])

section Moving

variable {m : Mem}

theorem skipString_terminated {fuel c c' : Nat} (h : skipString m fuel c = some c') :
    c < c' ∧ Terminated m c := by
  induction fuel generalizing c with
  | zero => cases h
  | succ fuel ih =>
    rw [skipString] at h
    by_cases hzero : m c = 0
    · rw [if_pos hzero] at h
      obtain rfl := Option.some.inj h
      exact ⟨Nat.lt_succ_self c, c, le_refl c, hzero⟩
    · rw [if_neg hzero] at h
      obtain ⟨hlt, z, hz, hm⟩ := ih h
      exact ⟨Nat.lt_of_succ_lt hlt, z, Nat.le_of_succ_le hz, hm⟩

theorem skipString_of_terminated {c : Nat} (h : Terminated m c) :
    ∃ fuel c', skipString m fuel c = some c' := by
  obtain ⟨z, hle, hz⟩ := h
  obtain ⟨n, rfl⟩ := Nat.exists_eq_add_of_le hle
  refine ⟨n + 1, ?_⟩
  clear hle
  induction n generalizing c with
  | zero => exact ⟨c + 1, if_pos hz⟩
  | succ n ih =>
    by_cases hzero : m c = 0
    · exact ⟨c + 1, if_pos hzero⟩
    · obtain ⟨c', hc'⟩ := ih (c := c + 1) (by rwa [Nat.add_assoc, Nat.add_comm 1 n])
      exact ⟨c', (if_neg hzero).trans hc'⟩

/-- A string is terminated if the rest of it is. -/
theorem terminated_iff {c c' : Nat} (hle : c ≤ c') (h : ∀ x, c ≤ x → x < c' → m x ≠ 0) :
    Terminated m c ↔ Terminated m c' := by
  constructor
  · rintro ⟨z, hz, hm⟩
    refine ⟨z, ?_, hm⟩
    by_contra hlt
    exact h z hz (Nat.lt_of_not_le hlt) hm
  · rintro ⟨z, hz, hm⟩
    exact ⟨z, Nat.le_trans hle hz, hm⟩

theorem matchName_passes (name : List UInt8) (c : Nat) :
    c ≤ (matchName m c name).1 ∧ ∀ x, c ≤ x → x < (matchName m c name).1 → m x ≠ 0 := by
  induction name generalizing c with
  | nil => exact ⟨le_refl c, fun x hle hlt => absurd hlt (Nat.not_lt.mpr hle)⟩
  | cons t name ih =>
    have hstay : c ≤ c ∧ ∀ x, c ≤ x → x < c → m x ≠ 0 :=
      ⟨le_refl c, fun x hle hlt => absurd hlt (Nat.not_lt.mpr hle)⟩
    rw [matchName]
    split_ifs with hgo hne
    · exact hstay
    · obtain ⟨hle, hpass⟩ := ih (c + 1)
      refine ⟨Nat.le_of_succ_le hle, fun x hx hlt => ?_⟩
      rcases Nat.eq_or_lt_of_le hx with rfl | hx
      · exact hgo.1
      · exact hpass x hx hlt
    · exact hstay

theorem matchComponent_passes (path : List UInt8) (c : Nat) :
    c ≤ (matchComponent m c path).1 ∧ ∀ x, c ≤ x → x < (matchComponent m c path).1 → m x ≠ 0 := by
  induction path generalizing c with
  | nil => exact ⟨le_refl c, fun x hle hlt => absurd hlt (Nat.not_lt.mpr hle)⟩
  | cons t path ih =>
    have hstay : c ≤ c ∧ ∀ x, c ≤ x → x < c → m x ≠ 0 :=
      ⟨le_refl c, fun x hle hlt => absurd hlt (Nat.not_lt.mpr hle)⟩
    rw [matchComponent]
    split_ifs with hgo hne
    · exact hstay
    · obtain ⟨hle, hpass⟩ := ih (c + 1)
      refine ⟨Nat.le_of_succ_le hle, fun x hx hlt => ?_⟩
      rcases Nat.eq_or_lt_of_le hx with rfl | hx
      · exact hgo.1
      · exact hpass x hx hlt
    · exact hstay

/-- The comparison gets to an `@` behind the whole name. -/
theorem matchName_at (name : List UInt8) (c : Nat) :
    m (matchName m c name).1 = atSign ∧ (matchName m c name).2 = [] ↔
      (∀ b ∈ name, b ≠ 0 ∧ b ≠ atSign) ∧ HoldsBytes m c (name ++ [atSign]) := by
  induction name generalizing c with
  | nil => simp [matchName, HoldsBytes]
  | cons t name ih =>
    rw [matchName, List.cons_append, HoldsBytes, List.forall_mem_cons]
    split_ifs with hgo hne
    · constructor
      · rintro ⟨_, hnil⟩
        cases hnil
      · rintro ⟨_, hsame, _⟩
        exact absurd hsame hne
    · have hsame : m c = t := not_not.mp hne
      rw [ih (c + 1), ← hsame]
      tauto
    · constructor
      · rintro ⟨_, hnil⟩
        cases hnil
      · rintro ⟨⟨ht, _⟩, hsame, _⟩
        rw [← hsame] at ht
        exact absurd ht hgo

theorem lt_floor4 {p c : Nat} (h : p + 1 < c) : p < floor4 (c + 3) := by
  rw [floor4]
  omega

section Skip

variable {σ ρ : Type} {cursor : σ → Nat} {s : σ} {turn : Nat → σ → Turn σ ρ} {c : Nat}
  {next : Nat → σ}

/-- A turn that skips the rest of a name moves the cursor if the name ends. -/
theorem moves_skipTo (hturn : ∀ fuel, turn fuel s = skipTo m fuel c next)
    (hcursor : ∀ p, cursor (next p) = p) (hc : cursor s < c) :
    Moves turn cursor s ↔ Terminated m c := by
  constructor
  · rintro ⟨fuel, hmove⟩
    cases hskip : skipString m fuel c with
    | none => simp [hturn, skipTo, hskip] at hmove
    | some c' => exact (skipString_terminated hskip).2
  · intro h
    obtain ⟨fuel, c', hskip⟩ := skipString_of_terminated h
    refine ⟨fuel, Or.inr ⟨next (floor4 (c' + 3)), ?_, ?_⟩⟩
    · rw [hturn, skipTo, hskip]
    · have hlt := (skipString_terminated hskip).1
      rw [hcursor]
      exact lt_floor4 (by omega)

/-- A turn that returns. -/
theorem moves_returns {r : ρ} (hturn : ∀ fuel, turn fuel s = .returns r) :
    Moves turn cursor s := ⟨0, Or.inl ⟨r, hturn 0⟩⟩

/-- A turn that goes on. -/
theorem moves_goesOn {t : σ} (hturn : ∀ fuel, turn fuel s = .goesOn t) :
    Moves turn cursor s ↔ cursor s < cursor t := by
  constructor
  · rintro ⟨fuel, ⟨r, hr⟩ | ⟨t', ht', hlt⟩⟩
    · rw [hturn] at hr
      cases hr
    · rw [hturn] at ht'
      rwa [Turn.goesOn.inj ht']
  · intro hlt
    exact ⟨0, Or.inr ⟨t, hturn 0, hlt⟩⟩

end Skip

/-! ## 4. The words a turn reads -/

theorem word_cases (w : Nat) : w = FDT_END ∨ w = FDT_BEGIN_NODE ∨ w = FDT_END_NODE ∨ w = FDT_PROP ∨
    w = FDT_NOP ∨ w ∉ fdtNodeTypes := by
  simp only [fdtNodeTypes, List.mem_cons, List.not_mem_nil, or_false, not_or]
  tauto

theorem not_mem_fdtNodeTypes {w : Nat} (h : w ∉ fdtNodeTypes) : w ≠ FDT_END ∧ w ≠ FDT_BEGIN_NODE ∧
    w ≠ FDT_END_NODE ∧ w ≠ FDT_PROP ∧ w ≠ FDT_NOP := by
  simp only [fdtNodeTypes, List.mem_cons, List.not_mem_nil, or_false, not_or] at h
  tauto

theorem tokenAt_begin {p : Nat} (h : beToLe 32 m p = FDT_BEGIN_NODE) :
    TokenAt m p ↔ Terminated m (p + 4) := by
  constructor
  · intro htoken
    exact htoken.2 h
  · intro hname
    exact ⟨by rw [h]; decide, fun _ => hname⟩

theorem tokenAt_other {p w : Nat} (h : beToLe 32 m p = w) (hw : w ∈ fdtNodeTypes)
    (hbegin : w ≠ FDT_BEGIN_NODE) : TokenAt m p := by
  rw [← h] at hw hbegin
  exact ⟨hw, fun heq => absurd heq hbegin⟩

theorem lt_afterProp (p len : Nat) : p < floor4 (p + 12 + len + 3) :=
  lt_floor4 (by omega)

/-- A turn at a word that is no token. -/
theorem spins {σ ρ : Type} {cursor : σ → Nat} {s : σ} {turn : Nat → σ → Turn σ ρ} {p : Nat}
    (hword : beToLe 32 m p ∉ fdtNodeTypes) (hturn : ∀ fuel, turn fuel s = .goesOn s) :
    Moves turn cursor s ↔ TokenAt m p := by
  rw [moves_goesOn hturn]
  exact iff_of_false (Nat.lt_irrefl _) fun h => hword h.1

theorem pathTurn_moves_iff (m : Mem) (s : PathState) :
    Moves (pathTurn m) PathState.last s ↔ TokenAt m s.last := by
  rcases word_cases (beToLe 32 m s.last) with h | h | h | h | h | h
  · refine iff_of_true (moves_returns (r := 0) fun fuel => ?_) (tokenAt_other h (by decide) (by decide))
    simp [pathTurn, h]
  · obtain ⟨hle, hpass⟩ := @matchComponent_passes m s.path (s.last + 4)
    rw [tokenAt_begin h, terminated_iff hle hpass]
    by_cases hmatch : m (matchComponent m (s.last + 4) s.path).1 = 0 ∧
        (matchComponent m (s.last + 4) s.path).2 = []
    · refine iff_of_true (moves_returns (r := s.last) fun fuel => ?_) ⟨_, le_refl _, hmatch.1⟩
      simp [pathTurn, h, FDT_BEGIN_NODE, FDT_END, hmatch]
    · apply moves_skipTo
      · intro fuel
        rw [pathTurn]
        dsimp only
        rw [h, if_neg (by decide), if_pos rfl, if_neg hmatch]
      · intro p
        rfl
      · omega
  · refine iff_of_true ?_ (tokenAt_other h (by decide) (by decide))
    by_cases hdepth : s.depth - 1 < s.intendedDepth
    · apply moves_returns (r := 0)
      intro fuel
      simp [pathTurn, h, FDT_END_NODE, FDT_BEGIN_NODE, FDT_END, hdepth]
    · refine (moves_goesOn (t := { s with last := s.last + 4, depth := s.depth - 1 })
        fun fuel => ?_).mpr (Nat.lt_add_of_pos_right (by decide))
      simp [pathTurn, h, FDT_END_NODE, FDT_BEGIN_NODE, FDT_END, hdepth]
  · refine iff_of_true ((moves_goesOn
      (t := { s with last := floor4 (s.last + 12 + beToLe 32 m (s.last + 4) + 3) })
      fun fuel => ?_).mpr (lt_afterProp s.last _)) (tokenAt_other h (by decide) (by decide))
    simp [pathTurn, h, FDT_PROP, FDT_END_NODE, FDT_BEGIN_NODE, FDT_END]
  · refine iff_of_true ((moves_goesOn (t := { s with last := s.last + 4 }) fun fuel => ?_).mpr
      (Nat.lt_add_of_pos_right (by decide))) (tokenAt_other h (by decide) (by decide))
    simp [pathTurn, h, FDT_NOP, FDT_PROP, FDT_END_NODE, FDT_BEGIN_NODE, FDT_END]
  · obtain ⟨hend, hbegin, hendNode, hprop, hnop⟩ := not_mem_fdtNodeTypes h
    apply spins h
    intro fuel
    simp [pathTurn, hend, hbegin, hendNode, hprop, hnop]

theorem findTurn_moves_iff (m : Mem) (name : List UInt8) (p : Nat) :
    Moves (findTurn m name) (fun last => last) p ↔ FindTokenAt m name p := by
  by_cases hbegin : beToLe 32 m p = FDT_BEGIN_NODE
  · obtain ⟨hle, hpass⟩ := @matchName_passes m name (p + 4)
    rw [FindTokenAt, tokenAt_begin hbegin, terminated_iff hle hpass, ← matchName_at]
    by_cases hmatch : (m (matchName m (p + 4) name).1 = 0 ∨ m (matchName m (p + 4) name).1 = atSign) ∧
        (matchName m (p + 4) name).2 = []
    · apply iff_of_true
      · apply moves_returns (r := p)
        intro fuel
        simp [findTurn, hbegin, FDT_BEGIN_NODE, FDT_END, hmatch]
      · obtain ⟨hzero | hsign, hnil⟩ := hmatch
        · exact Or.inl ⟨_, le_refl _, hzero⟩
        · exact Or.inr ⟨hbegin, hsign, hnil⟩
    · have hturn : ∀ fuel, findTurn m name fuel p =
          skipTo m fuel (matchName m (p + 4) name).1 fun last => last := by
        intro fuel
        rw [findTurn]
        dsimp only
        rw [hbegin, if_neg (by decide), if_pos rfl, if_neg hmatch]
      rw [moves_skipTo hturn (fun _ => rfl) (by omega)]
      constructor
      · exact Or.inl
      · rintro (h | ⟨_, hsign, hnil⟩)
        · exact h
        · exact absurd ⟨Or.inr hsign, hnil⟩ hmatch
  · have hfind : FindTokenAt m name p ↔ TokenAt m p := by
      constructor
      · rintro (h | ⟨h, _⟩)
        · exact h
        · exact absurd h hbegin
      · exact Or.inl
    rw [hfind]
    rcases word_cases (beToLe 32 m p) with h | h | h | h | h | h
    · refine iff_of_true (moves_returns (r := 0) fun fuel => ?_) (tokenAt_other h (by decide) (by decide))
      simp [findTurn, h]
    · exact absurd h hbegin
    · refine iff_of_true ((moves_goesOn (t := p + 4) fun fuel => ?_).mpr
        (Nat.lt_add_of_pos_right (by decide))) (tokenAt_other h (by decide) (by decide))
      simp [findTurn, h, FDT_END_NODE, FDT_BEGIN_NODE, FDT_END]
    · refine iff_of_true ((moves_goesOn fun fuel => ?_).mpr (lt_afterProp p (beToLe 32 m (p + 4))))
        (tokenAt_other h (by decide) (by decide))
      simp [findTurn, h, FDT_PROP, FDT_END_NODE, FDT_BEGIN_NODE, FDT_END]
    · refine iff_of_true ((moves_goesOn (t := p + 4) fun fuel => ?_).mpr
        (Nat.lt_add_of_pos_right (by decide))) (tokenAt_other h (by decide) (by decide))
      simp [findTurn, h, FDT_NOP, FDT_PROP, FDT_END_NODE, FDT_BEGIN_NODE, FDT_END]
    · obtain ⟨hend, _, hendNode, hprop, hnop⟩ := not_mem_fdtNodeTypes h
      apply spins h
      intro fuel
      simp [findTurn, hend, hbegin, hendNode, hprop, hnop]

theorem propertyTurn_moves_iff (m : Mem) (stringsBlock : Nat) (key : List UInt8) (s : PropertyState) :
    Moves (propertyTurn m stringsBlock key) PropertyState.node s ↔ TokenAt m s.node := by
  rcases word_cases (beToLe 32 m s.node) with h | h | h | h | h | h
  · refine iff_of_true (moves_returns (r := .zero) fun fuel => ?_)
      (tokenAt_other h (by decide) (by decide))
    simp [propertyTurn, h]
  · rw [tokenAt_begin h]
    apply moves_skipTo
    · intro fuel
      rw [propertyTurn]
      dsimp only
      rw [h, if_neg (by decide), if_pos rfl]
    · intro p
      rfl
    · omega
  · refine iff_of_true ?_ (tokenAt_other h (by decide) (by decide))
    by_cases hdepth : s.depth - 1 = 0
    · apply moves_returns (r := .zero)
      intro fuel
      simp [propertyTurn, h, FDT_END_NODE, FDT_BEGIN_NODE, FDT_END, hdepth]
    · refine (moves_goesOn (t := ⟨s.node + 4, s.depth - 1⟩) fun fuel => ?_).mpr
        (Nat.lt_add_of_pos_right (by decide))
      simp [propertyTurn, h, FDT_END_NODE, FDT_BEGIN_NODE, FDT_END, hdepth]
  · refine iff_of_true ?_ (tokenAt_other h (by decide) (by decide))
    by_cases hfound : s.depth = 1 ∧ strcmp m (stringsBlock + beToLe 32 m (s.node + 8)) key = 0
    · apply moves_returns
      intro fuel
      rw [propertyTurn]
      dsimp only
      rw [h, if_neg (by decide), if_neg (by decide), if_neg (by decide), if_pos rfl, if_pos hfound]
    · refine (moves_goesOn
        (t := ⟨floor4 (s.node + 12 + beToLe 32 m (s.node + 4) + 3), s.depth⟩)
        fun fuel => ?_).mpr (lt_afterProp s.node _)
      rw [propertyTurn]
      dsimp only
      rw [h, if_neg (by decide), if_neg (by decide), if_neg (by decide), if_pos rfl, if_neg hfound]
  · refine iff_of_true ((moves_goesOn (t := ⟨s.node + 4, s.depth⟩) fun fuel => ?_).mpr
      (Nat.lt_add_of_pos_right (by decide))) (tokenAt_other h (by decide) (by decide))
    simp [propertyTurn, h, FDT_NOP, FDT_PROP, FDT_END_NODE, FDT_BEGIN_NODE, FDT_END]
  · obtain ⟨hend, hbegin, hendNode, hprop, hnop⟩ := not_mem_fdtNodeTypes h
    apply spins h
    intro fuel
    simp [propertyTurn, hend, hbegin, hendNode, hprop, hnop]

/-- Before an `FDT_END` every name ends. -/
theorem terminated_of_end {p e : Nat} (he : beToLe 32 m e = FDT_END) (hp : p ≤ e) :
    Terminated m p := by
  by_contra h
  have hfirst : m e ≠ 0 := fun hzero => h ⟨e, hp, hzero⟩
  have hbytes : beToLe 32 m e = (((0 ||| (m (e + 0)).toNat <<< 24) ||| (m (e + 1)).toNat <<< 16) |||
    (m (e + 2)).toNat <<< 8) ||| (m (e + 3)).toNat <<< 0 := rfl
  have hpos : 1 ≤ (m e).toNat :=
    Nat.pos_of_ne_zero fun hzero => hfirst (UInt8.toNat_inj.mp hzero)
  have hlarge : 2 ^ 24 ≤ beToLe 32 m e := by
    rw [hbytes, Nat.zero_or, Nat.add_zero]
    refine le_trans ?_ (Nat.left_le_or.trans (Nat.left_le_or.trans Nat.left_le_or))
    rw [Nat.shiftLeft_eq]
    omega
  rw [he] at hlarge
  exact absurd hlarge (by decide)

/-- Before an `FDT_END` a known word is all that is needed. -/
theorem tokenAt_before_end {p e : Nat} (he : beToLe 32 m e = FDT_END) (hp : p + 4 ≤ e) :
    TokenAt m p ↔ beToLe 32 m p ∈ fdtNodeTypes := by
  constructor
  · exact And.left
  · intro h
    exact ⟨h, fun _ => terminated_of_end he hp⟩

end Moving

/-! ## 5. Whole runs -/

/-- **When the walkers make progress**: every cursor a loop comes to is at a token, and a name in
    it ends. -/
theorem fdt_walkers_progress_iff (m : Mem) :
    (∀ name start, Progresses (findTurn m name) (fun last => last) start ↔
      ∀ last, Comes (findTurn m name) start last → FindTokenAt m name last) ∧
    (∀ start, Progresses (pathTurn m) PathState.last start ↔
      ∀ s, Comes (pathTurn m) start s → TokenAt m s.last) ∧
    ∀ stringsBlock key start,
      Progresses (propertyTurn m stringsBlock key) PropertyState.node start ↔
        ∀ s, Comes (propertyTurn m stringsBlock key) start s → TokenAt m s.node := by
  refine ⟨?_, ?_, ?_⟩
  · intro name start
    exact progresses_iff (findTurn_moves_iff m name) start
  · intro start
    exact progresses_iff (pathTurn_moves_iff m) start
  · intro stringsBlock key start
    exact progresses_iff (propertyTurn_moves_iff m stringsBlock key) start

/-! ## 6. A word that is no token -/

/-- A loop that comes in one turn to a state where it stays. -/
theorem spins_after {σ ρ : Type} {turn : Nat → σ → Turn σ ρ} {cursor : σ → Nat}
    {loop : Nat → σ → Option ρ} {s t : σ} (hzero : ∀ s, loop 0 s = none)
    (hloop : ∀ fuel s, loop (fuel + 1) s = (turn fuel s).run (loop fuel))
    (hfirst : turn 0 s = .runsOut) (hturn : ∀ fuel, turn (fuel + 1) s = .goesOn t)
    (hspin : ∀ fuel, turn fuel t = .goesOn t) :
    ¬ Progresses turn cursor s ∧ ∀ fuel, loop fuel s = none := by
  have hstay : ∀ fuel, loop fuel t = none := by
    intro fuel
    induction fuel with
    | zero => exact hzero t
    | succ fuel ih =>
      rw [hloop, hspin]
      exact ih
  constructor
  · intro hall
    have hmove := (moves_goesOn hspin).mp (hall t (.next .start (hturn 0)))
    exact Nat.lt_irrefl _ hmove
  · intro fuel
    cases fuel with
    | zero => exact hzero s
    | succ fuel =>
      rw [hloop]
      cases fuel with
      | zero =>
        rw [hfirst]
        rfl
      | succ fuel =>
        rw [hturn]
        exact hstay _

/-- A block at address 64: the beginning of the root, the word 5, and `FDT_END`. -/
def spinMem : Mem :=
  ofBytes 64 (be32Bytes FDT_BEGIN_NODE ++ be32Bytes 0 ++ be32Bytes 5 ++ be32Bytes FDT_END)

/-- None of the three loops gets to the `FDT_END` of this block, or returns. -/
theorem fdt_walkers_spin :
    beToLe 32 spinMem 76 = FDT_END ∧
    (¬ Progresses (findTurn spinMem [97]) (fun last => last) 64 ∧
      ∀ fuel, fdtFind fuel spinMem 64 [97] 0 = none) ∧
    (¬ Progresses (pathTurn spinMem) PathState.last ⟨64, [97], 1, 1⟩ ∧
      ∀ fuel, fdtPath fuel spinMem 64 [slash, 97] 0 = none) ∧
    (¬ Progresses (propertyTurn spinMem 1024 [97]) PropertyState.node ⟨64, 0⟩ ∧
      ∀ fuel, fdtGetProperty fuel spinMem 64 1024 0 [97] = none) := by
  have hbegin : beToLe 32 spinMem 64 = FDT_BEGIN_NODE := by decide +kernel
  have hword : beToLe 32 spinMem 72 = 5 := by decide +kernel
  have hname : spinMem 68 = 0 := by decide +kernel
  have hskip : ∀ fuel, skipString spinMem (fuel + 1) 68 = some 69 := fun fuel => if_pos hname
  refine ⟨by decide +kernel, ?_, ?_, ?_⟩
  · apply @spins_after Nat Nat (findTurn spinMem [97]) (fun last => last) (findLoop spinMem [97]) 64 72
    · intro s
      rfl
    · exact findLoop_turn spinMem [97]
    · simp [findTurn, hbegin, FDT_BEGIN_NODE, FDT_END, matchName, hname, skipTo, skipString]
    · intro fuel
      simp [findTurn, hbegin, FDT_BEGIN_NODE, FDT_END, matchName, hname, skipTo, hskip, floor4]
    · intro fuel
      simp [findTurn, hword, FDT_BEGIN_NODE, FDT_END_NODE, FDT_PROP, FDT_NOP, FDT_END]
  · apply @spins_after PathState Nat (pathTurn spinMem) PathState.last
      (fun fuel s => pathLoop spinMem fuel s.last s.path s.depth s.intendedDepth) ⟨64, [97], 1, 1⟩
      ⟨72, [97], 2, 1⟩
    · intro s
      rfl
    · exact pathLoop_turn spinMem
    · simp [pathTurn, hbegin, FDT_BEGIN_NODE, FDT_END, matchComponent, hname, skipTo, skipString]
    · intro fuel
      simp [pathTurn, hbegin, FDT_BEGIN_NODE, FDT_END, matchComponent, hname, skipTo, hskip, floor4,
        slash]
    · intro fuel
      simp [pathTurn, hword, FDT_BEGIN_NODE, FDT_END_NODE, FDT_PROP, FDT_NOP, FDT_END]
  · have hcall : ∀ fuel, fdtGetProperty fuel spinMem 64 1024 0 [97] =
        getPropertyLoop spinMem 1024 [97] fuel 64 0 := by
      intro fuel
      simp [fdtGetProperty, hbegin]
    simp only [hcall]
    apply @spins_after PropertyState FdtProperty (propertyTurn spinMem 1024 [97]) PropertyState.node
      (fun fuel s => getPropertyLoop spinMem 1024 [97] fuel s.node s.depth) ⟨64, 0⟩ ⟨72, 1⟩
    · intro s
      rfl
    · exact getPropertyLoop_turn spinMem 1024 [97]
    · simp [propertyTurn, hbegin, FDT_BEGIN_NODE, FDT_END, skipTo, skipString]
    · intro fuel
      simp [propertyTurn, hbegin, FDT_BEGIN_NODE, FDT_END, skipTo, hskip, floor4]
    · intro fuel
      simp [propertyTurn, hword, FDT_BEGIN_NODE, FDT_END_NODE, FDT_PROP, FDT_NOP, FDT_END]

end IloPali
