import IloPali.Fat16
import Mathlib.Order.Basic
import Mathlib.Data.Nat.Find

/-!
# The search in the root directory (`find_file_in_root_directory`)

The search looks at one entry after the other and skips the entry behind a long-name entry that
differs.  The entries it looks at do not depend on the name: they are `position 0`, `position 1`
and so on, up to the first one whose comparison does not fail.
-/

namespace IloPali

/-! ## 1. Comparing -/

/-- The entry has the attributes of a long-name entry. -/
def IsLong (k : Kernel) (fs : Fat16Fs) (i : Nat) : Prop :=
  k.attributes (fs.rootDir + 32 * i) &&& ATTR_LONG_NAME = ATTR_LONG_NAME

instance (k : Kernel) (fs : Fat16Fs) (i : Nat) : Decidable (IsLong k fs i) := by
  unfold IsLong
  infer_instance

/-- The comparison that starts at entry `i` succeeds. -/
def Catches (k : Kernel) (fs : Fat16Fs) (name : List UInt8) (i : Nat) : Prop :=
  longNameEquals k fs (name.length + 1) i name = some true

theorem nameUnits_length (k : Kernel) (entry : Nat) : (k.nameUnits entry).length = 13 := by
  simp [Kernel.nameUnits]

/-- A comparison that goes on has used one character for each unit. -/
theorem matchUnits_goesOn {units : List Nat} {name rest : List UInt8}
    (h : matchUnits units name = .goesOn rest) : rest.length + units.length = name.length := by
  induction units generalizing name with
  | nil =>
    obtain rfl := NameMatch.goesOn.inj h
    rfl
  | cons u units ih =>
    rw [matchUnits] at h
    split at h
    · cases h
    · split at h
      · cases h
      · rename_i hne
        cases name with
        | nil => exact absurd rfl hne
        | cons c name =>
          have hlen := ih h
          simp only [List.tail_cons] at hlen
          simp only [List.length_cons]
          omega

/-- The comparison ends within one round for each thirteen characters. -/
theorem longNameEquals_ends (k : Kernel) (fs : Fat16Fs) {fuel j : Nat} {name : List UInt8}
    (h : name.length < fuel) : ∃ b, longNameEquals k fs fuel j name = some b := by
  induction fuel generalizing j name with
  | zero => exact absurd h (Nat.not_lt_zero _)
  | succ fuel ih =>
    rw [longNameEquals]
    cases hmatch : matchUnits (k.nameUnits (fs.rootDir + 32 * j)) name with
    | differs => exact ⟨false, rfl⟩
    | ends => exact ⟨true, rfl⟩
    | goesOn rest =>
      have hlen := matchUnits_goesOn hmatch
      rw [nameUnits_length] at hlen
      dsimp only
      split
      · exact ⟨true, rfl⟩
      · exact ih (by omega)

theorem longNameEquals_of_not_catches {k : Kernel} {fs : Fat16Fs} {name : List UInt8} {i : Nat}
    (h : ¬ Catches k fs name i) : longNameEquals k fs (name.length + 1) i name = some false := by
  obtain ⟨b, hb⟩ := longNameEquals_ends k fs (j := i) (Nat.lt_succ_self name.length)
  cases b with
  | true => exact absurd hb h
  | false => exact hb

/-! ## 2. Searching -/

section Search

variable (k : Kernel) (fs : Fat16Fs) (name : List UInt8)

/-- From entry `i` the search gets to entry `i'` in `c` rounds. -/
def Advances (c i i' : Nat) : Prop :=
  ∀ fuel, searchLoop k fs name (fuel + c) i = searchLoop k fs name fuel i'

variable {k fs name}

theorem Advances.refl (i : Nat) : Advances k fs name 0 i i := fun _ => rfl

theorem Advances.trans {c c' i i' i'' : Nat} (h : Advances k fs name c i i')
    (h' : Advances k fs name c' i' i'') : Advances k fs name (c + c') i i'' := by
  intro fuel
  rw [← h' fuel, ← h (fuel + c'), Nat.add_comm c c', Nat.add_assoc]

theorem advances_short {i : Nat} (hi : i < fs.rootEntryCount) (hshort : ¬ IsLong k fs i) :
    Advances k fs name 1 i ((i + 1) % 2 ^ 16) := by
  intro fuel
  rw [searchLoop, if_pos hi]
  exact if_neg hshort

theorem advances_missed {i : Nat} (hi : i < fs.rootEntryCount) (hlong : IsLong k fs i)
    (hmiss : ¬ Catches k fs name i) : Advances k fs name 1 i ((i + 2) % 2 ^ 16) := by
  intro fuel
  rw [searchLoop, if_pos hi]
  refine (if_pos hlong).trans ?_
  rw [longNameEquals_of_not_catches hmiss]
  dsimp only
  rw [show ((i + 1) % 2 ^ 16 + 1) % 2 ^ 16 = (i + 2) % 2 ^ 16 by omega]

theorem searchLoop_caught {i : Nat} (hi : i < fs.rootEntryCount) (hlong : IsLong k fs i)
    (hcatch : Catches k fs name i) (fuel : Nat) :
    searchLoop k fs name (fuel + 1) i = some (fs.rootDir + 32 * (i + 1)) := by
  rw [searchLoop, if_pos hi]
  refine (if_pos hlong).trans ?_
  rw [hcatch]

theorem searchLoop_end {i : Nat} (hi : fs.rootEntryCount ≤ i) (fuel : Nat) :
    searchLoop k fs name (fuel + 1) i = some 0 := by
  rw [searchLoop, if_neg (Nat.not_lt.mpr hi)]

/-- More steps change nothing. -/
theorem searchLoop_mono {fuel i p : Nat} (h : searchLoop k fs name fuel i = some p) (d : Nat) :
    searchLoop k fs name (fuel + d) i = some p := by
  induction fuel generalizing i with
  | zero => cases h
  | succ fuel ih =>
    rw [Nat.succ_add]
    rw [searchLoop] at h ⊢
    split at h
    · rename_i hi
      rw [if_pos hi]
      split at h
      · rename_i hattr
        rw [if_pos hattr]
        cases hname : longNameEquals k fs (name.length + 1) i name with
        | none =>
          rw [hname] at h
          cases h
        | some equals =>
          rw [hname] at h
          cases equals with
          | true => exact h
          | false => exact ih h
      · rename_i hattr
        rw [if_neg hattr]
        exact ih h
    · rename_i hi
      rwa [if_neg hi]

theorem searchLoop_unique {fuel fuel' i p p' : Nat} (h : searchLoop k fs name fuel i = some p)
    (h' : searchLoop k fs name fuel' i = some p') : p = p' := by
  have h1 := searchLoop_mono h fuel'
  have h2 := searchLoop_mono h' fuel
  rw [Nat.add_comm, h1] at h2
  exact Option.some.inj h2

/-- A search that comes back to an entry never ends. -/
theorem Advances.never {c i : Nat} (h : Advances k fs name (c + 1) i i) (fuel : Nat) :
    searchLoop k fs name fuel i = none := by
  cases hcase : searchLoop k fs name fuel i with
  | none => rfl
  | some p =>
    -- all multiples of the way round end where no step is left
    have hround : ∀ n, searchLoop k fs name (n * (c + 1)) i = none := by
      intro n
      induction n with
      | zero => rw [Nat.zero_mul, searchLoop]
      | succ n ih => rw [Nat.succ_mul, h, ih]
    have hlong := searchLoop_mono hcase (fuel * c)
    rw [show fuel + fuel * c = fuel * (c + 1) by rw [Nat.mul_succ, Nat.add_comm], hround] at hlong
    cases hlong

/-! ## 3. The entries the search looks at -/

variable (k fs)

/-- The `n`-th entry the search looks at, if no comparison succeeds before. -/
def position : Nat → Nat
  | 0 => 0
  | n + 1 => if IsLong k fs (position n) then position n + 2 else position n + 1

variable {k fs}

theorem position_lt_succ (n : Nat) :
    position k fs n < position k fs (n + 1) ∧ position k fs (n + 1) ≤ position k fs n + 2 := by
  rw [position]
  split
  · omega
  · omega

theorem position_mono {m n : Nat} (h : m ≤ n) : position k fs m ≤ position k fs n := by
  induction h with
  | refl => exact le_refl _
  | step _ ih => exact Nat.le_trans ih (Nat.le_of_lt (position_lt_succ _).1)

theorem position_lt {m n : Nat} (h : m < n) : position k fs m < position k fs n :=
  Nat.lt_of_lt_of_le (position_lt_succ m).1 (position_mono h)

theorem le_position (n : Nat) : n ≤ position k fs n := by
  induction n with
  | zero => exact Nat.zero_le _
  | succ n ih => exact Nat.lt_of_le_of_lt ih (position_lt_succ n).1

/-- The step from one position to the next. -/
theorem advances_succ {n : Nat} (hn : position k fs n < fs.rootEntryCount)
    (hmiss : IsLong k fs (position k fs n) → ¬ Catches k fs name (position k fs n)) :
    Advances k fs name 1 (position k fs n) (position k fs (n + 1) % 2 ^ 16) := by
  rw [position]
  split
  · rename_i hlong
    exact advances_missed hn hlong (hmiss hlong)
  · rename_i hshort
    exact advances_short hn hshort

theorem advances_position {n : Nat} (hlt : position k fs n < 2 ^ 16)
    (hbefore : ∀ m, m < n → position k fs m < fs.rootEntryCount ∧
      (IsLong k fs (position k fs m) → ¬ Catches k fs name (position k fs m))) :
    Advances k fs name n 0 (position k fs n) := by
  induction n with
  | zero => exact .refl 0
  | succ n ih =>
    have hstep := advances_succ (hbefore n (Nat.lt_succ_self n)).1 (hbefore n (Nat.lt_succ_self n)).2
    rw [Nat.mod_eq_of_lt hlt] at hstep
    have hn := (@position_lt_succ k fs n).1
    exact (ih (by omega) fun m hm => hbefore m (Nat.lt_succ_of_lt hm)).trans hstep

/-- The search returns the entry behind the first one that is caught. -/
theorem find_caught (hrec : fs.rootEntryCount < 2 ^ 16) {n : Nat}
    (hn : position k fs n < fs.rootEntryCount) (hlong : IsLong k fs (position k fs n))
    (hcatch : Catches k fs name (position k fs n))
    (hbefore : ∀ m, m < n → IsLong k fs (position k fs m) → ¬ Catches k fs name (position k fs m))
    (fuel : Nat) : findFileInRootDirectory k fs name (fuel + 1 + n) =
      some (fs.rootDir + 32 * (position k fs n + 1)) := by
  have hrun := @advances_position k fs name n (by omega)
    fun m hm => ⟨Nat.lt_trans (position_lt hm) hn, hbefore m hm⟩
  exact (hrun (fuel + 1)).trans (searchLoop_caught hn hlong hcatch fuel)

/-- A search that catches nothing and gets behind the directory returns `NULL`. -/
theorem find_null (hrec : fs.rootEntryCount < 2 ^ 16)
    (hall : ∀ n, position k fs n < fs.rootEntryCount → IsLong k fs (position k fs n) →
      ¬ Catches k fs name (position k fs n))
    (hwrap : ∀ n, position k fs n = 65534 → IsLong k fs 65534 → fs.rootEntryCount ≤ 65534) :
    ∃ n, (∀ m, m < n → position k fs m < fs.rootEntryCount) ∧
      fs.rootEntryCount ≤ position k fs n ∧ position k fs n < 2 ^ 16 ∧
      ∀ fuel, findFileInRootDirectory k fs name (fuel + 1 + n) = some 0 := by
  have hend : ∃ n, fs.rootEntryCount ≤ position k fs n := ⟨_, le_position fs.rootEntryCount⟩
  have hbefore : ∀ m, m < Nat.find hend → position k fs m < fs.rootEntryCount :=
    fun m hm => Nat.not_le.mp (Nat.find_min hend hm)
  have hlt : position k fs (Nat.find hend) < 2 ^ 16 := by
    cases hcase : Nat.find hend with
    | zero => exact Nat.two_pow_pos 16
    | succ n =>
      have hn := hbefore n (by omega)
      have hle := (@position_lt_succ k fs n).2
      by_contra hbig
      have h65534 : position k fs n = 65534 := by omega
      have hlong : IsLong k fs 65534 := by
        by_contra hshort
        rw [position, h65534, if_neg hshort] at hbig
        omega
      have := hwrap n h65534 hlong
      omega
  refine ⟨Nat.find hend, hbefore, Nat.find_spec hend, hlt, fun fuel => ?_⟩
  have hrun := @advances_position k fs name (Nat.find hend) hlt
    fun m hm => ⟨hbefore m hm, hall m (hbefore m hm)⟩
  exact (hrun (fuel + 1)).trans (searchLoop_end (Nat.find_spec hend) fuel)

/-- A search that catches nothing and steps from entry 65534 to entry 0 never ends. -/
theorem find_never (hrec : fs.rootEntryCount < 2 ^ 16)
    (hall : ∀ n, position k fs n < fs.rootEntryCount → IsLong k fs (position k fs n) →
      ¬ Catches k fs name (position k fs n))
    {n : Nat} (hn : position k fs n = 65534) (hlong : IsLong k fs 65534)
    (hfull : 65534 < fs.rootEntryCount) (fuel : Nat) :
    findFileInRootDirectory k fs name fuel = none := by
  have hmissed : ∀ m, m < n + 1 → position k fs m < fs.rootEntryCount ∧
      (IsLong k fs (position k fs m) → ¬ Catches k fs name (position k fs m)) := by
    intro m hm
    have hle : position k fs m ≤ position k fs n := position_mono (Nat.le_of_lt_succ hm)
    exact ⟨by omega, hall m (by omega)⟩
  have hback : Advances k fs name (n + 1) 0 0 := by
    have hstep := advances_succ (hmissed n (Nat.lt_succ_self n)).1 (hmissed n (Nat.lt_succ_self n)).2
    have hnext : position k fs (n + 1) % 2 ^ 16 = 0 := by
      rw [position, hn, if_pos hlong]
      decide
    rw [hnext] at hstep
    exact (advances_position (by omega) fun m hm => hmissed m (Nat.lt_succ_of_lt hm)).trans hstep
  exact hback.never fuel

end Search

/-! ## 4. Staying inside the directory -/

/-- The comparison that starts at entry `i` gets to entry `j`, with the given rest of the name. -/
inductive Compares (k : Kernel) (fs : Fat16Fs) (name : List UInt8) (i : Nat) :
    Nat → List UInt8 → Prop
  | start : Compares k fs name i i name
  | next {j : Nat} {rest rest' : List UInt8} (h : Compares k fs name i j rest)
      (hmatch : matchUnits (k.nameUnits (fs.rootDir + 32 * j)) rest = .goesOn rest')
      (horder : k.order (fs.rootDir + 32 * j) &&& 0x40 = 0) :
      Compares k fs name i ((j + 1) % 2 ^ 16) rest'

/-- The search gets to entry `i`. -/
inductive LooksAt (k : Kernel) (fs : Fat16Fs) (name : List UInt8) : Nat → Prop
  | start : LooksAt k fs name 0
  | short {i : Nat} (h : LooksAt k fs name i) (hi : i < fs.rootEntryCount)
      (hshort : ¬ IsLong k fs i) : LooksAt k fs name ((i + 1) % 2 ^ 16)
  | missed {i : Nat} (h : LooksAt k fs name i) (hi : i < fs.rootEntryCount)
      (hlong : IsLong k fs i) (hmiss : ¬ Catches k fs name i) : LooksAt k fs name ((i + 2) % 2 ^ 16)

/-- Entry `j` is read. -/
def ReadsEntry (k : Kernel) (fs : Fat16Fs) (name : List UInt8) (j : Nat) : Prop :=
  (LooksAt k fs name j ∧ j < fs.rootEntryCount) ∨
  ∃ i rest, LooksAt k fs name i ∧ i < fs.rootEntryCount ∧ IsLong k fs i ∧ Compares k fs name i j rest

/-- The search ends, reads entries of the directory only, and returns one of them or `NULL`. -/
structure SearchBounded (k : Kernel) (fs : Fat16Fs) (name : List UInt8) : Prop where
  ends : ∃ fuel p, findFileInRootDirectory k fs name fuel = some p
  reads : ∀ j, ReadsEntry k fs name j → j < fs.rootEntryCount
  returned : ∀ fuel p, findFileInRootDirectory k fs name fuel = some p →
    p = 0 ∨ ∃ i, i < fs.rootEntryCount ∧ p = fs.rootDir + 32 * i

/-- The comparison from entry `j` on, over the `n` entries that are left in the directory; `none`
    where it would go on behind them. -/
def compareInside (k : Kernel) (fs : Fat16Fs) : Nat → Nat → List UInt8 → Option Bool
  | 0, _, _ => none
  | n + 1, j, name =>
    match matchUnits (k.nameUnits (fs.rootDir + 32 * j)) name with
    | .differs => some false
    | .ends => some true
    | .goesOn name =>
      if k.order (fs.rootDir + 32 * j) &&& 0x40 ≠ 0 then some true
      else compareInside k fs n (j + 1) name

/-- A long-name entry whose comparison does not fail inside the directory. -/
def Undecided (k : Kernel) (fs : Fat16Fs) (name : List UInt8) (i : Nat) : Prop :=
  IsLong k fs i ∧ compareInside k fs (fs.rootEntryCount - i) i name ≠ some false

/-- The first comparison that does not fail ends inside the directory and not in its last entry;
    and if all fail, the search does not skip from the entry before the last of 65535 to entry 0. -/
structure StaysInside (k : Kernel) (fs : Fat16Fs) (name : List UInt8) : Prop where
  first : ∀ n, position k fs n < fs.rootEntryCount → Undecided k fs name (position k fs n) →
    (∀ m, m < n → ¬ Undecided k fs name (position k fs m)) →
    compareInside k fs (fs.rootEntryCount - position k fs n) (position k fs n) name = some true ∧
      position k fs n + 1 < fs.rootEntryCount
  wrap : (∀ n, position k fs n < fs.rootEntryCount → ¬ Undecided k fs name (position k fs n)) →
    ∀ n, position k fs n = 65534 → IsLong k fs 65534 → fs.rootEntryCount ≤ 65534

section Bounded

variable {k : Kernel} {fs : Fat16Fs} {name : List UInt8}

/-- A comparison that ends inside the directory is the one that the search makes. -/
theorem longNameEquals_of_inside {n j fuel : Nat} {name : List UInt8} {b : Bool}
    (h : compareInside k fs n j name = some b) (hj : j + n < 2 ^ 16) (hfuel : name.length < fuel) :
    longNameEquals k fs fuel j name = some b := by
  induction n generalizing j fuel name with
  | zero => cases h
  | succ n ih =>
    obtain ⟨fuel, rfl⟩ : ∃ f, fuel = f + 1 := Nat.exists_eq_succ_of_ne_zero (by omega)
    rw [compareInside] at h
    rw [longNameEquals]
    cases hmatch : matchUnits (k.nameUnits (fs.rootDir + 32 * j)) name with
    | differs =>
      rw [hmatch] at h
      exact h
    | ends =>
      rw [hmatch] at h
      exact h
    | goesOn rest =>
      have hlen := matchUnits_goesOn hmatch
      rw [nameUnits_length] at hlen
      rw [hmatch] at h
      dsimp only at h ⊢
      split at h
      · rename_i horder
        rw [if_pos horder]
        exact h
      · rename_i horder
        rw [if_neg horder, Nat.mod_eq_of_lt (by omega)]
        exact ih h (by omega) (by omega)

/-- A comparison that does not end inside the directory reads the entry behind it. -/
theorem Compares.runs_off {n i j : Nat} {rest : List UInt8} (h : Compares k fs name i j rest)
    (hnone : compareInside k fs n j rest = none) (hj : j + n < 2 ^ 16) :
    ∃ rest', Compares k fs name i (j + n) rest' := by
  induction n generalizing j rest with
  | zero => exact ⟨rest, h⟩
  | succ n ih =>
    rw [compareInside] at hnone
    cases hmatch : matchUnits (k.nameUnits (fs.rootDir + 32 * j)) rest with
    | differs =>
      rw [hmatch] at hnone
      cases hnone
    | ends =>
      rw [hmatch] at hnone
      cases hnone
    | goesOn rest' =>
      rw [hmatch] at hnone
      dsimp only at hnone
      split at hnone
      · cases hnone
      · rename_i horder
        have hnext := h.next hmatch (Decidable.not_not.mp horder)
        rw [Nat.mod_eq_of_lt (by omega)] at hnext
        obtain ⟨rest'', hend⟩ := ih hnext hnone (by omega)
        exact ⟨rest'', by rwa [show j + (n + 1) = j + 1 + n by omega]⟩

/-- A comparison that ends inside the directory reads only what is in it. -/
theorem Compares.inside (hrec : fs.rootEntryCount < 2 ^ 16) {i j : Nat} {rest : List UInt8} {b : Bool}
    (hin : compareInside k fs (fs.rootEntryCount - i) i name = some b)
    (h : Compares k fs name i j rest) :
    j < fs.rootEntryCount ∧ compareInside k fs (fs.rootEntryCount - j) j rest = some b := by
  have hlt : ∀ {j : Nat} {rest : List UInt8},
      compareInside k fs (fs.rootEntryCount - j) j rest = some b → j < fs.rootEntryCount := by
    intro j rest hsome
    by_contra hle
    rw [Nat.sub_eq_zero_of_le (Nat.not_lt.mp hle), compareInside] at hsome
    cases hsome
  induction h with
  | start => exact ⟨hlt hin, hin⟩
  | @next j rest rest' _ hmatch horder ih =>
    obtain ⟨hj, hsome⟩ := ih
    obtain ⟨n, hn⟩ : ∃ n, fs.rootEntryCount - j = n + 1 :=
      Nat.exists_eq_succ_of_ne_zero (by omega)
    rw [hn, compareInside, hmatch] at hsome
    dsimp only at hsome
    rw [if_neg (Decidable.not_not.mpr horder), show n = fs.rootEntryCount - (j + 1) by omega] at hsome
    rw [Nat.mod_eq_of_lt (by omega)]
    exact ⟨hlt hsome, hsome⟩

theorem not_catches_of_decided (hrec : fs.rootEntryCount < 2 ^ 16) {i : Nat}
    (hi : i < fs.rootEntryCount) (h : ¬ Undecided k fs name i) (hlong : IsLong k fs i) :
    compareInside k fs (fs.rootEntryCount - i) i name = some false ∧ ¬ Catches k fs name i := by
  have hfalse : compareInside k fs (fs.rootEntryCount - i) i name = some false := by
    by_contra hne
    exact h ⟨hlong, hne⟩
  refine ⟨hfalse, fun hcatch => ?_⟩
  have hsame := longNameEquals_of_inside hfalse (by omega) (Nat.lt_succ_self name.length)
  rw [Catches, hsame] at hcatch
  cases hcatch

/-- The search looks at the positions, up to the first comparison that succeeds. -/
theorem looksAt_position (hrec : fs.rootEntryCount < 2 ^ 16) {n : Nat}
    (hbefore : ∀ m, m < n → position k fs m < fs.rootEntryCount ∧
      (IsLong k fs (position k fs m) → ¬ Catches k fs name (position k fs m)))
    (hlt : position k fs n < 2 ^ 16) : LooksAt k fs name (position k fs n) := by
  induction n with
  | zero => exact .start
  | succ n ih =>
    obtain ⟨hn, hmiss⟩ := hbefore n (Nat.lt_succ_self n)
    have hlook := ih (fun m hm => hbefore m (Nat.lt_succ_of_lt hm)) (by omega)
    rw [position] at hlt ⊢
    split
    · rename_i hlong
      rw [if_pos hlong] at hlt
      rw [← Nat.mod_eq_of_lt hlt]
      exact hlook.missed hn hlong (hmiss hlong)
    · rename_i hshort
      rw [if_neg hshort] at hlt
      rw [← Nat.mod_eq_of_lt hlt]
      exact hlook.short hn hshort

/-- Nothing else is looked at if the search stops at the `n`-th position. -/
theorem LooksAt.position_le {n i : Nat} (h : LooksAt k fs name i) (hlt : position k fs n < 2 ^ 16)
    (hstop : position k fs n < fs.rootEntryCount →
      IsLong k fs (position k fs n) ∧ Catches k fs name (position k fs n)) :
    ∃ m, m ≤ n ∧ i = position k fs m := by
  induction h with
  | start => exact ⟨0, Nat.zero_le n, rfl⟩
  | @short i _ hi hshort ih =>
    obtain ⟨m, hm, rfl⟩ := ih
    rcases Nat.lt_or_eq_of_le hm with hm | rfl
    · have hle : position k fs (m + 1) ≤ position k fs n := position_mono hm
      have hnext : position k fs (m + 1) = position k fs m + 1 := by
        rw [position, if_neg hshort]
      exact ⟨m + 1, hm, by omega⟩
    · exact absurd (hstop hi).1 hshort
  | @missed i _ hi hlong hmiss ih =>
    obtain ⟨m, hm, rfl⟩ := ih
    rcases Nat.lt_or_eq_of_le hm with hm | rfl
    · have hle : position k fs (m + 1) ≤ position k fs n := position_mono hm
      have hnext : position k fs (m + 1) = position k fs m + 2 := by
        rw [position, if_pos hlong]
      exact ⟨m + 1, hm, by omega⟩
    · exact absurd (hstop hi).2 hmiss

/-- What holds where the search stops at the `n`-th position with all comparisons before failed. -/
theorem bounded_of_stop (hrec : fs.rootEntryCount < 2 ^ 16) {n p : Nat}
    (hlt : position k fs n < 2 ^ 16)
    (hbefore : ∀ m, m < n → position k fs m < fs.rootEntryCount ∧
      ¬ Undecided k fs name (position k fs m))
    (hstop : position k fs n < fs.rootEntryCount → IsLong k fs (position k fs n) ∧
      compareInside k fs (fs.rootEntryCount - position k fs n) (position k fs n) name = some true)
    (hresult : ∀ fuel, searchLoop k fs name (fuel + 1) (position k fs n) = some p)
    (hp : p = 0 ∨ ∃ i, i < fs.rootEntryCount ∧ p = fs.rootDir + 32 * i) :
    SearchBounded k fs name := by
  have hmissed : ∀ m, m < n → position k fs m < fs.rootEntryCount ∧
      (IsLong k fs (position k fs m) → ¬ Catches k fs name (position k fs m)) := by
    intro m hm
    obtain ⟨hlow, hdecided⟩ := hbefore m hm
    exact ⟨hlow, fun hlong => (not_catches_of_decided hrec hlow hdecided hlong).2⟩
  have hcatches : position k fs n < fs.rootEntryCount →
      IsLong k fs (position k fs n) ∧ Catches k fs name (position k fs n) := by
    intro hn
    obtain ⟨hlong, htrue⟩ := hstop hn
    exact ⟨hlong, longNameEquals_of_inside htrue (by omega) (Nat.lt_succ_self name.length)⟩
  have hrun : ∀ fuel, findFileInRootDirectory k fs name (fuel + 1 + n) = some p := by
    intro fuel
    exact (advances_position hlt hmissed (fuel + 1)).trans (hresult fuel)
  constructor
  · exact ⟨_, _, hrun 0⟩
  · rintro j (⟨_, hj⟩ | ⟨i, rest, hlook, hi, hlong, hcompares⟩)
    · exact hj
    · obtain ⟨m, hm, rfl⟩ := hlook.position_le hlt hcatches
      rcases Nat.lt_or_eq_of_le hm with hm | rfl
      · obtain ⟨hlow, hdecided⟩ := hbefore m hm
        exact (hcompares.inside hrec (not_catches_of_decided hrec hlow hdecided hlong).1).1
      · exact (hcompares.inside hrec (hstop hi).2).1
  · intro fuel p' hp'
    rw [searchLoop_unique hp' (hrun 0)]
    exact hp

/-- What follows if the first comparison that does not fail is that at the `n`-th position. -/
theorem SearchBounded.first (h : SearchBounded k fs name) (hrec : fs.rootEntryCount < 2 ^ 16)
    {n : Nat} (hn : position k fs n < fs.rootEntryCount)
    (hopen : Undecided k fs name (position k fs n))
    (hbefore : ∀ m, m < n → ¬ Undecided k fs name (position k fs m)) :
    compareInside k fs (fs.rootEntryCount - position k fs n) (position k fs n) name = some true ∧
      position k fs n + 1 < fs.rootEntryCount := by
  obtain ⟨hlong, hnot⟩ := hopen
  have hmissed : ∀ m, m < n → position k fs m < fs.rootEntryCount ∧
      (IsLong k fs (position k fs m) → ¬ Catches k fs name (position k fs m)) := by
    intro m hm
    have hlow : position k fs m < fs.rootEntryCount := Nat.lt_trans (position_lt hm) hn
    exact ⟨hlow, fun hlong' => (not_catches_of_decided hrec hlow (hbefore m hm) hlong').2⟩
  have hlook := looksAt_position hrec hmissed (by omega)
  cases hcase : compareInside k fs (fs.rootEntryCount - position k fs n) (position k fs n) name with
  | none =>
    obtain ⟨rest, hoff⟩ := Compares.runs_off .start hcase (by omega)
    have hout := h.reads _ (Or.inr ⟨_, rest, hlook, hn, hlong, hoff⟩)
    omega
  | some b =>
    cases b with
    | false => exact absurd hcase hnot
    | true =>
      have hcatch : Catches k fs name (position k fs n) :=
        longNameEquals_of_inside hcase (by omega) (Nat.lt_succ_self name.length)
      have hresult : findFileInRootDirectory k fs name (0 + 1 + n) =
          some (fs.rootDir + 32 * (position k fs n + 1)) :=
        (advances_position (by omega) hmissed (0 + 1)).trans (searchLoop_caught hn hlong hcatch 0)
      refine ⟨rfl, ?_⟩
      rcases h.returned _ _ hresult with hnull | ⟨i, hi, heq⟩
      · omega
      · omega

/-- What follows if all comparisons fail: the search does not get back to entry 0. -/
theorem SearchBounded.wrap (h : SearchBounded k fs name) (hrec : fs.rootEntryCount < 2 ^ 16)
    (hall : ∀ n, position k fs n < fs.rootEntryCount → ¬ Undecided k fs name (position k fs n))
    {n : Nat} (hn : position k fs n = 65534) (hlong : IsLong k fs 65534) :
    fs.rootEntryCount ≤ 65534 := by
  by_contra hfull
  have hquiet : ∀ n, position k fs n < fs.rootEntryCount → IsLong k fs (position k fs n) →
      ¬ Catches k fs name (position k fs n) :=
    fun n hn hlong' => (not_catches_of_decided hrec hn (hall n hn) hlong').2
  obtain ⟨fuel, p, hp⟩ := h.ends
  rw [find_never hrec hquiet hn hlong (Nat.lt_of_not_le hfull)] at hp
  cases hp

end Bounded

/-- **When the search stays inside the directory.** -/
theorem find_file_bounded_iff (k : Kernel) (fs : Fat16Fs) (name : List UInt8)
    (hrec : fs.rootEntryCount < 2 ^ 16) : SearchBounded k fs name ↔ StaysInside k fs name := by
  classical
  constructor
  · intro h
    constructor
    · intro n hn hopen hbefore
      exact h.first hrec hn hopen hbefore
    · intro hall n hn hlong
      exact h.wrap hrec hall hn hlong
  · intro h
    by_cases hex : ∃ n, position k fs n < fs.rootEntryCount ∧ Undecided k fs name (position k fs n)
    · -- the first comparison that does not fail
      obtain ⟨hn, hopen⟩ := Nat.find_spec hex
      have hbefore : ∀ m, m < Nat.find hex → position k fs m < fs.rootEntryCount ∧
          ¬ Undecided k fs name (position k fs m) := by
        intro m hm
        have hlow := Nat.lt_trans (position_lt hm) hn
        exact ⟨hlow, fun hopen' => Nat.find_min hex hm ⟨hlow, hopen'⟩⟩
      obtain ⟨htrue, hlast⟩ := h.first _ hn hopen fun m hm => (hbefore m hm).2
      have hcatch := longNameEquals_of_inside htrue (by omega) (Nat.lt_succ_self name.length)
      exact bounded_of_stop hrec (by omega) hbefore (fun _ => ⟨hopen.1, htrue⟩)
        (fun fuel => searchLoop_caught hn hopen.1 hcatch fuel) (Or.inr ⟨_, hlast, rfl⟩)
    · -- all comparisons fail, and the search gets behind the last entry
      have hall : ∀ n, position k fs n < fs.rootEntryCount →
          ¬ Undecided k fs name (position k fs n) := fun n hn hopen => hex ⟨n, hn, hopen⟩
      have hquiet : ∀ n, position k fs n < fs.rootEntryCount → IsLong k fs (position k fs n) →
          ¬ Catches k fs name (position k fs n) :=
        fun n hn hlong => (not_catches_of_decided hrec hn (hall n hn) hlong).2
      obtain ⟨n, hbefore, hend, hlt, _⟩ := find_null hrec hquiet (h.wrap hall)
      apply bounded_of_stop hrec hlt (fun m hm => ⟨hbefore m hm, hall m (hbefore m hm)⟩)
      · intro hn
        exact absurd hn (Nat.not_lt.mpr hend)
      · exact searchLoop_end hend
      · exact Or.inl rfl

/-- A directory at `0x90000000` with one entry, the long name `a`. -/
def oneLongName (x : Nat) : UInt8 :=
  if x = 0x90000000 then 0x41
  else if x = 0x90000001 then 97
  else if x = 0x9000000b then 15
  else 0

def oneEntry : Fat16Fs := ⟨512, 1, 4085, 1, 0x8fff0000, 0x8fff0200, 0x90000000, 0x90000020⟩

/-- A directory of 65535 entries, all of them long-name entries. -/
def manyEntries : Fat16Fs := ⟨512, 1, 4085, 65535, 0x8fff0000, 0x8fff0200, 0x90000000, 0x901fffe0⟩

theorem find_file_bounded_oneEntry :
    SearchBounded ⟨oneLongName, 0#64, 0⟩ oneEntry [97] ↔
      StaysInside ⟨oneLongName, 0#64, 0⟩ oneEntry [97] :=
  find_file_bounded_iff _ _ _ (by decide)

theorem manyEntries_decided {i : Nat} (hi : i < 65535) :
    ¬ Undecided ⟨fun _ => 15, 0#64, 0⟩ manyEntries [97] i := by
  rintro ⟨_, hopen⟩
  obtain ⟨n, hn⟩ : ∃ n, 65535 - i = n + 1 := Nat.exists_eq_succ_of_ne_zero (by omega)
  have hunits : (⟨fun _ => 15, 0#64, 0⟩ : Kernel).nameUnits (manyEntries.rootDir + 32 * i) =
      List.replicate 13 0x0f0f := rfl
  apply hopen
  rw [show manyEntries.rootEntryCount - i = n + 1 from hn, compareInside, hunits]
  rfl

theorem manyEntries_position (n : Nat) : position ⟨fun _ => 15, 0#64, 0⟩ manyEntries n = 2 * n := by
  induction n with
  | zero => rfl
  | succ n ih =>
    have hattributes : (⟨fun _ => 15, 0#64, 0⟩ : Kernel).attributes
        (manyEntries.rootDir + 32 * (2 * n)) = 15 := rfl
    have hlong : IsLong ⟨fun _ => 15, 0#64, 0⟩ manyEntries (2 * n) := by
      rw [IsLong, hattributes]
      rfl
    rw [position, ih, if_pos hlong]
    omega

/-- The search returns the entry behind the only one; and among 65535 long-name entries it never
    ends. -/
theorem find_file_unbounded :
    ¬ SearchBounded ⟨oneLongName, 0#64, 0⟩ oneEntry [97] ∧
    ¬ SearchBounded ⟨fun _ => 15, 0#64, 0⟩ manyEntries [97] := by
  constructor
  · intro h
    have hfound : findFileInRootDirectory ⟨oneLongName, 0#64, 0⟩ oneEntry [97] 1 =
        some 0x90000020 := by decide +kernel
    rcases h.returned 1 _ hfound with hnull | ⟨i, hi, heq⟩
    · exact absurd hnull (by decide)
    · have hrec : i < 1 := hi
      have hptr : 0x90000020 = 0x90000000 + 32 * i := heq
      omega
  · intro h
    have hle : 65535 ≤ 65534 := h.wrap (by decide) (fun n hn => manyEntries_decided hn)
      (manyEntries_position 32767) rfl
    exact absurd hle (by decide)

end IloPali
