import IloPali.FatDirectory
import Mathlib.Data.List.GetD

/-!
# Looking a file up by its name

A long name stands before its file's 8.3 entry, thirteen characters to an entry and its last part
first.  `find_file_in_root_directory` compares one entry with the beginning of the name it looks
for, and it looks neither at the first byte of an entry nor at the parts before the last one.  This
module says what directories hold, and for which of them the search returns the right entry.
-/

namespace IloPali

/-! ## 1. Directories -/

/-- What stands in a directory before its end marker: a file with its long name, an 8.3 entry
    without one, or a deleted entry, with its units if it has the attributes of a long-name
    entry. -/
inductive DirItem where
  | file (name : List Nat)
  | short
  | deleted (units : Option (List Nat))

/-- The number of long-name entries of a name. -/
def partCount (name : List Nat) : Nat := (name.length + 12) / 13

/-- The units of the `p`-th part of a name: its characters, a final zero, and fillers. -/
def partUnits (name : List Nat) (p : Nat) : List Nat :=
  (List.range 13).map fun l =>
    if 13 * p + l < name.length then name.getD (13 * p + l) 0
    else if 13 * p + l = name.length then 0
    else 0xffff

/-- The number of entries an item takes. -/
def DirItem.size : DirItem → Nat
  | .file name => partCount name + 1
  | .short => 1
  | .deleted _ => 1

/-- Entry `i` holds the `p`-th part of a long name. -/
structure LongEntry (k : Kernel) (fs : Fat16Fs) (i : Nat) (name : List Nat) (p : Nat) : Prop where
  long : IsLong k fs i
  order : k.order (fs.rootDir + 32 * i) = p + 1 + if p + 1 = partCount name then 0x40 else 0
  units : k.nameUnits (fs.rootDir + 32 * i) = partUnits name p

/-- Entry `i` is the 8.3 entry of a file that is there.  Its name is padded with blanks: no byte of
    it is smaller, here in pairs from the second byte on. -/
structure ShortEntry (k : Kernel) (fs : Fat16Fs) (i : Nat) : Prop where
  short : ¬ IsLong k fs i
  used : k.order (fs.rootDir + 32 * i) ≠ 0
  live : k.order (fs.rootDir + 32 * i) ≠ 0xe5
  padded : ∀ l, l < 5 → 0x20 ≤ k.load 2 (fs.rootDir + 32 * i + 1 + 2 * l) % 256 ∧
    0x20 ≤ k.load 2 (fs.rootDir + 32 * i + 1 + 2 * l) / 256

/-- The item stands at entry `i`. -/
def HoldsItem (k : Kernel) (fs : Fat16Fs) (i : Nat) : DirItem → Prop
  | .file name =>
    name ≠ [] ∧ name.length ≤ 255 ∧ (∀ c ∈ name, c ≠ 0) ∧
      (∀ j, j < partCount name → LongEntry k fs (i + j) name (partCount name - 1 - j)) ∧
      ShortEntry k fs (i + partCount name)
  | .short => ShortEntry k fs i
  | .deleted units =>
    k.order (fs.rootDir + 32 * i) = 0xe5 ∧
      match units with
      | some us => IsLong k fs i ∧ k.nameUnits (fs.rootDir + 32 * i) = us
      | none => ¬ IsLong k fs i

/-- The items stand at entry `i` and behind it, and an end marker follows them. -/
def HoldsDir (k : Kernel) (fs : Fat16Fs) : Nat → List DirItem → Prop
  | e, [] => e < fs.rootEntryCount ∧ k.order (fs.rootDir + 32 * e) = 0
  | i, item :: items => HoldsItem k fs i item ∧ HoldsDir k fs (i + item.size) items

/-- The number of entries before the end marker. -/
def dirSize (items : List DirItem) : Nat := (items.map DirItem.size).sum

/-- The files that are there: where their 8.3 entries are, and their long names. -/
def fileEntries : Nat → List DirItem → List (Nat × List Nat)
  | _, [] => []
  | i, .file name :: items =>
    (i + partCount name, name) :: fileEntries (i + (DirItem.file name).size) items
  | i, .short :: items => fileEntries (i + 1) items
  | i, .deleted _ :: items => fileEntries (i + 1) items

/-- A name as units. -/
def unitsOf (name : List UInt8) : List Nat := name.map UInt8.toNat

/-- The pointer is the 8.3 entry of a file with the name if there is one, and else `NULL`. -/
def RightEntry (fs : Fat16Fs) (items : List DirItem) (name : List UInt8) (p : Nat) : Prop :=
  (∃ i, (i, unitsOf name) ∈ fileEntries 0 items ∧ p = fs.rootDir + 32 * i) ∨
  (∀ i, (i, unitsOf name) ∉ fileEntries 0 items) ∧ p = 0

/-! ## 2. When the right entry is found -/

/-- The units begin with the name and a zero, or the name begins with the units. -/
def Fits (units : List Nat) (name : List UInt8) : Prop :=
  unitsOf name ++ [0] <+: units ∨ units <+: unitsOf name

/-- The units of the first entry of an item, if that is a long-name entry. -/
def DirItem.firstUnits : DirItem → Option (List Nat)
  | .file name => some (partUnits name (partCount name - 1))
  | .short => none
  | .deleted units => units

/-- A deleted long-name entry: the entry behind it is passed over. -/
def DirItem.hidesNext : DirItem → Bool
  | .deleted (some _) => true
  | .file _ => false
  | .short => false
  | .deleted none => false

/-- The first item whose first entry is looked at and fits; `hidden` says that the first entry of
    the first item is passed over. -/
inductive FirstFit (name : List UInt8) : Bool → List DirItem → Option DirItem → Prop
  | nil (hidden : Bool) : FirstFit name hidden [] none
  | hidden {item : DirItem} {items : List DirItem} {r : Option DirItem}
      (h : FirstFit name false items r) : FirstFit name true (item :: items) r
  | fits {item : DirItem} {items : List DirItem} {units : List Nat}
      (hunits : item.firstUnits = some units) (hfits : Fits units name) :
      FirstFit name false (item :: items) (some item)
  | differs {item : DirItem} {items : List DirItem} {r : Option DirItem}
      (hdiffers : ∀ units, item.firstUnits = some units → ¬ Fits units name)
      (h : FirstFit name item.hidesNext items r) : FirstFit name false (item :: items) r

/-- Behind the entry `e` no comparison succeeds, and the search does not step from entry 65534 over
    the end of the directory. -/
structure QuietBehind (k : Kernel) (fs : Fat16Fs) (name : List UInt8) (e : Nat) : Prop where
  quiet : ∀ n, e ≤ position k fs n → position k fs n < fs.rootEntryCount →
    IsLong k fs (position k fs n) → ¬ Catches k fs name (position k fs n)
  wrap : ∀ n, position k fs n = 65534 → IsLong k fs 65534 → fs.rootEntryCount ≤ 65534

/-- The first item that fits is a file of that name, of at most thirteen characters; or none fits,
    there is no file of that name, and nothing behind the end marker is found. -/
def FoundByName (k : Kernel) (fs : Fat16Fs) (items : List DirItem) (name : List UInt8) : Prop :=
  (name.length ≤ 13 ∧ FirstFit name false items (some (.file (unitsOf name)))) ∨
  (FirstFit name false items none ∧ (∀ i, (i, unitsOf name) ∉ fileEntries 0 items) ∧
    QuietBehind k fs name (dirSize items))

/-! ## 3. Comparing with one entry -/

theorem matchUnits_differs_iff {units : List Nat} {name : List UInt8} (hname : ∀ c ∈ name, c ≠ 0) :
    matchUnits units name = .differs ↔ ¬ Fits units name := by
  induction units generalizing name with
  | nil =>
    refine iff_of_false NameMatch.noConfusion (not_not.mpr (Or.inr List.nil_prefix))
  | cons u units ih =>
    cases name with
    | nil =>
      have hfits : Fits (u :: units) [] ↔ u = 0 := by
        simp [Fits, unitsOf, List.cons_prefix_cons, eq_comm]
      rw [hfits, matchUnits]
      by_cases hu : u = 0
      · simp [hu]
      · simp [hu]
    | cons c name =>
      have hc : c ≠ 0 := hname c List.mem_cons_self
      have hfits : Fits (u :: units) (c :: name) ↔ u = c.toNat ∧ Fits units name := by
        simp only [Fits, unitsOf, List.map_cons, List.cons_append, List.cons_prefix_cons]
        constructor
        · rintro (⟨hu, h⟩ | ⟨hu, h⟩)
          · exact ⟨hu.symm, Or.inl h⟩
          · exact ⟨hu, Or.inr h⟩
        · rintro ⟨hu, h | h⟩
          · exact Or.inl ⟨hu.symm, h⟩
          · exact Or.inr ⟨hu, h⟩
      rw [hfits, matchUnits, List.headD_cons, List.tail_cons]
      by_cases hu : u = c.toNat
      · rw [if_neg (not_not.mpr hu), if_neg hc, ih fun c' hc' => hname c' (List.mem_cons_of_mem c hc')]
        simp [hu]
      · simp [hu]

/-- Units that are all characters do not end the comparison. -/
theorem matchUnits_ne_ends {units : List Nat} {name : List UInt8} (h : ∀ u ∈ units, u ≠ 0) :
    matchUnits units name ≠ .ends := by
  induction units generalizing name with
  | nil => exact NameMatch.noConfusion
  | cons u units ih =>
    rw [matchUnits]
    split_ifs with hdiff hzero
    · exact NameMatch.noConfusion
    · have hu : u = (name.headD 0).toNat := not_not.mp hdiff
      rw [hzero] at hu
      exact absurd hu (h u List.mem_cons_self)
    · exact ih fun u' hu' => h u' (List.mem_cons_of_mem u hu')

section Entries

variable {k : Kernel} {fs : Fat16Fs} {name : List UInt8} {i : Nat}

/-- An entry with the bit `0x40` is caught if its units fit. -/
theorem catches_iff_fits (hname : ∀ c ∈ name, c ≠ 0)
    (hlast : k.order (fs.rootDir + 32 * i) &&& 0x40 ≠ 0) :
    Catches k fs name i ↔ Fits (k.nameUnits (fs.rootDir + 32 * i)) name := by
  have hdiffers := @matchUnits_differs_iff (k.nameUnits (fs.rootDir + 32 * i)) name hname
  rw [Catches, longNameEquals]
  cases hmatch : matchUnits (k.nameUnits (fs.rootDir + 32 * i)) name with
  | differs => simp [hdiffers.mp hmatch]
  | ends =>
    have hfits : Fits (k.nameUnits (fs.rootDir + 32 * i)) name := by
      by_contra hnot
      rw [hdiffers.mpr hnot] at hmatch
      cases hmatch
    simp [hfits]
  | goesOn rest =>
    have hfits : Fits (k.nameUnits (fs.rootDir + 32 * i)) name := by
      by_contra hnot
      rw [hdiffers.mpr hnot] at hmatch
      cases hmatch
    simp [hfits, hlast]

/-- An 8.3 entry differs from every name at once. -/
theorem ShortEntry.differs (h : ShortEntry k fs i) :
    matchUnits (k.nameUnits (fs.rootDir + 32 * i)) name = .differs := by
  have hunits : ∃ units, k.nameUnits (fs.rootDir + 32 * i) =
      k.load 2 (fs.rootDir + 32 * i + 1 + 2 * 0) :: units := ⟨_, rfl⟩
  obtain ⟨units, hunits⟩ := hunits
  have hlarge := (h.padded 0 (by decide)).2
  have hsmall : (name.headD 0).toNat < 256 := UInt8.toNat_lt _
  rw [hunits, matchUnits, if_pos (by omega)]

/-- From the second entry of a file on, nothing is caught: the parts hold characters only and the
    comparison runs into the 8.3 entry. -/
theorem inner_not_equal {b : Nat} {n : List Nat} (h : HoldsItem k fs b (.file n))
    (hroom : b + partCount n < 2 ^ 16) (fuel : Nat) {p : Nat} (hpos : 1 ≤ p) (hp : p ≤ partCount n) :
    longNameEquals k fs fuel (b + p) name ≠ some true := by
  obtain ⟨_, hlen, hchars, hparts, hshort⟩ := h
  induction fuel generalizing p name with
  | zero => exact fun hcon => nomatch hcon
  | succ fuel ih =>
    rw [longNameEquals]
    rcases Nat.eq_or_lt_of_le hp with rfl | hlt
    · rw [hshort.differs]
      simp
    · have hpart := hparts p hlt
      have hunits : ∀ u ∈ k.nameUnits (fs.rootDir + 32 * (b + p)), u ≠ 0 := by
        rw [hpart.units]
        intro u hu
        obtain ⟨l, hl, rfl⟩ := List.mem_map.mp hu
        rw [List.mem_range] at hl
        have hin : 13 * (partCount n - 1 - p) + l < n.length := by
          rw [partCount] at hlt ⊢
          omega
        rw [if_pos hin, List.getD_eq_getElem _ _ hin]
        exact hchars _ (List.getElem_mem hin)
      have hends := @matchUnits_ne_ends _ name hunits
      cases hmatch : matchUnits (k.nameUnits (fs.rootDir + 32 * (b + p))) name with
      | differs => simp
      | ends => exact absurd hmatch hends
      | goesOn rest =>
        have hsmall : ∀ v, v ≤ 20 → v &&& 0x40 = 0 := by decide
        have horder : k.order (fs.rootDir + 32 * (b + p)) &&& 0x40 = 0 := by
          rw [hpart.order, if_neg (by omega)]
          apply hsmall
          rw [partCount]
          omega
        dsimp only
        rw [if_neg (not_not.mpr horder), Nat.mod_eq_of_lt (by omega), Nat.add_assoc]
        exact ih (by omega) hlt

end Entries

/-! ## 4. The way through the items -/

section Walk

variable {k : Kernel} {fs : Fat16Fs} {name : List UInt8}

/-- No comparison at the positions from the `n`-th to the `n'`-th succeeds. -/
def Quiet (k : Kernel) (fs : Fat16Fs) (name : List UInt8) (n n' : Nat) : Prop :=
  ∀ m, n ≤ m → m < n' → IsLong k fs (position k fs m) → ¬ Catches k fs name (position k fs m)

theorem Quiet.refl (n : Nat) : Quiet k fs name n n := by
  intro m hle hlt
  exact absurd hlt (Nat.not_lt.mpr hle)

theorem Quiet.trans {n n' n'' : Nat} (h : Quiet k fs name n n') (h' : Quiet k fs name n' n'') :
    Quiet k fs name n n'' := by
  intro m hle hlt
  rcases Nat.lt_or_ge m n' with hm | hm
  · exact h m hle hm
  · exact h' m hm hlt

theorem Quiet.one {n : Nat} (h : IsLong k fs (position k fs n) → ¬ Catches k fs name (position k fs n)) :
    Quiet k fs name n (n + 1) := by
  intro m hle hlt
  obtain rfl := Nat.le_antisymm hle (Nat.le_of_lt_succ hlt)
  exact h

/-- From any entry of a file but the first, the search gets behind the file. -/
theorem file_rest {b : Nat} {f : List Nat} (h : HoldsItem k fs b (.file f))
    (hroom : b + partCount f < 2 ^ 16) {p n : Nat} (hpos : 1 ≤ p) (hp : p ≤ partCount f + 1)
    (hn : position k fs n = b + p) :
    ∃ n', n ≤ n' ∧ position k fs n' = b + (DirItem.file f).size ∧ Quiet k fs name n n' := by
  obtain ⟨d, hd⟩ := Nat.exists_eq_add_of_le hp
  induction d using Nat.strong_induction_on generalizing p n with
  | _ d ih =>
    rcases Nat.eq_zero_or_pos d with rfl | hdpos
    · exact ⟨n, le_refl n, by rw [hn, DirItem.size]; omega, .refl n⟩
    · rcases Nat.eq_or_lt_of_le (Nat.le_of_lt_succ (by omega : p < partCount f + 1)) with heq | hlt
      · -- the 8.3 entry
        have hshort : ¬ IsLong k fs (position k fs n) := by
          rw [hn, heq]
          exact h.2.2.2.2.short
        refine ⟨n + 1, Nat.le_succ n, ?_, .one fun hlong => absurd hlong hshort⟩
        rw [position, if_neg hshort, hn, heq, DirItem.size, Nat.add_assoc]
      · have hlong : IsLong k fs (position k fs n) := by
          rw [hn]
          exact (h.2.2.2.1 p hlt).long
        have hnext : position k fs (n + 1) = b + (p + 2) := by
          rw [position, if_pos hlong, hn, Nat.add_assoc]
        obtain ⟨n', hle, hend, hquiet⟩ := ih (d - 2) (by omega) (by omega) (by omega) hnext (by omega)
        refine ⟨n', by omega, hend, Quiet.trans (.one fun _ => ?_) hquiet⟩
        rw [hn]
        exact inner_not_equal h hroom _ hpos (Nat.le_of_lt hlt)

/-- The first entry of an item: whether it is a long-name entry, and when it is caught. -/
theorem HoldsItem.first {b : Nat} {item : DirItem} (h : HoldsItem k fs b item)
    (hname : ∀ c ∈ name, c ≠ 0) :
    (∀ units, item.firstUnits = some units →
      IsLong k fs b ∧ (Catches k fs name b ↔ Fits units name)) ∧
    (item.firstUnits = none → ¬ IsLong k fs b) := by
  cases item with
  | file f =>
    obtain ⟨hne, hlen, _, hparts, _⟩ := h
    have hcount : 1 ≤ partCount f ∧ partCount f ≤ 20 := by
      have := List.length_pos_iff.mpr hne
      rw [partCount]
      omega
    have hentry := hparts 0 hcount.1
    rw [Nat.add_zero, Nat.sub_zero] at hentry
    refine ⟨?_, fun hnone => nomatch hnone⟩
    rintro units hunits
    obtain rfl := Option.some.inj hunits
    have hbit : ∀ v, v ≤ 20 → (v + 0x40) &&& 0x40 ≠ 0 := by decide
    have horder : k.order (fs.rootDir + 32 * b) &&& 0x40 ≠ 0 := by
      rw [hentry.order, if_pos (by omega), Nat.sub_add_cancel hcount.1]
      exact hbit _ hcount.2
    refine ⟨hentry.long, ?_⟩
    rw [catches_iff_fits hname horder, hentry.units]
  | short => exact ⟨fun units hunits => (nomatch hunits), fun _ => h.short⟩
  | deleted units =>
    obtain ⟨horder, hattr⟩ := h
    cases units with
    | none => exact ⟨fun units hunits => (nomatch hunits), fun _ => hattr⟩
    | some us =>
      refine ⟨?_, fun hnone => nomatch hnone⟩
      intro units hunits
      obtain rfl := Option.some.inj hunits
      have hbit : k.order (fs.rootDir + 32 * b) &&& 0x40 ≠ 0 := by
        rw [horder]
        decide
      refine ⟨hattr.1, ?_⟩
      rw [catches_iff_fits hname hbit, hattr.2]

/-- An item whose first entry is passed over. -/
theorem item_hidden {b n : Nat} {item : DirItem} (h : HoldsItem k fs b item)
    (hroom : b + item.size ≤ 2 ^ 16) (hn : position k fs n = b + 1) :
    ∃ n', n ≤ n' ∧ position k fs n' = b + item.size ∧ Quiet k fs name n n' := by
  cases item with
  | file f =>
    rw [DirItem.size] at hroom
    exact file_rest h (by omega) (le_refl 1) (by omega) hn
  | short => exact ⟨n, le_refl n, hn, .refl n⟩
  | deleted units => exact ⟨n, le_refl n, hn, .refl n⟩

/-- An item whose first entry is looked at and does not fit. -/
theorem item_differs {b n : Nat} {item : DirItem} (h : HoldsItem k fs b item)
    (hname : ∀ c ∈ name, c ≠ 0) (hroom : b + item.size ≤ 2 ^ 16) (hn : position k fs n = b)
    (hdiffers : ∀ units, item.firstUnits = some units → ¬ Fits units name) :
    ∃ n', n ≤ n' ∧ position k fs n' = b + item.size + item.hidesNext.toNat ∧
      Quiet k fs name n n' := by
  obtain ⟨hlong, hshort⟩ := h.first hname
  have hmissed : ∀ units, item.firstUnits = some units →
      position k fs (n + 1) = b + 2 ∧ Quiet k fs name n (n + 1) := by
    intro units hunits
    obtain ⟨hattr, hcatch⟩ := hlong units hunits
    constructor
    · rw [position, hn, if_pos hattr]
    · apply Quiet.one
      intro _
      rw [hn, hcatch]
      exact hdiffers units hunits
  have hpassed : item.firstUnits = none →
      position k fs (n + 1) = b + 1 ∧ Quiet k fs name n (n + 1) := by
    intro hnone
    have hattr := hshort hnone
    constructor
    · rw [position, hn, if_neg hattr]
    · apply Quiet.one
      intro hcon
      rw [hn] at hcon
      exact absurd hcon hattr
  cases item with
  | file f =>
    obtain ⟨hnext, hquiet⟩ := hmissed _ rfl
    have hcount : 1 ≤ partCount f := by
      have := List.length_pos_iff.mpr h.1
      rw [partCount]
      omega
    rw [DirItem.size] at hroom
    obtain ⟨n', hle, hend, hrest⟩ :=
      @file_rest k fs name b f h (by omega) 2 (n + 1) (by omega) (by omega) hnext
    exact ⟨n', by omega, hend, hquiet.trans hrest⟩
  | short =>
    obtain ⟨hnext, hquiet⟩ := hpassed rfl
    exact ⟨n + 1, Nat.le_succ n, hnext, hquiet⟩
  | deleted units =>
    cases units with
    | none =>
      obtain ⟨hnext, hquiet⟩ := hpassed rfl
      exact ⟨n + 1, Nat.le_succ n, hnext, hquiet⟩
    | some us =>
      obtain ⟨hnext, hquiet⟩ := hmissed us rfl
      exact ⟨n + 1, Nat.le_succ n, hnext, hquiet⟩

theorem dirSize_cons (item : DirItem) (items : List DirItem) :
    dirSize (item :: items) = item.size + dirSize items := rfl

/-- The end marker is inside the directory. -/
theorem HoldsDir.end_lt {b : Nat} {items : List DirItem} (h : HoldsDir k fs b items) :
    b + dirSize items < fs.rootEntryCount := by
  induction items generalizing b with
  | nil => exact h.1
  | cons item items ih =>
    have hrest := ih h.2
    rw [dirSize_cons]
    omega

/-- **The search through the items.**  It gets to the first one that fits, or behind all. -/
theorem FirstFit.walk {hidden : Bool} {items : List DirItem} {r : Option DirItem}
    (h : FirstFit name hidden items r) (hname : ∀ c ∈ name, c ≠ 0)
    (hrec : fs.rootEntryCount < 2 ^ 16) {b n : Nat} (hdir : HoldsDir k fs b items)
    (hn : position k fs n = b + hidden.toNat) :
    (r = none → ∃ n', b + dirSize items ≤ position k fs n' ∧ Quiet k fs name n n') ∧
    ∀ item, r = some item → ∃ pre post n', items = pre ++ item :: post ∧
      position k fs n' = b + dirSize pre ∧ IsLong k fs (position k fs n') ∧
      Catches k fs name (position k fs n') ∧ Quiet k fs name n n' := by
  induction h generalizing b n with
  | nil hidden =>
    refine ⟨fun _ => ⟨n, ?_, .refl n⟩, fun item hitem => nomatch hitem⟩
    rw [hn]
    exact Nat.le_add_right _ _
  | @hidden item items r _ ih =>
    have hroom := hdir.end_lt
    rw [dirSize_cons] at hroom
    obtain ⟨n₁, hle, hn₁, hquiet⟩ := @item_hidden k fs name b n item hdir.1 (by omega) hn
    obtain ⟨hnone, hsome⟩ := ih hdir.2 hn₁
    constructor
    · intro hr
      obtain ⟨n', hend, hrest⟩ := hnone hr
      exact ⟨n', by rwa [dirSize_cons, ← Nat.add_assoc], hquiet.trans hrest⟩
    · intro found hr
      obtain ⟨pre, post, n', rfl, hpos, hlong, hcatch, hrest⟩ := hsome found hr
      exact ⟨item :: pre, post, n', rfl, by rw [hpos, dirSize_cons, Nat.add_assoc], hlong, hcatch,
        hquiet.trans hrest⟩
  | @fits item items units hunits hfits =>
    refine ⟨fun hr => (nomatch hr), fun found hr => ?_⟩
    obtain rfl := Option.some.inj hr
    obtain ⟨hlong, hcatch⟩ := (hdir.1.first hname).1 units hunits
    have hat : position k fs n = b := hn
    refine ⟨[], items, n, rfl, hat, ?_, ?_, .refl n⟩
    · rw [hat]
      exact hlong
    · rw [hat]
      exact hcatch.mpr hfits
  | @differs item items r hdiffers _ ih =>
    have hroom := hdir.end_lt
    rw [dirSize_cons] at hroom
    obtain ⟨n₁, hle, hn₁, hquiet⟩ := item_differs hdir.1 hname (by omega) hn hdiffers
    obtain ⟨hnone, hsome⟩ := ih hdir.2 hn₁
    constructor
    · intro hr
      obtain ⟨n', hend, hrest⟩ := hnone hr
      exact ⟨n', by rwa [dirSize_cons, ← Nat.add_assoc], hquiet.trans hrest⟩
    · intro found hr
      obtain ⟨pre, post, n', rfl, hpos, hlong, hcatch, hrest⟩ := hsome found hr
      exact ⟨item :: pre, post, n', rfl, by rw [hpos, dirSize_cons, Nat.add_assoc], hlong, hcatch,
        hquiet.trans hrest⟩

theorem exists_firstFit (name : List UInt8) (items : List DirItem) (hidden : Bool) :
    ∃ r, FirstFit name hidden items r := by
  classical
  induction items generalizing hidden with
  | nil => exact ⟨none, .nil hidden⟩
  | cons item items ih =>
    cases hidden with
    | true =>
      obtain ⟨r, hr⟩ := ih false
      exact ⟨r, .hidden hr⟩
    | false =>
      by_cases hfits : ∃ units, item.firstUnits = some units ∧ Fits units name
      · obtain ⟨units, hunits, hfits⟩ := hfits
        exact ⟨some item, .fits hunits hfits⟩
      · obtain ⟨r, hr⟩ := ih item.hidesNext
        exact ⟨r, .differs (fun units hunits hfit => hfits ⟨units, hunits, hfit⟩) hr⟩

/-! ## 5. Where the files are -/

theorem fileEntries_append (pre post : List DirItem) (b : Nat) :
    fileEntries b (pre ++ post) = fileEntries b pre ++ fileEntries (b + dirSize pre) post := by
  induction pre generalizing b with
  | nil => rfl
  | cons item pre ih =>
    rw [dirSize_cons, ← Nat.add_assoc, List.cons_append]
    cases item with
    | file f => exact congrArg _ (ih _)
    | short => exact ih _
    | deleted units => exact ih _

theorem fileEntries_lt {items : List DirItem} {b i : Nat} {f : List Nat}
    (h : (i, f) ∈ fileEntries b items) : i < b + dirSize items := by
  induction items generalizing b with
  | nil => cases h
  | cons item items ih =>
    rw [dirSize_cons, ← Nat.add_assoc]
    cases item with
    | file f' =>
      rcases List.mem_cons.mp h with heq | h
      · obtain ⟨rfl, rfl⟩ := Prod.mk.inj heq
        rw [DirItem.size]
        omega
      · exact ih h
    | short => exact ih h
    | deleted units => exact ih h

theorem HoldsDir.fileEntries_gt {items : List DirItem} {b i : Nat} {f : List Nat}
    (hdir : HoldsDir k fs b items) (h : (i, f) ∈ fileEntries b items) : b < i := by
  induction items generalizing b with
  | nil => cases h
  | cons item items ih =>
    cases item with
    | file f' =>
      rcases List.mem_cons.mp h with heq | h
      · obtain ⟨rfl, rfl⟩ := Prod.mk.inj heq
        have := List.length_pos_iff.mpr hdir.1.1
        rw [partCount]
        omega
      · have := ih hdir.2 h
        omega
    | short => exact Nat.lt_of_succ_lt (ih hdir.2 h)
    | deleted units => exact Nat.lt_of_succ_lt (ih hdir.2 h)

theorem HoldsDir.drop {pre post : List DirItem} {b : Nat} (h : HoldsDir k fs b (pre ++ post)) :
    HoldsDir k fs (b + dirSize pre) post := by
  induction pre generalizing b with
  | nil => exact h
  | cons item pre ih =>
    rw [dirSize_cons, ← Nat.add_assoc]
    exact ih h.2

/-- The entry behind the first one of an item is the 8.3 entry of a file only if the item is that
    file and has one long-name entry. -/
theorem HoldsDir.second_entry {pre post : List DirItem} {item : DirItem} {f : List Nat}
    (h : HoldsDir k fs 0 (pre ++ item :: post))
    (hf : (dirSize pre + 1, f) ∈ fileEntries 0 (pre ++ item :: post)) :
    item = .file f ∧ f.length ≤ 13 := by
  have hdrop := h.drop
  rw [Nat.zero_add] at hdrop
  rw [fileEntries_append, List.mem_append, Nat.zero_add] at hf
  rcases hf with hpre | hf
  · have := fileEntries_lt hpre
    omega
  · have hbehind : (dirSize pre + 1, f) ∉ fileEntries (dirSize pre + item.size) post := by
      intro hpost
      have hgt := hdrop.2.fileEntries_gt hpost
      have hsize : 1 ≤ item.size := by
        cases item with
        | file f' => exact Nat.le_add_left 1 _
        | short => exact le_refl 1
        | deleted units => exact le_refl 1
      omega
    cases item with
    | file f' =>
      rcases List.mem_cons.mp hf with heq | hpost
      · obtain ⟨hcount, rfl⟩ := Prod.mk.inj heq
        refine ⟨rfl, ?_⟩
        rw [partCount] at hcount
        omega
      · exact absurd hpost hbehind
    | short => exact absurd hf hbehind
    | deleted units => exact absurd hf hbehind

/-! ## 6. What the search returns -/

section Result

variable {items : List DirItem} {p fuel : Nat} (hrec : fs.rootEntryCount < 2 ^ 16)
  (hdir : HoldsDir k fs 0 items) (hname : ∀ c ∈ name, c ≠ 0)
include hrec hdir hname

/-- An item that fits decides the search. -/
theorem FirstFit.find {item : DirItem} (h : FirstFit name false items (some item)) :
    ∃ pre post fuel, items = pre ++ item :: post ∧
      findFileInRootDirectory k fs name fuel = some (fs.rootDir + 32 * (dirSize pre + 1)) := by
  have hstart : position k fs 0 = 0 + false.toNat := rfl
  obtain ⟨pre, post, n, rfl, hn, hlong, hcatch, hquiet⟩ :=
    (h.walk hname hrec hdir hstart).2 item rfl
  rw [Nat.zero_add] at hn
  have hend := (HoldsDir.drop hdir).end_lt
  rw [dirSize_cons, Nat.zero_add] at hend
  have hfound := find_caught hrec (by omega) hlong hcatch (fun m hm => hquiet m (Nat.zero_le m) hm) 0
  rw [hn] at hfound
  exact ⟨pre, post, _, rfl, hfound⟩

/-- Where no item fits, only what is behind the end marker can be caught. -/
theorem FirstFit.behind (h : FirstFit name false items none) {m : Nat}
    (hlong : IsLong k fs (position k fs m)) (hcatch : Catches k fs name (position k fs m)) :
    dirSize items ≤ position k fs m := by
  have hstart : position k fs 0 = 0 + false.toNat := rfl
  obtain ⟨n, hend, hquiet⟩ := (h.walk hname hrec hdir hstart).1 rfl
  rw [Nat.zero_add] at hend
  have hle : n ≤ m := by
    by_contra hlt
    exact hquiet m (Nat.zero_le m) (Nat.lt_of_not_le hlt) hlong hcatch
  exact Nat.le_trans hend (position_mono hle)

/-- If the first item that fits leads to the right entry, it is the file. -/
theorem RightEntry.of_fits {item : DirItem} (h : FirstFit name false items (some item))
    (hp : findFileInRootDirectory k fs name fuel = some p) (hright : RightEntry fs items name p) :
    name.length ≤ 13 ∧ item = .file (unitsOf name) := by
  obtain ⟨pre, post, fuel', rfl, hfound⟩ := h.find hrec hdir hname
  have hp' := searchLoop_unique hp hfound
  rcases hright with ⟨i, hi, rfl⟩ | ⟨_, rfl⟩
  · obtain rfl : i = dirSize pre + 1 := by omega
    obtain ⟨rfl, hlen⟩ := hdir.second_entry hi
    rw [unitsOf, List.length_map] at hlen
    exact ⟨hlen, rfl⟩
  · omega

/-- If no item fits and the search returns the right entry, that is `NULL`. -/
theorem RightEntry.of_none (h : FirstFit name false items none)
    (hp : findFileInRootDirectory k fs name fuel = some p) (hright : RightEntry fs items name p) :
    (∀ i, (i, unitsOf name) ∉ fileEntries 0 items) ∧ QuietBehind k fs name (dirSize items) := by
  classical
  have hall : ∀ m, position k fs m < fs.rootEntryCount → IsLong k fs (position k fs m) →
      ¬ Catches k fs name (position k fs m) := by
    intro m hm hlong hcatch
    -- the first one that is caught is behind the end marker, and so is the entry returned
    have hex : ∃ m, IsLong k fs (position k fs m) ∧ Catches k fs name (position k fs m) :=
      ⟨m, hlong, hcatch⟩
    obtain ⟨hlong', hcatch'⟩ := Nat.find_spec hex
    have hlow : position k fs (Nat.find hex) ≤ position k fs m :=
      position_mono (Nat.find_min' hex ⟨hlong, hcatch⟩)
    have hfound := find_caught hrec (by omega) hlong' hcatch'
      (fun m' hm' hl hc => Nat.find_min hex hm' ⟨hl, hc⟩) 0
    have hp' := searchLoop_unique hp hfound
    have hbehind := h.behind hrec hdir hname hlong' hcatch'
    rcases hright with ⟨i, hi, hpi⟩ | ⟨_, hnull⟩
    · have := fileEntries_lt hi
      omega
    · omega
  have hwrap : ∀ m, position k fs m = 65534 → IsLong k fs 65534 → fs.rootEntryCount ≤ 65534 := by
    intro m hm hlong
    by_contra hfull
    rw [find_never hrec hall hm hlong (Nat.lt_of_not_le hfull)] at hp
    cases hp
  obtain ⟨m, _, _, _, hnull⟩ := find_null hrec hall hwrap
  have hp' := searchLoop_unique hp (hnull 0)
  refine ⟨?_, fun m _ hm => hall m hm, hwrap⟩
  rcases hright with ⟨i, hi, hpi⟩ | ⟨hmissing, _⟩
  · have := hdir.fileEntries_gt hi
    omega
  · exact hmissing

/-- A file whose name has one part is found if it is the first item that fits. -/
theorem FirstFit.file_found (hlen : name.length ≤ 13)
    (h : FirstFit name false items (some (.file (unitsOf name)))) :
    ∃ fuel p, findFileInRootDirectory k fs name fuel = some p ∧ RightEntry fs items name p := by
  obtain ⟨pre, post, fuel, rfl, hfound⟩ := h.find hrec hdir hname
  refine ⟨fuel, _, hfound, Or.inl ⟨dirSize pre + 1, ?_, rfl⟩⟩
  have hcount : partCount (unitsOf name) = 1 := by
    have hpos := List.length_pos_iff.mpr (HoldsDir.drop hdir).1.1
    have hlen' : (unitsOf name).length = name.length := List.length_map _
    rw [partCount]
    omega
  rw [fileEntries_append, List.mem_append, Nat.zero_add, fileEntries, hcount]
  exact Or.inr List.mem_cons_self

/-- `NULL` is returned if nothing fits anywhere. -/
theorem FirstFit.none_found (h : FirstFit name false items none)
    (hbehind : QuietBehind k fs name (dirSize items)) :
    ∃ fuel, findFileInRootDirectory k fs name fuel = some 0 := by
  have hall : ∀ m, position k fs m < fs.rootEntryCount → IsLong k fs (position k fs m) →
      ¬ Catches k fs name (position k fs m) := by
    intro m hm hlong hcatch
    exact hbehind.quiet m (h.behind hrec hdir hname hlong hcatch) hm hlong hcatch
  obtain ⟨m, _, _, _, hnull⟩ := find_null hrec hall hbehind.wrap
  exact ⟨_, hnull 0⟩

end Result

end Walk

/-- **When a file is found by its name.** -/
theorem find_file_by_name_iff (k : Kernel) (fs : Fat16Fs) (items : List DirItem) (name : List UInt8)
    (hrec : fs.rootEntryCount < 2 ^ 16) (hdir : HoldsDir k fs 0 items) (hname : ∀ c ∈ name, c ≠ 0) :
    (∃ fuel p, findFileInRootDirectory k fs name fuel = some p ∧ RightEntry fs items name p) ↔
      FoundByName k fs items name := by
  constructor
  · rintro ⟨fuel, p, hp, hright⟩
    obtain ⟨r, hfirst⟩ := exists_firstFit name items false
    cases r with
    | some item =>
      obtain ⟨hlen, rfl⟩ := hright.of_fits hrec hdir hname hfirst hp
      exact Or.inl ⟨hlen, hfirst⟩
    | none => exact Or.inr ⟨hfirst, hright.of_none hrec hdir hname hfirst hp⟩
  · rintro (⟨hlen, hfirst⟩ | ⟨hfirst, hmissing, hbehind⟩)
    · exact hfirst.file_found hrec hdir hname hlen
    · obtain ⟨fuel, hnull⟩ := hfirst.none_found hrec hdir hname hbehind
      exact ⟨fuel, 0, hnull, Or.inr ⟨hmissing, rfl⟩⟩

/-! ## 7. A deleted file -/

/-- The entries of a name of one character. -/
def longBytes (order c : UInt8) : List UInt8 :=
  [order, c, 0, 0, 0] ++ List.replicate 6 0xff ++ [15, 0, 0] ++ List.replicate 12 0xff ++ [0, 0] ++
    List.replicate 4 0xff

def shortBytes (first : UInt8) : List UInt8 :=
  first :: List.replicate 11 0x20 ++ List.replicate 20 0

/-- A root directory at `0x90000000` with the file `a` and the deleted file `b`. -/
def deletedDir : Kernel where
  mem := ByteMemory.ofBytes 0x90000000
    (longBytes 0x41 97 ++ shortBytes 65 ++ longBytes 0xe5 98 ++ shortBytes 0xe5)
  satp := 0#64
  failed := 0

def sixteenEntries : Fat16Fs := ⟨512, 1, 4085, 16, 0x8fff0000, 0x8fff0200, 0x90000000, 0x90000200⟩

def deletedItems : List DirItem :=
  [.file [97], .deleted (some (partUnits [98] 0)), .deleted none]

theorem deletedDir_holds : HoldsDir deletedDir sixteenEntries 0 deletedItems := by
  have hlong : LongEntry deletedDir sixteenEntries 0 [97] 0 := by
    constructor
    · decide +kernel
    · decide +kernel
    · decide +kernel
  have hshort : ShortEntry deletedDir sixteenEntries 1 := by
    constructor
    · decide +kernel
    · decide +kernel
    · decide +kernel
    · decide +kernel
  refine ⟨⟨List.cons_ne_nil _ _, by decide, by decide, ?_, hshort⟩, ?_, ?_, ?_⟩
  · intro j hj
    obtain rfl : j = 0 := Nat.lt_one_iff.mp hj
    exact hlong
  · exact ⟨by decide +kernel, by decide +kernel, by decide +kernel⟩
  · exact ⟨by decide +kernel, by decide +kernel⟩
  · exact ⟨by decide, by decide +kernel⟩

theorem find_file_by_name_first :
    (∃ fuel p, findFileInRootDirectory deletedDir sixteenEntries [97] fuel = some p ∧
        RightEntry sixteenEntries deletedItems [97] p) ↔
      FoundByName deletedDir sixteenEntries deletedItems [97] :=
  find_file_by_name_iff deletedDir sixteenEntries deletedItems [97] (by decide) deletedDir_holds
    (by simp)

/-- The 8.3 entry of the deleted file is returned. -/
theorem find_file_deleted :
    HoldsDir deletedDir sixteenEntries 0 deletedItems ∧
    ¬ ∃ fuel p, findFileInRootDirectory deletedDir sixteenEntries [98] fuel = some p ∧
      RightEntry sixteenEntries deletedItems [98] p := by
  refine ⟨deletedDir_holds, ?_⟩
  rintro ⟨fuel, p, hp, hright⟩
  have hfound : findFileInRootDirectory deletedDir sixteenEntries [98] 2 = some 0x90000060 := by
    decide +kernel
  obtain rfl := searchLoop_unique hp hfound
  rcases hright with ⟨i, hi, _⟩ | ⟨_, hnull⟩
  · have hentries : fileEntries 0 deletedItems = [(1, [97])] := rfl
    rw [hentries, List.mem_singleton] at hi
    exact absurd (Prod.mk.inj hi).2 (by decide)
  · exact absurd hnull (by decide)

end IloPali
