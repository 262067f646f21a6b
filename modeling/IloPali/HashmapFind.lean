import IloPali.HashmapEntries
import IloPali.Lib.InOrder

/-!
# Searching a hashmap (`hashmap.c`)

`hashmap_find` resumes a search at a bucket and a slot.  It begins at that slot in every
bucket it comes to, and not only in the first: what lies in the slots below it, in a later
bucket, is passed over.
-/

namespace IloPali

open ByteMemory Transition

/-! ## 1. The search -/

section

variable (fn : List UInt8 → List UInt8 → Bool)

/-- The inner loop of `hashmap_find`: `n` slots of a bucket, from slot `j` on. -/
def Bucket.search (keySize valSize : Nat) (b : Bucket) : Nat → Nat → Option Nat
  | 0, _ => none
  | n + 1, j =>
    if fn (b.keyAt keySize j) (b.valueAt valSize j) then some j
    else Bucket.search keySize valSize b n (j + 1)

/-- The outer loop: `n` buckets, from bucket `i` on. -/
def findBuckets (h : Hashmap) (jp : Nat) : Nat → Nat → Option (Nat × Nat)
  | 0, _ => none
  | n + 1, i =>
    match (h.ring i).search fn h.keySize h.valSize ((h.ring i).len - jp) jp with
    | some j => some (i, j)
    | none => findBuckets h jp n (i + 1)

/-- `hashmap_find`, from `*ip` and `*jp` on: the value behind the pointer it returns and the
    position it stores, or `none` for `NULL`. -/
def hashmapFind (h : Hashmap) (ip jp : Nat) : Option (List UInt8 × (Nat × Nat)) :=
  (findBuckets fn h jp (h.cap - ip) ip).map fun p => ((h.ring p.1).valueAt h.valSize p.2, p)

/-- The position of each hit of `n` searches, each from the slot after the last hit. -/
def sweep (h : Hashmap) : Nat → Nat × Nat → List (Nat × Nat)
  | 0, _ => []
  | n + 1, (ip, jp) =>
    match hashmapFind fn h ip jp with
    | none => []
    | some (_, p) => p :: sweep h n (p.1, p.2 + 1)

/-! ## 2. Entries in order -/

def Hashmap.satisfies (h : Hashmap) (p : Nat × Nat) : Bool :=
  fn ((h.ring p.1).keyAt h.keySize p.2) ((h.ring p.1).valueAt h.valSize p.2)

/-- The positions of the entries that a search looks for. -/
def Hashmap.matching (h : Hashmap) : List (Nat × Nat) := h.positions.filter (h.satisfies fn)

/-- Position `p` comes before position `q`. -/
def Before (p q : Nat × Nat) : Prop := p.1 < q.1 ∨ p.1 = q.1 ∧ p.2 < q.2

/-- Position `p` does not come before slot `jp` of bucket `ip`. -/
def From (ip jp : Nat) (p : Nat × Nat) : Prop := ip < p.1 ∨ ip = p.1 ∧ jp ≤ p.2

instance (ip jp : Nat) (p : Nat × Nat) : Decidable (From ip jp p) :=
  inferInstanceAs (Decidable (ip < p.1 ∨ ip = p.1 ∧ jp ≤ p.2))

/-- The first matching entry from a position on, and where it is. -/
def Hashmap.firstFrom (h : Hashmap) (ip jp : Nat) : Option (List UInt8 × (Nat × Nat)) :=
  (h.positions.find? fun p => decide (From ip jp p) && h.satisfies fn p).map fun p =>
    ((h.ring p.1).valueAt h.valSize p.2, p)

/-- Every matching entry that the search passes over, in a later bucket at an earlier slot, comes
    behind one that it does not pass over. -/
def Unskipped (h : Hashmap) (ip jp : Nat) : Prop :=
  ∀ p ∈ h.matching fn, ip < p.1 → p.2 < jp →
    ∃ q ∈ h.matching fn, ip ≤ q.1 ∧ jp ≤ q.2 ∧ q.1 < p.1

variable {fn} {h : Hashmap}

theorem Before.asymm {p q : Nat × Nat} (hpq : Before p q) : ¬ Before q p := by
  intro hqp
  unfold Before at hpq hqp
  omega

theorem positions_sorted (h : Hashmap) : h.positions.Pairwise Before := by
  unfold Hashmap.positions
  rw [List.pairwise_flatMap]
  constructor
  · intro i _
    rw [List.pairwise_map]
    exact List.pairwise_lt_range.imp fun hlt => Or.inr ⟨rfl, hlt⟩
  · refine List.pairwise_lt_range.imp ?_
    intro i i' hlt p hp q hq
    obtain ⟨j, _, rfl⟩ := List.mem_map.mp hp
    obtain ⟨j', _, rfl⟩ := List.mem_map.mp hq
    exact Or.inl hlt

/-! ## 3. What the loops find -/

theorem search_eq (b : Bucket) (keySize valSize n j : Nat) :
    b.search fn keySize valSize n j = (List.range' j n).find? fun j =>
      fn (b.keyAt keySize j) (b.valueAt valSize j) := by
  induction n generalizing j with
  | zero => rfl
  | succ n ih =>
    rw [Bucket.search, List.range'_succ]
    split
    case isTrue hfn => simp [hfn]
    case isFalse hfn => simpa [hfn] using ih (j + 1)

/-- The loops come to the entries whose bucket is not before `*ip` and whose slot is not before
    `*jp`, in order. -/
theorem findBuckets_eq (jp n i : Nat) :
    findBuckets fn h jp n i = ((List.range' i n).flatMap fun i =>
      (List.range' jp ((h.ring i).len - jp)).map (Prod.mk i)).find? (h.satisfies fn) := by
  induction n generalizing i with
  | zero => rfl
  | succ n ih =>
    rw [findBuckets, List.range'_succ, List.flatMap_cons, List.find?_append, List.find?_map, search_eq]
    have hsame : (h.satisfies fn ∘ Prod.mk i) = fun j =>
        fn ((h.ring i).keyAt h.keySize j) ((h.ring i).valueAt h.valSize j) := rfl
    rw [hsame]
    cases (List.range' jp ((h.ring i).len - jp)).find? fun j =>
        fn ((h.ring i).keyAt h.keySize j) ((h.ring i).valueAt h.valSize j) with
    | none => simpa using ih (i + 1)
    | some j => rfl

theorem filter_le_range (a n : Nat) :
    (List.range n).filter (fun x => a ≤ x) = List.range' a (n - a) := by
  induction n with
  | zero => simp
  | succ n ih =>
    rw [List.range_succ, List.filter_append, ih]
    by_cases ha : a ≤ n
    · have hlen : n + 1 - a = n - a + 1 := by omega
      rw [hlen, List.range'_1_concat, Nat.add_sub_cancel' ha]
      simp [ha]
    · have hlen : n + 1 - a = n - a := by omega
      simp [ha, hlen]

/-- What `hashmap_find` takes for the entries from a position on. -/
theorem hashmapFind_eq (ip jp : Nat) :
    hashmapFind fn h ip jp = (h.matching fn |>.find? fun p => ip ≤ p.1 ∧ jp ≤ p.2).map fun p =>
      ((h.ring p.1).valueAt h.valSize p.2, p) := by
  have hpositions : h.positions.filter (fun p => ip ≤ p.1 ∧ jp ≤ p.2) =
      (List.range' ip (h.cap - ip)).flatMap fun i =>
        (List.range' jp ((h.ring i).len - jp)).map (Prod.mk i) := by
    unfold Hashmap.positions
    rw [← filter_le_range ip, List.filter_flatMap]
    induction List.range h.cap with
    | nil => rfl
    | cons i l ih =>
      rw [List.flatMap_cons, ih]
      by_cases hi : ip ≤ i
      · simp [hi, List.filter_map, ← filter_le_range jp, Function.comp_def]
      · simp [hi, List.filter_map, Function.comp_def]
  rw [hashmapFind, findBuckets_eq, ← hpositions, Hashmap.matching, List.find?_filter,
    List.find?_filter]
  congr 2
  funext p
  exact decide_eq_decide.mpr And.comm

/-! ## 4. One search -/

theorem firstFrom_eq (ip jp : Nat) :
    h.firstFrom fn ip jp = (h.matching fn |>.find? fun p => From ip jp p).map fun p =>
      ((h.ring p.1).valueAt h.valSize p.2, p) := by
  rw [Hashmap.firstFrom, Hashmap.matching, List.find?_filter]
  congr 2
  funext p
  simp [and_comm]

theorem hashmapFind_eq_firstFrom_iff (ip jp : Nat) :
    hashmapFind fn h ip jp = h.firstFrom fn ip jp ↔ Unskipped fn h ip jp := by
  have hinj : Function.Injective fun p : Nat × Nat =>
      ((h.ring p.1).valueAt h.valSize p.2, p) := by
    intro p q heq
    exact congrArg Prod.snd heq
  have himp : ∀ p : Nat × Nat, decide (ip ≤ p.1 ∧ jp ≤ p.2) = true →
      decide (From ip jp p) = true := by
    intro p hp
    obtain ⟨hip, hjp⟩ := of_decide_eq_true hp
    apply decide_eq_true
    rcases Nat.lt_or_eq_of_le hip with hlt | heq
    · exact Or.inl hlt
    · exact Or.inr ⟨heq, hjp⟩
  have hsorted : (h.matching fn).Pairwise Before := (positions_sorted h).filter _
  rw [hashmapFind_eq, firstFrom_eq, (Option.map_injective hinj).eq_iff,
    InOrder.find?_eq_find?_iff (fun p q => Before.asymm) himp hsorted]
  simp only [decide_eq_true_eq, decide_eq_false_iff_not]
  constructor
  · intro hall p hp hip hjp
    obtain ⟨q, hq, hbefore, hiq, hjq⟩ := hall p hp (Or.inl hip) (by omega)
    refine ⟨q, hq, hiq, hjq, ?_⟩
    rcases hbefore with hlt | ⟨_, hslot⟩
    · exact hlt
    · omega
  · intro hall p hp hfrom hskip
    rcases hfrom with hip | ⟨hip, hjp⟩
    · obtain ⟨q, hq, hiq, hjq, hlt⟩ := hall p hp hip (by omega)
      exact ⟨q, hq, Or.inl hlt, hiq, hjq⟩
    · exact absurd ⟨Nat.le_of_eq hip, hjp⟩ hskip

/-! ## 5. One search after the other -/

/-- The slots of the hits of a sweep increase. -/
theorem sweep_increases (n ip jp : Nat) :
    (sweep fn h n (ip, jp)).Pairwise (fun p q => p.2 < q.2) ∧
      ∀ p ∈ sweep fn h n (ip, jp), jp ≤ p.2 := by
  induction n generalizing ip jp with
  | zero => simp [sweep]
  | succ n ih =>
    rw [sweep]
    cases hfind : hashmapFind fn h ip jp with
    | none => simp
    | some hit =>
      obtain ⟨v, p⟩ := hit
      rw [hashmapFind_eq] at hfind
      obtain ⟨p', hp', heq⟩ := Option.map_eq_some_iff.mp hfind
      obtain rfl : p' = p := congrArg Prod.snd heq
      have hslot : jp ≤ p'.2 := (of_decide_eq_true (List.find?_some (p := fun p : Nat × Nat =>
        decide (ip ≤ p.1 ∧ jp ≤ p.2)) hp')).2
      obtain ⟨hrest, hlater⟩ := ih p'.1 (p'.2 + 1)
      refine ⟨List.pairwise_cons.mpr ⟨hlater, hrest⟩, ?_⟩
      intro q hq
      rcases List.mem_cons.mp hq with rfl | hq
      · exact hslot
      · exact Nat.le_of_lt (hslot.trans_lt (hlater q hq))

/-- Where the slots of the entries increase, a sweep comes to those that are left. -/
theorem sweep_rest {front rest : List (Nat × Nat)} (hsplit : h.matching fn = front ++ rest)
    (hslots : rest.Pairwise fun p q => p.2 < q.2) {ip jp n : Nat} (hn : rest.length ≤ n)
    (hfront : ∀ p ∈ front, p.2 < jp) (hrest : ∀ p ∈ rest, ip ≤ p.1 ∧ jp ≤ p.2) :
    sweep fn h n (ip, jp) = rest := by
  induction rest generalizing front ip jp n with
  | nil =>
    cases n with
    | zero => rfl
    | succ n =>
      have hnone : (h.matching fn).find? (fun p => ip ≤ p.1 ∧ jp ≤ p.2) = none := by
        rw [hsplit, List.append_nil, List.find?_eq_none]
        intro p hp hcon
        exact absurd (of_decide_eq_true hcon).2 (Nat.not_le.mpr (hfront p hp))
      rw [sweep, hashmapFind_eq, hnone]
      rfl
  | cons p rest ih =>
    cases n with
    | zero => exact absurd hn (by simp)
    | succ n =>
      have hfound : (h.matching fn).find? (fun p => ip ≤ p.1 ∧ jp ≤ p.2) = some p := by
        have hnone : front.find? (fun p => decide (ip ≤ p.1 ∧ jp ≤ p.2)) = none := by
          apply List.find?_eq_none.mpr
          intro q hq hcon
          exact absurd (of_decide_eq_true hcon).2 (Nat.not_le.mpr (hfront q hq))
        rw [hsplit, List.find?_append, hnone, Option.none_or]
        simp [hrest p List.mem_cons_self]
      have hsorted : (front ++ p :: rest).Pairwise Before :=
        hsplit ▸ (positions_sorted h).filter _
      obtain ⟨hlater, hslots⟩ := List.pairwise_cons.mp hslots
      rw [sweep, hashmapFind_eq, hfound]
      show p :: sweep fn h n (p.1, p.2 + 1) = p :: rest
      rw [@ih (front ++ [p]) (by rw [hsplit, List.append_assoc]; rfl) hslots p.1 (p.2 + 1) n
        (Nat.le_of_succ_le_succ hn)]
      · intro q hq
        rcases List.mem_append.mp hq with hq | hq
        · have hlt := hfront q hq
          have hle := (hrest p List.mem_cons_self).2
          omega
        · rw [List.mem_singleton.mp hq]
          exact Nat.lt_succ_self _
      · intro q hq
        have hbefore : Before p q :=
          (List.pairwise_cons.mp (List.pairwise_append.mp hsorted).2.1).1 q hq
        exact ⟨hbefore.elim Nat.le_of_lt fun heq => Nat.le_of_eq heq.1, hlater q hq⟩

theorem sweep_eq_matching_iff {n : Nat} (hn : (h.matching fn).length ≤ n) :
    sweep fn h n (0, 0) = h.matching fn ↔ (h.matching fn).Pairwise fun p q => p.2 < q.2 := by
  constructor
  · intro hsweep
    rw [← hsweep]
    exact (sweep_increases n 0 0).1
  · intro hslots
    apply @sweep_rest fn h [] (h.matching fn) rfl hslots 0 0 n hn
    · exact fun p hp => nomatch hp
    · exact fun p _ => ⟨Nat.zero_le _, Nat.zero_le _⟩

end

/-- **`hashmap_find` finds the first entry from a position on** exactly when each entry that it
    passes over comes behind one that it does not, and a sweep of the table comes to every entry
    exactly when the slots of the entries increase. -/
theorem hashmap_find_first_iff (fn : List UInt8 → List UInt8 → Bool) (h : Hashmap) :
    (∀ ip jp, hashmapFind fn h ip jp = h.firstFrom fn ip jp ↔ Unskipped fn h ip jp) ∧
      ∀ n, n > (h.matching fn).length → (sweep fn h n (0, 0) = h.matching fn ↔
        (h.matching fn).Pairwise fun p q => p.2 < q.2) :=
  ⟨hashmapFind_eq_firstFrom_iff, fun _ hn => sweep_eq_matching_iff (Nat.le_of_lt hn)⟩

/-- Two keys in two buckets. -/
def Hashmap.pair : Hashmap :=
  insertHere .empty [1] [1] (insertHere .empty [0] [0] (createHashmap 1 1))

/-- Two entries of one slot number. -/
theorem hashmap_find_first_pair :
    sweep (fun _ _ => true) .pair 3 (0, 0) = Hashmap.pair.matching (fun _ _ => true) ↔
      (Hashmap.pair.matching fun _ _ => true).Pairwise fun p q => p.2 < q.2 :=
  (hashmap_find_first_iff _ Hashmap.pair).2 3 (by decide +kernel)

/-- **The second entry is missed**: it is the first one of its bucket. -/
theorem hashmap_find_misses : ∃ ops, Run HashmapStep (createHashmap 1 1) ops Hashmap.pair ∧
    hashmapFind (fun _ _ => true) Hashmap.pair 0 0 = some ([0], (0, 0)) ∧
    hashmapFind (fun _ _ => true) Hashmap.pair 0 1 = none ∧
    Hashmap.pair.firstFrom (fun _ _ => true) 0 1 = some ([1], (5, 0)) :=
  ⟨_, .cons (.insert rfl rfl (.here .empty (by decide +kernel) (by decide) (by decide)))
    (.cons (.insert rfl rfl (.here .empty (by decide +kernel) (by decide) (by decide))) (.nil _)),
    by decide +kernel, by decide +kernel, by decide +kernel⟩

end IloPali
