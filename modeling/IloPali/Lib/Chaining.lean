import Mathlib.Data.List.Nodup
import Mathlib.Data.List.Pairwise
import Mathlib.Logic.Function.Basic

/-!
# Hash tables with separate chaining

A table files each entry in the bucket that an index function chooses for its key.
`Holds` says that the buckets represent a finite map; putting an entry in, taking
one out and filing all of them anew under another index function keep it.
-/

namespace Chaining

variable {κ β : Type}

/-- The entries of each bucket, in order. -/
abbrev Table (κ β : Type) := Nat → List (κ × β)

/-- The buckets represent the map `M`. -/
structure Holds (idx : κ → Nat) (t : Table κ β) (M : κ → Option β) : Prop where
  placed : ∀ i, ∀ e ∈ t i, idx e.1 = i
  nodup : ∀ i, ((t i).map Prod.fst).Nodup
  mem_iff : ∀ k v, M k = some v ↔ (k, v) ∈ t (idx k)

variable {idx : κ → Nat} {t : Table κ β} {M : κ → Option β}

theorem Holds.empty (idx : κ → Nat) : Holds (β := β) idx (fun _ => []) (fun _ => none) :=
  ⟨fun _ _ he => (nomatch he), fun _ => List.nodup_nil,
    fun _ _ => ⟨fun h => (nomatch h), fun h => (nomatch h)⟩⟩

/-- An entry of a bucket is an entry of the map. -/
theorem Holds.of_mem (h : Holds idx t M) {i : Nat} {e : κ × β} (he : e ∈ t i) :
    M e.1 = some e.2 := by
  rw [h.mem_iff, h.placed i e he]
  exact he

/-- Where the new index determines the old one, no bucket gets longer. -/
theorem Holds.length_le {idx' : κ → Nat} {t' : Table κ β} (h : Holds idx t M)
    (h' : Holds idx' t' M) {π : Nat → Nat} (hidx : ∀ k, idx k = π (idx' k)) (i : Nat) :
    (t' i).length ≤ (t (π i)).length := by
  have hsub : t' i ⊆ t (π i) := by
    intro e he
    have hmem := (h.mem_iff e.1 e.2).mp (h'.of_mem he)
    rwa [hidx, h'.placed i e he] at hmem
  have hnodup : (t' i).Nodup := (h'.nodup i).of_map
  exact hnodup.length_le_of_subset hsub

/-! ## 1. Looking up -/


def lookup [DecidableEq κ] (b : List (κ × β)) (k : κ) : Option β := (b.find? fun e => e.1 = k).map Prod.snd

/-- The first entry with the key is the one the map has. -/
theorem Holds.lookup_eq [DecidableEq κ] (h : Holds idx t M) (k : κ) : lookup (t (idx k)) k = M k := by
  unfold lookup
  cases hf : (t (idx k)).find? fun e => e.1 = k with
  | none =>
    cases hM : M k with
    | none => rfl
    | some v =>
      have hmem := (h.mem_iff k v).mp hM
      have hno := List.find?_eq_none.mp hf (k, v) hmem
      exact absurd (decide_eq_true rfl) hno
  | some e =>
    have hkey : e.1 = k := of_decide_eq_true (List.find?_some (p := fun e : κ × β => e.1 = k) hf)
    have hmem := h.of_mem (List.mem_of_find?_eq_some hf)
    rw [← hkey, hmem]
    rfl

/-! ## 2. Putting in -/

/-- Put an entry at the end of its bucket. -/
def push (idx : κ → Nat) (t : Table κ β) (e : κ × β) : Table κ β :=
  Function.update t (idx e.1) (t (idx e.1) ++ [e])

theorem mem_push {i : Nat} {e e' : κ × β} :
    e' ∈ push idx t e i ↔ e' ∈ t i ∨ (e' = e ∧ i = idx e.1) := by
  unfold push
  by_cases hi : i = idx e.1
  · subst hi
    rw [Function.update_self, List.mem_append, List.mem_singleton]
    constructor
    · rintro (h | h)
      · exact Or.inl h
      · exact Or.inr ⟨h, rfl⟩
    · rintro (h | ⟨h, _⟩)
      · exact Or.inl h
      · exact Or.inr h
  · rw [Function.update_of_ne hi]
    exact ⟨Or.inl, fun h => h.resolve_right fun hcon => hi hcon.2⟩

variable [DecidableEq κ]

theorem Holds.push (h : Holds idx t M) {e : κ × β} (hfresh : M e.1 = none) :
    Holds idx (push idx t e) (Function.update M e.1 (some e.2)) := by
  refine ⟨fun i e' he' => ?_, fun i => ?_, fun k v => ?_⟩
  · rcases mem_push.mp he' with hold | ⟨rfl, rfl⟩
    · exact h.placed i e' hold
    · rfl
  · unfold Chaining.push
    by_cases hi : i = idx e.1
    · subst hi
      rw [Function.update_self, List.map_append, List.nodup_append]
      refine ⟨h.nodup _, List.nodup_singleton _, fun a ha b hb => ?_⟩
      obtain ⟨e', he', rfl⟩ := List.mem_map.mp ha
      rw [List.map_singleton, List.mem_singleton] at hb
      rintro heq
      have hmem := h.of_mem he'
      rw [heq, hb, hfresh] at hmem
      exact nomatch hmem
    · rw [Function.update_of_ne hi]
      exact h.nodup i
  · rw [mem_push]
    by_cases hk : k = e.1
    · subst hk
      rw [Function.update_self, Option.some.injEq]
      constructor
      · rintro rfl
        exact Or.inr ⟨rfl, rfl⟩
      · rintro (hold | ⟨heq, _⟩)
        · rw [← h.mem_iff, hfresh] at hold
          exact nomatch hold
        · exact (congrArg Prod.snd heq).symm
    · rw [Function.update_of_ne hk, h.mem_iff]
      exact ⟨Or.inl, fun hor => hor.resolve_right fun hcon => hk (congrArg Prod.fst hcon.1)⟩

/-! ## 3. Taking out -/

/-- Take the first entry with a key out of its bucket. -/
def erase (idx : κ → Nat) (t : Table κ β) (k : κ) : Table κ β :=
  Function.update t (idx k) ((t (idx k)).eraseP fun e => e.1 = k)

/-- Where no key occurs twice this takes out every entry with the key. -/
theorem mem_eraseP {b : List (κ × β)} (h : (b.map Prod.fst).Nodup) (k : κ) (e : κ × β) :
    e ∈ (b.eraseP fun e => e.1 = k) ↔ e ∈ b ∧ e.1 ≠ k := by
  induction b with
  | nil => simp
  | cons e' b ih =>
    rw [List.map_cons, List.nodup_cons] at h
    by_cases hk : e'.1 = k
    · rw [List.eraseP_cons_of_pos (p := fun e : κ × β => e.1 = k) (decide_eq_true hk)]
      constructor
      · intro he
        refine ⟨List.mem_cons_of_mem _ he, fun hcon => h.1 ?_⟩
        rw [hk, ← hcon]
        exact List.mem_map_of_mem he
      · rintro ⟨he, hne⟩
        rcases List.mem_cons.mp he with rfl | he
        · exact absurd hk hne
        · exact he
    · rw [List.eraseP_cons_of_neg (p := fun e : κ × β => e.1 = k) fun hcon => hk (of_decide_eq_true hcon), List.mem_cons, ih h.2,
        List.mem_cons]
      constructor
      · rintro (rfl | ⟨he, hne⟩)
        · exact ⟨Or.inl rfl, hk⟩
        · exact ⟨Or.inr he, hne⟩
      · rintro ⟨rfl | he, hne⟩
        · exact Or.inl rfl
        · exact Or.inr ⟨he, hne⟩

theorem Holds.erase (h : Holds idx t M) (k : κ) :
    Holds idx (erase idx t k) (Function.update M k none) := by
  have hmem : ∀ i e, e ∈ Chaining.erase idx t k i ↔ e ∈ t i ∧ e.1 ≠ k := by
    intro i e
    unfold Chaining.erase
    by_cases hi : i = idx k
    · subst hi
      rw [Function.update_self]
      exact mem_eraseP (h.nodup _) k e
    · rw [Function.update_of_ne hi]
      refine ⟨fun he => ⟨he, fun hcon => hi ?_⟩, And.left⟩
      rw [← hcon]
      exact (h.placed i e he).symm
  refine ⟨fun i e he => h.placed i e ((hmem i e).mp he).1, fun i => ?_, fun k' v => ?_⟩
  · unfold Chaining.erase
    by_cases hi : i = idx k
    · subst hi
      rw [Function.update_self]
      exact (h.nodup _).sublist ((List.eraseP_sublist).map _)
    · rw [Function.update_of_ne hi]
      exact h.nodup i
  · rw [hmem]
    by_cases hk : k' = k
    · subst hk
      rw [Function.update_self]
      exact ⟨fun hcon => (nomatch hcon), fun hcon => absurd rfl hcon.2⟩
    · rw [Function.update_of_ne hk, h.mem_iff]
      exact ⟨fun he => ⟨he, hk⟩, And.left⟩

/-! ## 4. Filing anew -/

/-- Entries with different keys, none of them in the map yet, put in one by one. -/
theorem Holds.pushAll {es : List (κ × β)} {M' : κ → Option β} (h : Holds idx t M)
    (hnodup : (es.map Prod.fst).Nodup) (hfresh : ∀ e ∈ es, M e.1 = none)
    (hM' : ∀ k v, M' k = some v ↔ M k = some v ∨ (k, v) ∈ es) :
    Holds idx (es.foldl (Chaining.push idx) t) M' := by
  induction es generalizing t M with
  | nil =>
    have hsame : M' = M := by
      funext k
      apply Option.ext
      intro v
      rw [hM' k v]
      exact ⟨fun hor => hor.resolve_right fun hcon => (nomatch hcon), Or.inl⟩
    rw [hsame]
    exact h
  | cons e es ih =>
    rw [List.map_cons, List.nodup_cons] at hnodup
    have hfirst : M e.1 = none := hfresh e List.mem_cons_self
    refine ih (h.push hfirst) hnodup.2 (fun e' he' => ?_) (fun k v => ?_)
    · have hne : e'.1 ≠ e.1 := fun hcon => hnodup.1 (hcon ▸ List.mem_map_of_mem he')
      rw [Function.update_of_ne hne]
      exact hfresh e' (List.mem_cons_of_mem _ he')
    · rw [hM', List.mem_cons]
      by_cases hk : k = e.1
      · subst hk
        rw [Function.update_self, hfirst, Option.some.injEq]
        constructor
        · rintro (hcon | heq | hin)
          · exact nomatch hcon
          · exact Or.inl (congrArg Prod.snd heq).symm
          · exact Or.inr hin
        · rintro (rfl | hin)
          · exact Or.inr (Or.inl rfl)
          · exact Or.inr (Or.inr hin)
      · rw [Function.update_of_ne hk]
        constructor
        · rintro (hold | heq | hin)
          · exact Or.inl hold
          · exact absurd (congrArg Prod.fst heq) hk
          · exact Or.inr hin
        · rintro (hold | hin)
          · exact Or.inl hold
          · exact Or.inr (Or.inr hin)

/-- **Rehashing.**  All entries of the first `cap` buckets, filed anew in an empty
    table, represent the same map. -/
theorem Holds.rehash (h : Holds idx t M) {cap : Nat} (hcap : ∀ k, idx k < cap)
    (idx' : κ → Nat) :
    Holds idx' (((List.range cap).flatMap t).foldl (Chaining.push idx') fun _ => []) M := by
  refine (Holds.empty idx').pushAll ?_ (fun _ _ => rfl) (fun k v => ?_)
  · rw [List.map_flatMap, List.nodup_flatMap]
    refine ⟨fun i _ => h.nodup i, List.nodup_range.imp fun {i j} hne k hi hj => hne ?_⟩
    obtain ⟨e, he, rfl⟩ := List.mem_map.mp hi
    obtain ⟨e', he', heq⟩ := List.mem_map.mp hj
    rw [← h.placed i e he, ← h.placed j e' he', heq]
  · rw [h.mem_iff, List.mem_flatMap]
    constructor
    · exact fun hmem => Or.inr ⟨idx k, List.mem_range.mpr (hcap k), hmem⟩
    · rintro (hcon | ⟨i, _, hmem⟩)
      · exact nomatch hcon
      · rwa [h.placed i _ hmem]

/-! ## 5. Keys that occur more than once -/

/-- Every entry is in the bucket of its key. -/
def Placed (idx : κ → Nat) (t : Table κ β) : Prop := ∀ i, ∀ e ∈ t i, idx e.1 = i

/-- The values filed under a key, in order. -/
def valuesOf (idx : κ → Nat) (t : Table κ β) (k : κ) : List β :=
  ((t (idx k)).filter fun e => e.1 = k).map Prod.snd

omit [DecidableEq κ] in
theorem Placed.empty (idx : κ → Nat) : Placed (β := β) idx fun _ => [] :=
  fun _ _ he => nomatch he

omit [DecidableEq κ] in
theorem Placed.push (h : Placed idx t) (e : κ × β) : Placed idx (push idx t e) := by
  intro i e' he'
  rcases mem_push.mp he' with hold | ⟨rfl, rfl⟩
  · exact h i e' hold
  · rfl

theorem Placed.erase (h : Placed idx t) (k : κ) : Placed idx (erase idx t k) := by
  intro i e he
  unfold Chaining.erase at he
  by_cases hi : i = idx k
  · subst hi
    rw [Function.update_self] at he
    exact h _ e (List.mem_of_mem_eraseP he)
  · rw [Function.update_of_ne hi] at he
    exact h i e he

omit [DecidableEq κ] in
/-- Entries put in one by one are found in their buckets, in order. -/
theorem pushAll_apply (es : List (κ × β)) (t : Table κ β) (i : Nat) :
    es.foldl (Chaining.push idx) t i = t i ++ es.filter fun e => idx e.1 = i := by
  induction es generalizing t with
  | nil => simp
  | cons e es ih =>
    rw [List.foldl_cons, ih, Chaining.push]
    by_cases hi : idx e.1 = i
    · subst hi
      simp
    · rw [Function.update_of_ne (Ne.symm hi), List.filter_cons_of_neg (by simpa using hi)]

omit [DecidableEq κ] in
/-- Entries that can only be in one bucket are found there. -/
theorem filter_flatMap_bucket {cap i : Nat} {p : κ × β → Bool}
    (honly : ∀ j, ∀ e ∈ t j, p e = true → j = i ∧ i < cap) :
    ((List.range cap).flatMap t).filter p = (t i).filter p := by
  have hother : ∀ j, (j = i → ¬ i < cap) → (t j).filter p = [] := by
    intro j hj
    apply List.filter_eq_nil_iff.mpr
    intro e he hpe
    exact hj (honly j e he hpe).1 (honly j e he hpe).2
  rw [List.filter_flatMap]
  by_cases hin : i < cap
  · obtain ⟨front, back, hsplit⟩ := List.append_of_mem (List.mem_range.mpr hin)
    have hnodup : (front ++ i :: back).Nodup := hsplit ▸ List.nodup_range
    have hfront : front.flatMap (fun j => (t j).filter p) = [] := by
      apply List.flatMap_eq_nil_iff.mpr
      intro j hj
      apply hother
      rintro rfl
      exact absurd List.mem_cons_self (List.disjoint_of_nodup_append hnodup hj)
    have hback : back.flatMap (fun j => (t j).filter p) = [] := by
      apply List.flatMap_eq_nil_iff.mpr
      intro j hj
      apply hother
      rintro rfl
      exact absurd hj (List.nodup_cons.mp (List.nodup_append.mp hnodup).2.1).1
    rw [hsplit, List.flatMap_append, List.flatMap_cons, hfront, hback, List.nil_append,
      List.append_nil]
  · rw [hother i fun _ => hin]
    apply List.flatMap_eq_nil_iff.mpr
    intro j _
    exact hother j fun _ => hin

omit [DecidableEq κ] in
/-- Where the new index determines the old one, a new bucket takes its entries from one old
    bucket, and keeps their order. -/
theorem Placed.rehash_apply (h : Placed idx t) {cap : Nat} (hcap : ∀ k, idx k < cap)
    {idx' : κ → Nat} {π : Nat → Nat} (hidx : ∀ k, idx k = π (idx' k)) (i : Nat) :
    (((List.range cap).flatMap t).foldl (Chaining.push idx') fun _ => []) i =
      (t (π i)).filter fun e => idx' e.1 = i := by
  rw [pushAll_apply, List.nil_append]
  apply filter_flatMap_bucket
  intro j e he hnew
  have hj : j = π i := by rw [← h j e he, hidx, of_decide_eq_true hnew]
  exact ⟨hj, hj ▸ h j e he ▸ hcap e.1⟩

omit [DecidableEq κ] in
/-- An entry put in is one entry more. -/
theorem flatMap_push_perm {cap : Nat} {e : κ × β} (he : idx e.1 < cap) (t : Table κ β) :
    ((List.range cap).flatMap (Chaining.push idx t e)).Perm
      (e :: (List.range cap).flatMap t) := by
  obtain ⟨front, back, hsplit⟩ := List.append_of_mem (List.mem_range.mpr he)
  have hnodup : (front ++ idx e.1 :: back).Nodup := hsplit ▸ List.nodup_range
  have hfront : front.flatMap (Chaining.push idx t e) = front.flatMap t := by
    apply List.flatMap_congr
    intro j hj
    apply Function.update_of_ne
    rintro rfl
    exact (List.disjoint_of_nodup_append hnodup) hj List.mem_cons_self
  have hback : back.flatMap (Chaining.push idx t e) = back.flatMap t := by
    apply List.flatMap_congr
    intro j hj
    apply Function.update_of_ne
    rintro rfl
    exact (List.nodup_cons.mp (List.nodup_append.mp hnodup).2.1).1 hj
  have hself : Chaining.push idx t e (idx e.1) = t (idx e.1) ++ [e] := Function.update_self ..
  rw [hsplit, List.flatMap_append, List.flatMap_cons, List.flatMap_append, List.flatMap_cons,
    hfront, hback, hself, List.append_assoc, List.singleton_append, ← List.append_assoc]
  refine List.Perm.trans List.perm_middle ?_
  rw [List.append_assoc]

omit [DecidableEq κ] in
/-- **Filing anew loses nothing and invents nothing.** -/
theorem flatMap_pushAll_perm {cap : Nat} {es : List (κ × β)} (hes : ∀ e ∈ es, idx e.1 < cap) :
    ((List.range cap).flatMap (es.foldl (Chaining.push idx) fun _ => [])).Perm es := by
  have hstart : ∀ (es : List (κ × β)) (t : Table κ β), (∀ e ∈ es, idx e.1 < cap) →
      ((List.range cap).flatMap (es.foldl (Chaining.push idx) t)).Perm
        ((List.range cap).flatMap t ++ es) := by
    intro es
    induction es with
    | nil => simp
    | cons e es ih =>
      intro t hes
      have hrest := ih (Chaining.push idx t e) fun e' he' => hes e' (List.mem_cons_of_mem _ he')
      refine hrest.trans ?_
      refine ((flatMap_push_perm (hes e List.mem_cons_self) t).append_right es).trans ?_
      exact List.perm_middle.symm
  have hnil : (List.range cap).flatMap (fun _ => ([] : List (κ × β))) = [] := by simp
  have h := hstart es (fun _ => []) hes
  rwa [hnil, List.nil_append] at h

/-! ## 6. The values of a key -/

/-- Looking a key up finds the oldest of its values. -/
theorem lookup_eq_head? (b : List (κ × β)) (k : κ) :
    lookup b k = ((b.filter fun e => e.1 = k).map Prod.snd).head? := by
  rw [lookup, List.head?_map, List.head?_filter]

theorem valuesOf_push (t : Table κ β) (e : κ × β) (k : κ) :
    valuesOf idx (Chaining.push idx t e) k =
      valuesOf idx t k ++ if e.1 = k then [e.2] else [] := by
  unfold valuesOf Chaining.push
  by_cases hk : e.1 = k
  · subst hk
    simp
  · rw [if_neg hk, List.append_nil]
    by_cases hi : idx k = idx e.1
    · rw [hi, Function.update_self, List.filter_append,
        List.filter_cons_of_neg (by simpa using hk), List.filter_nil, List.append_nil]
    · rw [Function.update_of_ne hi]

/-- Only the oldest value of the key goes. -/
theorem valuesOf_erase (t : Table κ β) (k k' : κ) :
    valuesOf idx (Chaining.erase idx t k) k' =
      if k' = k then (valuesOf idx t k').tail else valuesOf idx t k' := by
  have hbucket : ∀ b : List (κ × β), (b.eraseP fun e => e.1 = k).filter (fun e => e.1 = k') =
      if k' = k then (b.filter fun e => e.1 = k').tail else b.filter fun e => e.1 = k' := by
    intro b
    induction b with
    | nil => simp
    | cons e b ih =>
      by_cases he : e.1 = k
      · by_cases hk : k' = k
        · subst hk
          simp [he]
        · have hne : ¬ e.1 = k' := by
            rintro rfl
            exact hk he
          rw [if_neg hk, List.filter_cons_of_neg (by simpa using hne),
            List.eraseP_cons_of_pos (by simpa using he)]
      · rw [List.eraseP_cons_of_neg (by simpa using he)]
        by_cases hk : k' = k
        · subst hk
          rw [if_pos rfl] at ih ⊢
          simp [he, ih]
        · rw [if_neg hk] at ih ⊢
          simp [List.filter_cons, ih]
  unfold valuesOf Chaining.erase
  by_cases hi : idx k' = idx k
  · rw [hi, Function.update_self, hbucket]
    split
    · rw [List.map_tail]
    · rfl
  · rw [Function.update_of_ne hi, if_neg fun hk => hi (by rw [hk])]

/-- Filing anew keeps the values of every key, in order. -/
theorem Placed.valuesOf_rehash (h : Placed idx t) {cap : Nat} (hcap : ∀ k, idx k < cap)
    {idx' : κ → Nat} {π : Nat → Nat} (hidx : ∀ k, idx k = π (idx' k)) (k : κ) :
    valuesOf idx' (((List.range cap).flatMap t).foldl (Chaining.push idx') fun _ => []) k =
      valuesOf idx t k := by
  unfold valuesOf
  rw [h.rehash_apply hcap hidx, ← hidx, List.filter_filter]
  congr 1
  apply List.filter_congr
  intro e _
  by_cases hk : e.1 = k
  · simp [hk]
  · simp [hk]

end Chaining
