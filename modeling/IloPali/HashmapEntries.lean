import IloPali.Hashmap

/-!
# What a hashmap stores (`hashmap.c`)

`hashmap_insert` never looks for its key.  A key that is inserted twice has two entries
in its bucket; `hashmap_get` and `hashmap_remove` take the older one.  And where five
entries of a bucket agree in all the bits of the hash that an index can have, growing
the table does not make room for a sixth.
-/

namespace IloPali

open ByteMemory Transition

/-! ## 1. Runs -/

/-- The calls on a hashmap, and `hashmap_grow` itself. -/
inductive HashmapOp where
  | insert (key value : List UInt8)
  | remove (key : List UInt8)
  | get (key : List UInt8)
  | grow

/-- One call.  A key may be inserted that is already there. -/
inductive HashmapStep : Hashmap → HashmapOp → Hashmap → Prop
  | insert {h h' : Hashmap} {key value : List UInt8} (hkey : key.length = h.keySize)
      (hvalue : value.length = h.valSize) (hcall : HashmapInsert key value h h') :
      HashmapStep h (.insert key value) h'
  | remove {h : Hashmap} {key : List UInt8} (hkey : key.length = h.keySize) :
      HashmapStep h (.remove key) (hashmapRemove key h)
  | get {h : Hashmap} {key : List UInt8} (hkey : key.length = h.keySize) :
      HashmapStep h (.get key) h
  | grow {h : Hashmap} (fresh : Nat → Bucket) (htable : 24 + 24 * h.cap * 2 < 2 ^ 64) :
      HashmapStep h .grow (hashmapGrow fresh h)

/-- All entries, bucket by bucket. -/
def Hashmap.allEntries (h : Hashmap) : List (List UInt8 × List UInt8) :=
  (List.range h.cap).flatMap h.entries

/-- The positions of all entries, by bucket and slot. -/
def Hashmap.positions (h : Hashmap) : List (Nat × Nat) :=
  (List.range h.cap).flatMap fun i => (List.range (h.ring i).len).map (Prod.mk i)

def Hashmap.storedKeys (h : Hashmap) : List (List UInt8) := h.allEntries.map Prod.fst

/-- The values that are stored for a key, in order. -/
def Hashmap.valuesFor (h : Hashmap) (key : List UInt8) : List (List UInt8) :=
  (h.allEntries.filter fun e => e.1 = key).map Prod.snd

theorem mem_positions {h : Hashmap} {p : Nat × Nat} :
    p ∈ h.positions ↔ p.1 < h.cap ∧ p.2 < (h.ring p.1).len := by
  obtain ⟨i, j⟩ := p
  simp [Hashmap.positions]

/-! ## 2. The index of a key -/

theorem bucketIndex_two_pow (n : Nat) (key : List UInt8) :
    bucketIndex (2 ^ n) key = (hashWrite 0 key).toNat % 2 ^ n :=
  Nat.and_two_pow_sub_one_eq_mod _ _

/-- A smaller table takes fewer bits of the same hash. -/
theorem bucketIndex_of_le {m n : Nat} (hmn : m ≤ n) (key : List UInt8) :
    bucketIndex (2 ^ m) key = bucketIndex (2 ^ n) key % 2 ^ m := by
  rw [bucketIndex_two_pow, bucketIndex_two_pow, Nat.mod_mod_of_dvd _ (Nat.pow_dvd_pow 2 hmn)]

/-- The largest table whose size does not wrap around has `2 ^ MAX_CAP_BITS` buckets. -/
def MAX_CAP_BITS : Nat := 59

theorem fits_of_lt {n : Nat} (hn : n < MAX_CAP_BITS) : 24 + 24 * 2 ^ n * 2 < 2 ^ 64 := by
  have hle : 2 ^ n ≤ 2 ^ 58 := Nat.pow_le_pow_right Nat.two_pos (Nat.le_of_lt_succ hn)
  omega

theorem lt_of_fits {n : Nat} (hfits : 24 + 24 * 2 ^ n * 2 < 2 ^ 64) : n < MAX_CAP_BITS := by
  apply Nat.lt_of_not_le
  intro hge
  have hle : 2 ^ 59 ≤ 2 ^ n := Nat.pow_le_pow_right Nat.two_pos hge
  omega

/-! ## 3. The invariant -/

/-- A table of a power of two of buckets, none of which holds more than five entries, all of
    them where their keys belong. -/
structure Filed (keySize valSize : Nat) (h : Hashmap) : Prop where
  cap : ∃ n, 4 ≤ n ∧ n ≤ MAX_CAP_BITS ∧ h.cap = 2 ^ n
  keySize : h.keySize = keySize
  valSize : h.valSize = valSize
  placed : Chaining.Placed (bucketIndex h.cap) h.entries
  room : ∀ i, (h.ring i).len ≤ HASHMAP_MAX_COLLISION_COUNT

variable {keySize valSize : Nat} {h h' : Hashmap}

@[simp] theorem length_entries (h : Hashmap) (i : Nat) :
    (h.entries i).length = (h.ring i).len :=
  Bucket.length_entries _

@[simp] theorem length_moved (h : Hashmap) (i : Nat) : (h.moved i).length = (h.ring i).len := by
  simp [Hashmap.moved]

theorem Filed.cap_pos (hf : Filed keySize valSize h) : 0 < h.cap := by
  obtain ⟨n, _, _, hn⟩ := hf.cap
  rw [hn]
  exact Nat.two_pow_pos n

theorem Filed.index_lt (hf : Filed keySize valSize h) (key : List UInt8) :
    bucketIndex h.cap key < h.cap :=
  bucketIndex_lt hf.cap_pos key

theorem Filed.index_double (hf : Filed keySize valSize h) (key : List UInt8) :
    bucketIndex h.cap key = bucketIndex (h.cap * 2) key % h.cap := by
  obtain ⟨n, _, _, hn⟩ := hf.cap
  rw [hn]
  exact bucketIndex_double n key

theorem Filed.create (keySize valSize : Nat) :
    Filed keySize valSize (createHashmap keySize valSize) := by
  have hempty : (createHashmap keySize valSize).entries = fun _ => [] := by
    funext i
    exact Bucket.entries_of_len rfl
  refine ⟨⟨4, Nat.le_refl 4, by decide, rfl⟩, rfl, rfl, ?_, fun _ => Nat.zero_le _⟩
  rw [hempty]
  exact Chaining.Placed.empty _

/-- The values that `hashmap_grow` misreads are filed under the right keys. -/
theorem Filed.moved (hf : Filed keySize valSize h) :
    Chaining.Placed (bucketIndex h.cap) h.moved := by
  intro i e he
  have hkey : e.1 ∈ (h.entries i).map Prod.fst := by
    rw [← map_fst_moved]
    exact List.mem_map_of_mem he
  obtain ⟨e', he', heq⟩ := List.mem_map.mp hkey
  rw [← heq]
  exact hf.placed i e' he'

/-- A bucket of the new table takes what it holds from one bucket of the old one. -/
theorem Filed.entries_grow (hf : Filed keySize valSize h) (fresh : Nat → Bucket) (i : Nat) :
    (hashmapGrow fresh h).entries i =
      (h.moved (i % h.cap)).filter fun e => bucketIndex (h.cap * 2) e.1 = i := by
  rw [entries_hashmapGrow]
  exact hf.moved.rehash_apply hf.index_lt (π := fun i => i % h.cap) hf.index_double i

theorem Filed.grow (hf : Filed keySize valSize h) (fresh : Nat → Bucket)
    (htable : 24 + 24 * h.cap * 2 < 2 ^ 64) : Filed keySize valSize (hashmapGrow fresh h) := by
  obtain ⟨n, hlo, _, hn⟩ := hf.cap
  refine ⟨⟨n + 1, by omega, ?_, ?_⟩, hf.keySize, hf.valSize, ?_, ?_⟩
  · rw [hn] at htable
    exact lt_of_fits htable
  · show h.cap * 2 = 2 ^ (n + 1)
    rw [hn, Nat.pow_succ]
  · intro i e he
    rw [hf.entries_grow] at he
    exact of_decide_eq_true (List.mem_filter.mp he).2
  · intro i
    rw [← length_entries, hf.entries_grow]
    refine (List.length_filter_le _ _).trans ?_
    rw [length_moved]
    exact hf.room _

theorem Filed.insertHere (hf : Filed keySize valSize h) (fresh : Bucket) {key value : List UInt8}
    (hkey : key.length = h.keySize) (hvalue : value.length = h.valSize)
    (hroom : (h.ring (bucketIndex h.cap key)).len < HASHMAP_MAX_COLLISION_COUNT) :
    Filed keySize valSize (insertHere fresh key value h) := by
  refine ⟨hf.cap, hf.keySize, hf.valSize, ?_, ?_⟩
  · rw [entries_insertHere fresh hkey hvalue]
    exact hf.placed.push (key, value)
  · intro i
    rw [← length_entries, entries_insertHere fresh hkey hvalue, Chaining.push]
    by_cases hi : i = bucketIndex h.cap key
    · subst hi
      simpa [Nat.succ_le_iff] using hroom
    · rw [Function.update_of_ne hi, length_entries]
      exact hf.room i

theorem Filed.remove (hf : Filed keySize valSize h) (key : List UInt8) :
    Filed keySize valSize (hashmapRemove key h) := by
  refine ⟨hf.cap, hf.keySize, hf.valSize, ?_, ?_⟩
  · rw [entries_hashmapRemove]
    exact hf.placed.erase key
  · intro i
    rw [← length_entries, entries_hashmapRemove, Chaining.erase]
    by_cases hi : i = bucketIndex h.cap key
    · subst hi
      rw [Function.update_self]
      refine List.eraseP_sublist.length_le.trans ?_
      rw [length_entries]
      exact hf.room _
    · rw [Function.update_of_ne hi, length_entries]
      exact hf.room i

theorem Filed.insert {key value : List UInt8} (hcall : HashmapInsert key value h h')
    (hf : Filed keySize valSize h) (hkey : key.length = h.keySize)
    (hvalue : value.length = h.valSize) : Filed keySize valSize h' := by
  induction hcall with
  | here fresh hroom => exact hf.insertHere fresh hkey hvalue hroom
  | grow fresh _ htable _ ih => exact ih (hf.grow fresh htable) hkey hvalue

theorem Filed.step {op : HashmapOp} (hf : Filed keySize valSize h) (hstep : HashmapStep h op h') :
    Filed keySize valSize h' := by
  cases hstep with
  | insert hkey hvalue hcall => exact Filed.insert hcall hf hkey hvalue
  | remove hkey => exact hf.remove _
  | get hkey => exact hf
  | grow fresh htable => exact hf.grow fresh htable

/-- **Every reachable table files its entries where they belong.** -/
theorem Filed.run {ops : List HashmapOp}
    (hrun : Run HashmapStep (createHashmap keySize valSize) ops h) : Filed keySize valSize h :=
  hrun.invariant (fun _ _ _ hf hstep => hf.step hstep) (.create keySize valSize)

/-! ## 4. Growing, entry by entry -/

/-- The entry at a position, as `hashmap_grow` takes it. -/
def Hashmap.movedAt (h : Hashmap) (p : Nat × Nat) : List UInt8 × List UInt8 :=
  (h.ring p.1).movedAt h.keySize h.valSize p.2

/-- The new ring, when the loops of `hashmap_grow` have been at some of the positions. -/
def Hashmap.grownRing (fresh : Nat → Bucket) (h : Hashmap) (l : List (Nat × Nat)) :
    Nat → Bucket :=
  l.foldl (fun ring p => growEntry fresh h (h.ring p.1) ring p.2) fun _ => .empty

/-- The two loops of `hashmap_grow` are one loop over the positions of the entries. -/
theorem hashmapGrow_ring (fresh : Nat → Bucket) (h : Hashmap) :
    (hashmapGrow fresh h).ring = h.grownRing fresh h.positions := by
  unfold Hashmap.grownRing Hashmap.positions
  rw [List.foldl_flatMap]
  simp only [List.foldl_map]
  rfl

theorem len_grownRing (fresh : Nat → Bucket) (h : Hashmap) (l : List (Nat × Nat)) (i : Nat) :
    (h.grownRing fresh l i).len =
      ((l.map h.movedAt).filter fun e => bucketIndex (h.cap * 2) e.1 = i).length := by
  have hentries : ∀ ring : Nat → Bucket, ringEntries h.keySize h.valSize
      (l.foldl (fun ring p => growEntry fresh h (h.ring p.1) ring p.2) ring) =
      (l.map h.movedAt).foldl (Chaining.push (bucketIndex (h.cap * 2)))
        (ringEntries h.keySize h.valSize ring) := by
    induction l with
    | nil => exact fun _ => rfl
    | cons p l ih =>
      intro ring
      rw [List.foldl_cons, ih, ringEntries_growEntry]
      rfl
  have hlen := congrArg List.length (congrFun (hentries fun _ => .empty) i)
  rw [Chaining.pushAll_apply, List.length_append] at hlen
  unfold ringEntries at hlen
  rw [Bucket.length_entries, Bucket.length_entries] at hlen
  exact hlen.trans (Nat.zero_add _)

/-- While a table grows, the bucket of the next entry has room for it. -/
theorem Filed.grownRing_room (hf : Filed keySize valSize h) (fresh : Nat → Bucket)
    (htable : 24 + 24 * h.cap * 2 < 2 ^ 64) {front back : List (Nat × Nat)} {p : Nat × Nat}
    (hsplit : h.positions = front ++ p :: back) :
    (h.grownRing fresh front (bucketIndex (h.cap * 2) (h.movedAt p).1)).len <
      HASHMAP_MAX_COLLISION_COUNT := by
  have hend := (hf.grow fresh htable).room (bucketIndex (h.cap * 2) (h.movedAt p).1)
  rw [hashmapGrow_ring, len_grownRing, hsplit, List.map_append, List.map_cons,
    List.filter_append] at hend
  simp only [List.filter_cons, decide_true, if_true, List.length_append, List.length_cons] at hend
  rw [len_grownRing]
  omega

/-! ## 5. Keys -/

theorem storedKeys_insertHere (hf : Filed keySize valSize h) (fresh : Bucket)
    {key value : List UInt8} (hkey : key.length = h.keySize) (hvalue : value.length = h.valSize) :
    (insertHere fresh key value h).storedKeys.Perm (key :: h.storedKeys) := by
  unfold Hashmap.storedKeys Hashmap.allEntries
  rw [entries_insertHere fresh hkey hvalue]
  have hperm := Chaining.flatMap_push_perm (e := (key, value)) (hf.index_lt key) h.entries
  exact hperm.map Prod.fst

/-- `hashmap_grow` keeps the keys. -/
theorem storedKeys_grow (hf : Filed keySize valSize h) (fresh : Nat → Bucket) :
    (hashmapGrow fresh h).storedKeys.Perm h.storedKeys := by
  have hall : (hashmapGrow fresh h).allEntries.Perm ((List.range h.cap).flatMap h.moved) := by
    unfold Hashmap.allEntries
    rw [entries_hashmapGrow]
    apply Chaining.flatMap_pushAll_perm
    intro e _
    exact bucketIndex_lt (Nat.mul_pos hf.cap_pos Nat.two_pos) e.1
  have hkeys : ((List.range h.cap).flatMap h.moved).map Prod.fst = h.storedKeys := by
    unfold Hashmap.storedKeys Hashmap.allEntries
    rw [List.map_flatMap, List.map_flatMap]
    apply List.flatMap_congr
    intro i _
    exact map_fst_moved h i
  rw [← hkeys]
  exact hall.map Prod.fst

theorem storedKeys_insert {key value : List UInt8} (hcall : HashmapInsert key value h h')
    (hf : Filed keySize valSize h) (hkey : key.length = h.keySize)
    (hvalue : value.length = h.valSize) : h'.storedKeys.Perm (key :: h.storedKeys) := by
  induction hcall with
  | here fresh hroom => exact storedKeys_insertHere hf fresh hkey hvalue
  | grow fresh _ htable _ ih =>
    exact (ih (hf.grow fresh htable) hkey hvalue).trans ((storedKeys_grow hf fresh).cons key)

/-! ## 6. Values -/

theorem length_valuesFor (h : Hashmap) (key : List UInt8) :
    (h.valuesFor key).length = h.storedKeys.count key := by
  rw [Hashmap.valuesFor, Hashmap.storedKeys, List.length_map, List.count_eq_countP,
    List.countP_map, List.countP_eq_length_filter]
  congr 1
  apply List.filter_congr
  intro e _
  rw [Bool.eq_iff_iff]
  simp

/-- The values of a key are in its bucket. -/
theorem Filed.valuesFor_eq (hf : Filed keySize valSize h) (key : List UInt8) :
    h.valuesFor key = Chaining.valuesOf (bucketIndex h.cap) h.entries key := by
  unfold Hashmap.valuesFor Hashmap.allEntries Chaining.valuesOf
  congr 1
  apply Chaining.filter_flatMap_bucket
  intro i e he hkey
  rw [← hf.placed i e he, of_decide_eq_true hkey]
  exact ⟨rfl, hf.index_lt key⟩

theorem Filed.get (hf : Filed keySize valSize h) (key : List UInt8) :
    hashmapGet key h = (h.valuesFor key).head? := by
  rw [hashmapGet_eq, Chaining.lookup_eq_head?, hf.valuesFor_eq]
  rfl

theorem Filed.valuesFor_remove (hf : Filed keySize valSize h) (key k : List UInt8) :
    (hashmapRemove key h).valuesFor k =
      if k = key then (h.valuesFor k).tail else h.valuesFor k := by
  rw [(hf.remove key).valuesFor_eq, hf.valuesFor_eq, entries_hashmapRemove]
  exact Chaining.valuesOf_erase h.entries key k

theorem Filed.valuesFor_insertHere (hf : Filed keySize valSize h) (fresh : Bucket)
    {key value : List UInt8} (hkey : key.length = h.keySize) (hvalue : value.length = h.valSize)
    (hroom : (h.ring (bucketIndex h.cap key)).len < HASHMAP_MAX_COLLISION_COUNT)
    (k : List UInt8) : (IloPali.insertHere fresh key value h).valuesFor k =
      h.valuesFor k ++ if key = k then [value] else [] := by
  rw [(hf.insertHere fresh hkey hvalue hroom).valuesFor_eq, hf.valuesFor_eq,
    entries_insertHere fresh hkey hvalue]
  exact Chaining.valuesOf_push h.entries (key, value) k

/-- Where the two strides agree, growing keeps the values of every key, and their order. -/
theorem Filed.valuesFor_grow (hf : Filed keySize valSize h) (hsizes : h.keySize = h.valSize)
    (fresh : Nat → Bucket) (htable : 24 + 24 * h.cap * 2 < 2 ^ 64) (k : List UInt8) :
    (hashmapGrow fresh h).valuesFor k = h.valuesFor k := by
  rw [(hf.grow fresh htable).valuesFor_eq, hf.valuesFor_eq, entries_hashmapGrow,
    moved_of_sizes hsizes]
  exact hf.placed.valuesOf_rehash hf.index_lt (π := fun i => i % h.cap) hf.index_double k

theorem valuesFor_insert {key value : List UInt8} (hcall : HashmapInsert key value h h')
    (hf : Filed keySize valSize h) (hkey : key.length = h.keySize)
    (hvalue : value.length = h.valSize) (hstrided : Strided h key) (k : List UInt8) :
    h'.valuesFor k = h.valuesFor k ++ if key = k then [value] else [] := by
  induction hcall with
  | here fresh hroom => exact hf.valuesFor_insertHere fresh hkey hvalue hroom k
  | grow fresh hfull htable _ ih =>
    have hsizes := hstrided.resolve_left hfull
    rw [ih (hf.grow fresh htable) hkey hvalue (Or.inr hsizes),
      hf.valuesFor_grow hsizes fresh htable]

/-- The value that is put in is not one of those that growing misreads. -/
theorem valuesFor_insert_last {key value : List UInt8} (hcall : HashmapInsert key value h h')
    (hf : Filed keySize valSize h) (hkey : key.length = h.keySize)
    (hvalue : value.length = h.valSize) : (h'.valuesFor key).getLast? = some value := by
  induction hcall with
  | here fresh hroom => simp [hf.valuesFor_insertHere fresh hkey hvalue hroom]
  | grow fresh _ htable _ ih => exact ih (hf.grow fresh htable) hkey hvalue

/-! ## 7. An insert adds an entry -/

/-- What an insert of a key does, and a remove of it after that. -/
structure AddsEntry (key value : List UInt8) (h h' : Hashmap) : Prop where
  count : ∀ k, (h'.valuesFor k).length = (h.valuesFor k).length + if key = k then 1 else 0
  values : Strided h key → ∀ k, h'.valuesFor k = h.valuesFor k ++ if key = k then [value] else []
  get : ∀ k, hashmapGet k h' = (h'.valuesFor k).head?
  remove : ∀ k, (hashmapRemove key h').valuesFor k =
    if k = key then (h'.valuesFor k).tail else h'.valuesFor k
  absent : h.valuesFor key = [] → h'.valuesFor key = [value] ∧ hashmapGet key h' = some value ∧
    hashmapGet key (hashmapRemove key h') = none

/-- **An insert adds one entry behind those that its key has**, a get reads the oldest entry of
    its key, and a remove takes that one away. -/
theorem hashmap_insert_adds_entry {ops : List HashmapOp} {key value : List UInt8}
    (hrun : Run HashmapStep (createHashmap keySize valSize) ops h) (hkey : key.length = h.keySize)
    (hvalue : value.length = h.valSize) (hcall : HashmapInsert key value h h') :
    AddsEntry key value h h' := by
  have hf := Filed.run hrun
  have hf' := Filed.insert hcall hf hkey hvalue
  have hcount : ∀ k, (h'.valuesFor k).length =
      (h.valuesFor k).length + if key = k then 1 else 0 := by
    intro k
    rw [length_valuesFor, length_valuesFor, (storedKeys_insert hcall hf hkey hvalue).count_eq,
      List.count_cons]
    simp
  constructor
  case count => exact hcount
  case values =>
    intro hstrided k
    exact valuesFor_insert hcall hf hkey hvalue hstrided k
  case get => exact hf'.get
  case remove => exact hf'.valuesFor_remove key
  case absent =>
    intro hnone
    have hone : (h'.valuesFor key).length = 1 := by simp [hcount, hnone]
    have hlast := valuesFor_insert_last hcall hf hkey hvalue
    have hvalues : h'.valuesFor key = [value] := by
      obtain ⟨v, hv⟩ := List.length_eq_one_iff.mp hone
      rw [hv] at hlast ⊢
      simpa using hlast
    refine ⟨hvalues, ?_, ?_⟩
    · rw [hf'.get, hvalues]
      rfl
    · rw [(hf'.remove key).get, hf'.valuesFor_remove, if_pos rfl, hvalues]
      rfl

/-- The first key of a table. -/
theorem hashmap_insert_adds_first : AddsEntry [7] [2, 3] (createHashmap 1 2)
    (insertHere .empty [7] [2, 3] (createHashmap 1 2)) :=
  hashmap_insert_adds_entry (.nil _) rfl rfl
    (.here .empty (by decide +kernel) (by decide) (by decide))

/-- The key `[7]`, put into a table of bytes. -/
def Hashmap.putSeven (value : UInt8) (h : Hashmap) : Hashmap := insertHere .empty [7] [value] h

theorem HashmapStep.putSeven (value : UInt8) (hkey : h.keySize = 1) (hvalue : h.valSize = 1)
    (hroom : (h.ring (bucketIndex h.cap [7])).len < HASHMAP_MAX_COLLISION_COUNT) :
    HashmapStep h (.insert [7] [value]) (h.putSeven value) :=
  .insert hkey.symm hvalue.symm (.here .empty hroom (by rw [hkey]; decide) (by rw [hvalue]; decide))

/-- **A key that is inserted twice has two entries**, and its old value is the one that is
    read. -/
theorem hashmap_insert_twice : ∃ ops h,
    Run HashmapStep (createHashmap 1 1) ops h ∧ ∃ h', HashmapInsert [7] [2] h h' ∧
      h'.valuesFor [7] = [[1], [2]] ∧ hashmapGet [7] h' = some [1] ∧
      hashmapGet [7] (hashmapRemove [7] h') = some [2] :=
  ⟨_, (createHashmap 1 1).putSeven 1,
    .cons (.putSeven 1 rfl rfl (by decide +kernel)) (.nil _), _,
    .here .empty (by decide +kernel) (by decide) (by decide),
    by decide +kernel, by decide +kernel, by decide +kernel⟩

/-! ## 8. Growing until there is room -/

/-- How many of the stored keys no table tells from a key. -/
def Hashmap.clashing (key : List UInt8) (h : Hashmap) : Nat :=
  h.storedKeys.countP fun k =>
    bucketIndex (2 ^ MAX_CAP_BITS) k = bucketIndex (2 ^ MAX_CAP_BITS) key

theorem clashing_grow (hf : Filed keySize valSize h) (fresh : Nat → Bucket) (key : List UInt8) :
    (hashmapGrow fresh h).clashing key = h.clashing key :=
  (storedKeys_grow hf fresh).countP_eq _

/-- Keys that no table tells apart share a bucket. -/
theorem Filed.clashing_eq (hf : Filed keySize valSize h) (key : List UInt8) :
    h.clashing key = (h.entries (bucketIndex h.cap key)).countP fun e =>
      bucketIndex (2 ^ MAX_CAP_BITS) e.1 = bucketIndex (2 ^ MAX_CAP_BITS) key := by
  obtain ⟨n, _, hn, hcap⟩ := hf.cap
  unfold Hashmap.clashing Hashmap.storedKeys Hashmap.allEntries
  rw [List.countP_map, List.countP_eq_length_filter, List.countP_eq_length_filter]
  congr 1
  apply Chaining.filter_flatMap_bucket
  intro i e he hclash
  have hbucket : bucketIndex h.cap e.1 = bucketIndex h.cap key := by
    rw [hcap, bucketIndex_of_le hn, bucketIndex_of_le hn, of_decide_eq_true hclash]
  rw [← hf.placed i e he, hbucket]
  exact ⟨rfl, hf.index_lt key⟩

theorem clashing_lt_of_insert {key value : List UInt8} (hcall : HashmapInsert key value h h')
    (hf : Filed keySize valSize h) : h.clashing key < HASHMAP_MAX_COLLISION_COUNT := by
  induction hcall with
  | @here h fresh hroom =>
    rw [hf.clashing_eq]
    refine Nat.lt_of_le_of_lt List.countP_le_length ?_
    rw [length_entries]
    exact hroom
  | grow fresh _ htable _ ih =>
    rw [← clashing_grow hf fresh]
    exact ih (hf.grow fresh htable)

/-- In a table of the largest size a full bucket holds five keys of one hash. -/
theorem Filed.clashing_largest (hf : Filed keySize valSize h) (hcap : h.cap = 2 ^ MAX_CAP_BITS)
    (key : List UInt8) : h.clashing key = (h.ring (bucketIndex h.cap key)).len := by
  rw [hf.clashing_eq, ← length_entries, List.countP_eq_length]
  intro e he
  rw [← hcap]
  exact decide_eq_true (hf.placed _ e he)

theorem insert_of_clashing_lt {key : List UInt8} (value : List UInt8)
    (hkeys : keySize * HASHMAP_MAX_COLLISION_COUNT < 2 ^ 64)
    (hvalues : valSize * HASHMAP_MAX_COLLISION_COUNT < 2 ^ 64) {n : Nat}
    (hf : Filed keySize valSize h) (hcap : h.cap * 2 ^ n = 2 ^ MAX_CAP_BITS)
    (hclash : h.clashing key < HASHMAP_MAX_COLLISION_COUNT) :
    ∃ h', HashmapInsert key value h h' := by
  have hput : (h.ring (bucketIndex h.cap key)).len < HASHMAP_MAX_COLLISION_COUNT →
      ∃ h', HashmapInsert key value h h' := by
    intro hroom
    exact ⟨_, .here .empty hroom (hf.keySize ▸ hkeys) (hf.valSize ▸ hvalues)⟩
  induction n generalizing h with
  | zero =>
    apply hput
    rw [← hf.clashing_largest (by simpa using hcap)]
    exact hclash
  | succ n ih =>
    by_cases hroom : (h.ring (bucketIndex h.cap key)).len < HASHMAP_MAX_COLLISION_COUNT
    · exact hput hroom
    · obtain ⟨m, _, _, hm⟩ := hf.cap
      have htable : 24 + 24 * h.cap * 2 < 2 ^ 64 := by
        rw [hm, ← Nat.pow_add] at hcap
        have hsum := Nat.pow_right_injective (Nat.le_refl 2) hcap
        rw [hm]
        apply fits_of_lt
        omega
      have hgrown : (hashmapGrow (fun _ => .empty) h).cap * 2 ^ n = 2 ^ MAX_CAP_BITS := by
        rw [← hcap, Nat.pow_succ, Nat.mul_comm (2 ^ n) 2, ← Nat.mul_assoc]
        rfl
      obtain ⟨h', hcall⟩ := ih (hf.grow _ htable) hgrown (by rwa [clashing_grow hf])
        fun hroom => ⟨_, .here .empty hroom (hf.keySize ▸ hkeys) (hf.valSize ▸ hvalues)⟩
      exact ⟨h', .grow _ hroom htable hcall⟩

/-- **An insert ends** exactly when fewer than five of the stored keys agree with its key in
    all the bits of the hash that an index can have. -/
theorem hashmap_insert_ends_iff {ops : List HashmapOp}
    (hkeys : keySize * HASHMAP_MAX_COLLISION_COUNT < 2 ^ 64)
    (hvalues : valSize * HASHMAP_MAX_COLLISION_COUNT < 2 ^ 64)
    (hrun : Run HashmapStep (createHashmap keySize valSize) ops h) (key value : List UInt8) :
    (∃ h', HashmapInsert key value h h') ↔ h.clashing key < HASHMAP_MAX_COLLISION_COUNT := by
  have hf := Filed.run hrun
  constructor
  · rintro ⟨h', hcall⟩
    exact clashing_lt_of_insert hcall hf
  · intro hclash
    obtain ⟨n, _, hn, hcap⟩ := hf.cap
    refine insert_of_clashing_lt value hkeys hvalues hf (n := MAX_CAP_BITS - n) ?_ hclash
    rw [hcap, ← Nat.pow_add, Nat.add_sub_cancel' hn]

/-- An empty table. -/
theorem hashmap_insert_ends_empty : (∃ h', HashmapInsert [7] [2, 3] (createHashmap 1 2) h') ↔
    (createHashmap 1 2).clashing [7] < HASHMAP_MAX_COLLISION_COUNT :=
  hashmap_insert_ends_iff (by decide) (by decide) (.nil _) [7] [2, 3]

/-- Five entries of one key. -/
def Hashmap.sevens : Hashmap :=
  ((((((createHashmap 1 1).putSeven 1).putSeven 2).putSeven 3).putSeven 4).putSeven 5)

/-- **The sixth entry of a key is never put in.** -/
theorem hashmap_insert_never_ends : ∃ ops h, Run HashmapStep (createHashmap 1 1) ops h ∧
    ¬ ∃ h', HashmapInsert [7] [6] h h' := by
  have hrun : Run HashmapStep (createHashmap 1 1) _ Hashmap.sevens :=
    .cons (.putSeven 1 rfl rfl (by decide +kernel)) <|
      .cons (.putSeven 2 rfl rfl (by decide +kernel)) <|
        .cons (.putSeven 3 rfl rfl (by decide +kernel)) <|
          .cons (.putSeven 4 rfl rfl (by decide +kernel)) <|
            .cons (.putSeven 5 rfl rfl (by decide +kernel)) (.nil _)
  refine ⟨_, _, hrun, ?_⟩
  rintro ⟨h', hcall⟩
  have hclash : Hashmap.sevens.clashing [7] = 5 := by decide +kernel
  have hlt := clashing_lt_of_insert hcall (Filed.run hrun)
  rw [hclash] at hlt
  exact absurd hlt (by decide)

end IloPali
