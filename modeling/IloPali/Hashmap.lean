import IloPali.Lib.Chaining
import IloPali.Lib.Transition
import IloPali.Lib.ByteMemory

/-!
# The hashmap (`hashmap.c`)

Each bucket keeps its keys and its values in two blocks of bytes, five of each, with
strides of their own.  An insert that meets a full bucket doubles the table, and
`hashmap_grow` walks the values of an old bucket with the stride of its keys.  This
module proves that the hashmap is a finite map as long as it does not grow, and that
it may grow where keys and values are equally large.
-/

namespace IloPali

open ByteMemory Transition

/-! ## 1. The hash -/

/-- `hash_word64`, with the rotation by `ROTATE` bits. -/
def hashWord64 (a b : BitVec 64) : BitVec 64 :=
  (((a <<< 5) ||| (a >>> 59)) ^^^ b) * 0x517cc1b727220a95#64

/-- The little-endian word that starts at a pointer to `bytes`. -/
def wordOf (bytes : List UInt8) : BitVec 64 :=
  BitVec.ofNat 64 (bytes.foldr (fun b acc => b.toNat + 256 * acc) 0)

/-- The loop of `hash_write`, `n` words. -/
def hashWords : Nat → BitVec 64 → List UInt8 → BitVec 64
  | 0, hash, _ => hash
  | n + 1, hash, bytes => hashWords n (hashWord64 hash (wordOf (bytes.take 8))) (bytes.drop 8)

/-- One of the tests of `hash_write` for what is left: `n` bytes more, if there are as many. -/
def hashRest (n : Nat) (s : BitVec 64 × List UInt8) : BitVec 64 × List UInt8 :=
  if s.2.length ≥ n then (hashWord64 s.1 (wordOf (s.2.take n)), s.2.drop n) else s

/-- `hash_write`. -/
def hashWrite (hash : BitVec 64) (bytes : List UInt8) : BitVec 64 :=
  let words := bytes.length / 8
  (hashRest 1 (hashRest 2 (hashRest 4 (hashWords words hash bytes, bytes.drop (8 * words))))).1

/-! ## 2. The table -/

/-- `struct s_hashmap_bucket`, with the blocks behind its two pointers. -/
structure Bucket where
  keys : Mem
  values : Mem
  len : Nat

structure Hashmap where
  cap : Nat
  keySize : Nat
  valSize : Nat
  ring : Nat → Bucket

def INITIAL_HASHMAP_SIZE : Nat := 16
def HASHMAP_MAX_COLLISION_COUNT : Nat := 5

/-- A bucket whose pointers are `NULL`. -/
def Bucket.empty : Bucket := ⟨fun _ => 0, fun _ => 0, 0⟩

/-- `create_hashmap`. -/
def createHashmap (keySize valSize : Nat) : Hashmap :=
  ⟨INITIAL_HASHMAP_SIZE, keySize, valSize, fun _ => .empty⟩

/-- `hash & (cap - 1)`. -/
def bucketIndex (cap : Nat) (key : List UInt8) : Nat := (hashWrite 0 key).toNat &&& (cap - 1)

/-- The lines that `hashmap_insert` and `hashmap_grow` share: new blocks for an empty
    bucket (`fresh` is what they hold), and a key and a value behind those that are there. -/
def Bucket.push (b fresh : Bucket) (keySize valSize : Nat) (key value : Nat → UInt8) : Bucket :=
  let b := if b.len = 0 then { b with keys := fresh.keys, values := fresh.values } else b
  ⟨patch b.keys (b.len * keySize) keySize key, patch b.values (b.len * valSize) valSize value,
    b.len + 1⟩

/-- The body of the inner loop of `hashmap_grow`: entry `j` of an old bucket. -/
def growEntry (fresh : Nat → Bucket) (h : Hashmap) (bucket : Bucket) (ring : Nat → Bucket)
    (j : Nat) : Nat → Bucket :=
  let index := bucketIndex (h.cap * 2) (slice bucket.keys (j * h.keySize) h.keySize)
  Function.update ring index ((ring index).push (fresh index) h.keySize h.valSize
    (fun i => bucket.keys (j * h.keySize + i)) (fun i => bucket.values (j * h.keySize + i)))

/-- `hashmap_grow`. -/
def hashmapGrow (fresh : Nat → Bucket) (h : Hashmap) : Hashmap :=
  { h with
    cap := h.cap * 2
    ring := (List.range h.cap).foldl (fun ring i =>
      (List.range (h.ring i).len).foldl (growEntry fresh h (h.ring i)) ring) fun _ => .empty }

/-- The first index at which the bucket has the key, `memeq` at each. -/
def Bucket.find (keySize : Nat) (key : List UInt8) (b : Bucket) : Option Nat :=
  ((List.range b.len).map fun i => slice b.keys (i * keySize) keySize).findIdx? (· = key)

/-- `hashmap_get`: the bytes behind the pointer it returns, or `none` for `NULL`. -/
def hashmapGet (key : List UInt8) (h : Hashmap) : Option (List UInt8) :=
  let bucket := h.ring (bucketIndex h.cap key)
  (bucket.find h.keySize key).map fun i => slice bucket.values (i * h.valSize) h.valSize

/-- `hashmap_empty`. -/
def hashmapEmpty (h : Hashmap) : Bool := (List.range h.cap).all fun i => (h.ring i).len = 0

/-- The loop of `hashmap_remove` that moves `n` entries down by one, from index `j` on. -/
def Bucket.shift (keySize valSize : Nat) : Nat → Nat → Bucket → Bucket
  | 0, _, b => b
  | n + 1, j, b => Bucket.shift keySize valSize n (j + 1)
      { b with
        keys := patch b.keys (j * keySize) keySize fun i => b.keys ((j + 1) * keySize + i)
        values := patch b.values (j * valSize) valSize fun i => b.values ((j + 1) * valSize + i) }

/-- `hashmap_remove`. -/
def hashmapRemove (key : List UInt8) (h : Hashmap) : Hashmap :=
  let index := bucketIndex h.cap key
  let bucket := h.ring index
  let bucket := match bucket.find h.keySize key with
    | none => bucket
    | some i => { bucket.shift h.keySize h.valSize (bucket.len - i) i with len := bucket.len - 1 }
  { h with ring := Function.update h.ring index (if bucket.len = 0 then .empty else bucket) }

/-- One turn of the loop of `hashmap_insert` that finds room. -/
def insertHere (fresh : Bucket) (key value : List UInt8) (h : Hashmap) : Hashmap :=
  let index := bucketIndex h.cap key
  { h with
    ring := Function.update h.ring index ((h.ring index).push fresh h.keySize h.valSize
      (fun i => key.getD i 0) (fun i => value.getD i 0)) }

/-- `hashmap_insert`, where it returns: it may have to grow the table several times.  The
    sizes it asks `malloc` for are the ones it means, so none of them wraps around. -/
inductive HashmapInsert (key value : List UInt8) : Hashmap → Hashmap → Prop
  | here {h : Hashmap} (fresh : Bucket)
      (hroom : (h.ring (bucketIndex h.cap key)).len < HASHMAP_MAX_COLLISION_COUNT)
      (hkeys : h.keySize * HASHMAP_MAX_COLLISION_COUNT < 2 ^ 64)
      (hvalues : h.valSize * HASHMAP_MAX_COLLISION_COUNT < 2 ^ 64) :
      HashmapInsert key value h (insertHere fresh key value h)
  | grow {h h' : Hashmap} (fresh : Nat → Bucket)
      (hfull : ¬ (h.ring (bucketIndex h.cap key)).len < HASHMAP_MAX_COLLISION_COUNT)
      (htable : 24 + 24 * h.cap * 2 < 2 ^ 64)
      (hrest : HashmapInsert key value (hashmapGrow fresh h) h') : HashmapInsert key value h h'

/-! ## 3. Runs -/

/-- The table, and beside it what was last inserted for each key and not removed since. -/
structure MapState where
  table : Hashmap
  contents : List UInt8 → Option (List UInt8)

inductive MapOp where
  | insert (key value : List UInt8)
  | remove (key : List UInt8)
  | get (key : List UInt8)

/-- One call.  Only keys that are not present are inserted. -/
inductive MapStep : MapState → MapOp → MapState → Prop
  | insert {s : MapState} {key value : List UInt8} {h : Hashmap}
      (hkey : key.length = s.table.keySize) (hvalue : value.length = s.table.valSize)
      (habsent : s.contents key = none) (hcall : HashmapInsert key value s.table h) :
      MapStep s (.insert key value) ⟨h, Function.update s.contents key (some value)⟩
  | remove {s : MapState} {key : List UInt8} (hkey : key.length = s.table.keySize) :
      MapStep s (.remove key) ⟨hashmapRemove key s.table, Function.update s.contents key none⟩
  | get (s : MapState) (key : List UInt8) : MapStep s (.get key) s

/-! ## 4. Entries -/

namespace Bucket

def keyAt (keySize : Nat) (b : Bucket) (j : Nat) : List UInt8 := slice b.keys (j * keySize) keySize

def valueAt (valSize : Nat) (b : Bucket) (j : Nat) : List UInt8 :=
  slice b.values (j * valSize) valSize

/-- What a bucket holds, in order. -/
def entries (keySize valSize : Nat) (b : Bucket) : List (List UInt8 × List UInt8) :=
  (List.range b.len).map fun j => (b.keyAt keySize j, b.valueAt valSize j)

variable {keySize valSize : Nat}

@[simp] theorem length_entries (b : Bucket) : (b.entries keySize valSize).length = b.len := by
  rw [entries, List.length_map, List.length_range]

theorem entries_of_len {b : Bucket} (h : b.len = 0) : b.entries keySize valSize = [] := by
  rw [entries, h, List.range_zero, List.map_nil]

theorem entries_push (b fresh : Bucket) (key value : Nat → UInt8) :
    (b.push fresh keySize valSize key value).entries keySize valSize =
      b.entries keySize valSize ++
        [((List.range keySize).map key, (List.range valSize).map value)] := by
  have hold : ∀ keys values : Mem, (b.len = 0 ∨ keys = b.keys ∧ values = b.values) →
      (Bucket.mk (patch keys (b.len * keySize) keySize key)
        (patch values (b.len * valSize) valSize value) (b.len + 1)).entries keySize valSize =
      b.entries keySize valSize ++
        [((List.range keySize).map key, (List.range valSize).map value)] := by
    intro keys values hkeep
    rw [entries, List.range_succ, List.map_append, List.map_singleton, entries]
    congr 1
    · apply List.map_congr_left
      intro j hj
      have hj' : j < b.len := List.mem_range.mp hj
      rcases hkeep with h0 | ⟨rfl, rfl⟩
      · omega
      · exact Prod.ext (slice_patch_block _ _ (Nat.ne_of_lt hj'))
          (slice_patch_block _ _ (Nat.ne_of_lt hj'))
    · rw [keyAt, valueAt, slice_patch_same, slice_patch_same]
  unfold push
  by_cases h0 : b.len = 0
  · rw [if_pos h0]
    exact hold _ _ (Or.inl h0)
  · rw [if_neg h0]
    exact hold _ _ (Or.inr ⟨rfl, rfl⟩)

theorem find_eq (key : List UInt8) (b : Bucket) :
    b.find keySize key = (b.entries keySize valSize).findIdx? fun e => e.1 = key := by
  rw [find, entries, List.findIdx?_map, List.findIdx?_map]
  rfl

/-- What the loop of `hashmap_remove` does to the entries. -/
theorem shift_spec (n j : Nat) (b : Bucket) :
    (b.shift keySize valSize n j).len = b.len ∧
    ∀ i, (b.shift keySize valSize n j).keyAt keySize i =
        b.keyAt keySize (if j ≤ i ∧ i < j + n then i + 1 else i) ∧
      (b.shift keySize valSize n j).valueAt valSize i =
        b.valueAt valSize (if j ≤ i ∧ i < j + n then i + 1 else i) := by
  induction n generalizing j b with
  | zero =>
    refine ⟨rfl, fun i => ?_⟩
    rw [if_neg (by omega), shift]
    exact ⟨rfl, rfl⟩
  | succ n ih =>
    rw [shift]
    obtain ⟨hlen, hentries⟩ := ih (j + 1)
      { b with
        keys := patch b.keys (j * keySize) keySize fun i => b.keys ((j + 1) * keySize + i)
        values := patch b.values (j * valSize) valSize fun i => b.values ((j + 1) * valSize + i) }
    refine ⟨hlen, fun i => ?_⟩
    rw [(hentries i).1, (hentries i).2]
    by_cases hi : i = j
    · subst hi
      rw [if_neg (by omega), if_pos (by omega)]
      unfold keyAt valueAt
      dsimp only
      exact ⟨slice_patch_same b.keys _ _ _, slice_patch_same b.values _ _ _⟩
    · -- the entry that is read is not the one that was written first
      have hsame : (if j + 1 ≤ i ∧ i < j + 1 + n then i + 1 else i) =
          if j ≤ i ∧ i < j + (n + 1) then i + 1 else i := by
        by_cases hin : j + 1 ≤ i ∧ i < j + 1 + n
        · rw [if_pos hin, if_pos (by omega)]
        · rw [if_neg hin, if_neg (by omega)]
      rw [hsame]
      have hne : (if j ≤ i ∧ i < j + (n + 1) then i + 1 else i) ≠ j := by
        split
        · omega
        · exact hi
      unfold keyAt valueAt
      dsimp only
      exact ⟨slice_patch_block b.keys _ hne, slice_patch_block b.values _ hne⟩

theorem entries_remove {b : Bucket} {i : Nat} (hi : i < b.len) :
    ({ b.shift keySize valSize (b.len - i) i with len := b.len - 1 } : Bucket).entries
        keySize valSize = (b.entries keySize valSize).eraseIdx i := by
  obtain ⟨_, hshift⟩ := @shift_spec keySize valSize (b.len - i) i b
  have hread : ({ b.shift keySize valSize (b.len - i) i with len := b.len - 1 } : Bucket).entries
      keySize valSize = (List.range (b.len - 1)).map fun j =>
        (b.keyAt keySize (if j < i then j else j + 1),
          b.valueAt valSize (if j < i then j else j + 1)) := by
    apply List.map_congr_left
    intro j hj
    have hj' : j < b.len - 1 := List.mem_range.mp hj
    have hindex : (if i ≤ j ∧ j < i + (b.len - i) then j + 1 else j) =
        if j < i then j else j + 1 := by
      by_cases hlt : j < i
      · rw [if_pos hlt, if_neg (by omega)]
      · rw [if_neg hlt, if_pos (by omega)]
    rw [← hindex]
    exact Prod.ext (hshift j).1 (hshift j).2
  rw [hread]
  apply List.ext_getElem
  · rw [List.length_map, List.length_range, List.length_eraseIdx_of_lt (by rwa [length_entries]),
      length_entries]
  · intro j h1 h2
    rw [List.getElem_eraseIdx]
    simp only [entries, List.getElem_map, List.getElem_range]
    split
    · rfl
    · rfl

end Bucket

/-! ## 5. The table as chains of entries -/

/-- The entries of each bucket of a ring. -/
def ringEntries (keySize valSize : Nat) (ring : Nat → Bucket) :
    Chaining.Table (List UInt8) (List UInt8) := fun i => (ring i).entries keySize valSize

def Hashmap.entries (h : Hashmap) : Chaining.Table (List UInt8) (List UInt8) :=
  ringEntries h.keySize h.valSize h.ring

/-- Replacing one bucket replaces its entries. -/
theorem ringEntries_update (keySize valSize : Nat) (ring : Nat → Bucket) (i : Nat) (b : Bucket) :
    ringEntries keySize valSize (Function.update ring i b) =
      Function.update (ringEntries keySize valSize ring) i (b.entries keySize valSize) := by
  funext j
  unfold ringEntries
  by_cases hj : j = i
  · subst hj
    rw [Function.update_self, Function.update_self]
  · rw [Function.update_of_ne hj, Function.update_of_ne hj]

theorem bucketIndex_lt {cap : Nat} (hcap : 0 < cap) (key : List UInt8) :
    bucketIndex cap key < cap :=
  Nat.lt_of_le_of_lt Nat.and_le_right (Nat.sub_lt hcap Nat.one_pos)

/-- In a table of twice the size, the low bits of an index are the old index. -/
theorem bucketIndex_double (n : Nat) (key : List UInt8) :
    bucketIndex (2 ^ n) key = bucketIndex (2 ^ n * 2) key % 2 ^ n := by
  rw [bucketIndex, bucketIndex, ← Nat.pow_succ, Nat.and_two_pow_sub_one_eq_mod,
    Nat.and_two_pow_sub_one_eq_mod, Nat.mod_mod_of_dvd _ (Nat.pow_dvd_pow 2 (Nat.le_succ n))]

theorem entries_insertHere {h : Hashmap} (fresh : Bucket) {key value : List UInt8}
    (hkey : key.length = h.keySize) (hvalue : value.length = h.valSize) :
    (insertHere fresh key value h).entries =
      Chaining.push (bucketIndex h.cap) h.entries (key, value) := by
  show ringEntries h.keySize h.valSize (Function.update h.ring _ _) = _
  rw [ringEntries_update, Bucket.entries_push, map_getD_range hkey, map_getD_range hvalue]
  rfl

/-- What `hashmap_grow` takes for an entry: it walks the values with the stride of the keys. -/
def Bucket.movedAt (keySize valSize : Nat) (b : Bucket) (j : Nat) : List UInt8 × List UInt8 :=
  (b.keyAt keySize j, slice b.values (j * keySize) valSize)

/-- The entries that `hashmap_grow` files anew. -/
def Hashmap.moved (h : Hashmap) : Chaining.Table (List UInt8) (List UInt8) := fun i =>
  (List.range (h.ring i).len).map ((h.ring i).movedAt h.keySize h.valSize)

/-- Where the two strides agree, `hashmap_grow` takes the entries as they are. -/
theorem moved_of_sizes {h : Hashmap} (hsizes : h.keySize = h.valSize) : h.moved = h.entries := by
  funext i
  apply List.map_congr_left
  intro j _
  rw [Bucket.movedAt, Bucket.valueAt, hsizes]

theorem map_fst_moved (h : Hashmap) (i : Nat) :
    (h.moved i).map Prod.fst = (h.entries i).map Prod.fst := by
  rw [Hashmap.moved, Hashmap.entries, ringEntries, Bucket.entries, List.map_map, List.map_map]
  rfl

theorem ringEntries_growEntry (fresh : Nat → Bucket) (h : Hashmap) (bucket : Bucket)
    (ring : Nat → Bucket) (j : Nat) :
    ringEntries h.keySize h.valSize (growEntry fresh h bucket ring j) =
      Chaining.push (bucketIndex (h.cap * 2)) (ringEntries h.keySize h.valSize ring)
        (bucket.movedAt h.keySize h.valSize j) := by
  unfold growEntry
  dsimp only
  rw [ringEntries_update, Bucket.entries_push]
  rfl

theorem entries_hashmapGrow (fresh : Nat → Bucket) (h : Hashmap) :
    (hashmapGrow fresh h).entries = ((List.range h.cap).flatMap h.moved).foldl
      (Chaining.push (bucketIndex (h.cap * 2))) fun _ => [] := by
  -- the two nested loops are one fold over all entries
  have hbucket : ∀ (i : Nat) (ring : Nat → Bucket), ringEntries h.keySize h.valSize
      ((List.range (h.ring i).len).foldl (growEntry fresh h (h.ring i)) ring) =
      (h.moved i).foldl (Chaining.push (bucketIndex (h.cap * 2)))
        (ringEntries h.keySize h.valSize ring) := by
    intro i ring
    rw [Hashmap.moved, List.foldl_map]
    exact (List.foldl_hom (ringEntries h.keySize h.valSize)
      fun ring j => (ringEntries_growEntry fresh h (h.ring i) ring j).symm).symm
  have hempty : ringEntries h.keySize h.valSize (fun _ => Bucket.empty) = fun _ => [] := by
    funext i
    exact Bucket.entries_of_len rfl
  rw [List.foldl_flatMap, ← hempty]
  exact (List.foldl_hom (ringEntries h.keySize h.valSize) fun ring i => (hbucket i ring).symm).symm

theorem entries_hashmapRemove (key : List UInt8) (h : Hashmap) :
    (hashmapRemove key h).entries = Chaining.erase (bucketIndex h.cap) h.entries key := by
  show ringEntries h.keySize h.valSize (Function.update h.ring _ _) = _
  rw [ringEntries_update]
  have hdrop : ∀ b : Bucket, (if b.len = 0 then Bucket.empty else b).entries h.keySize h.valSize =
      b.entries h.keySize h.valSize := by
    intro b
    by_cases h0 : b.len = 0
    · rw [if_pos h0, Bucket.entries_of_len h0, Bucket.entries_of_len rfl]
    · rw [if_neg h0]
  rw [hdrop, Chaining.erase, List.eraseP_eq_eraseIdx]
  congr 1
  show _ = match ((h.ring (bucketIndex h.cap key)).entries h.keySize h.valSize).findIdx?
      (fun e => e.1 = key) with
    | none => (h.ring (bucketIndex h.cap key)).entries h.keySize h.valSize
    | some i => ((h.ring (bucketIndex h.cap key)).entries h.keySize h.valSize).eraseIdx i
  rw [@Bucket.find_eq h.keySize h.valSize]
  cases hf : ((h.ring (bucketIndex h.cap key)).entries h.keySize h.valSize).findIdx?
      (fun e => e.1 = key) with
  | none => rfl
  | some i =>
    obtain ⟨hi, _⟩ := List.findIdx?_eq_some_iff_getElem.mp hf
    rw [Bucket.length_entries] at hi
    exact Bucket.entries_remove hi

theorem hashmapGet_eq (key : List UInt8) (h : Hashmap) :
    hashmapGet key h = Chaining.lookup (h.entries (bucketIndex h.cap key)) key := by
  rw [hashmapGet, Chaining.lookup, List.find?_eq_bind_findIdx?_getElem?,
    @Bucket.find_eq h.keySize h.valSize]
  show _ = Option.map Prod.snd ((((h.ring (bucketIndex h.cap key)).entries h.keySize
    h.valSize).findIdx? (fun e => e.1 = key)).bind
      (((h.ring (bucketIndex h.cap key)).entries h.keySize h.valSize)[·]?))
  cases hf : ((h.ring (bucketIndex h.cap key)).entries h.keySize h.valSize).findIdx?
      (fun e => e.1 = key) with
  | none => rfl
  | some i =>
    obtain ⟨hi, _⟩ := List.findIdx?_eq_some_iff_getElem.mp hf
    rw [Option.bind_some, List.getElem?_eq_getElem hi]
    simp only [Bucket.entries, List.getElem_map, List.getElem_range, Option.map_some]
    rfl

/-! ## 6. A finite map -/

/-- The table is a finite map, and no bucket holds more than its blocks have room for. -/
structure Represents (h : Hashmap) (M : List UInt8 → Option (List UInt8)) : Prop where
  cap : ∃ n, h.cap = 2 ^ n
  holds : Chaining.Holds (bucketIndex h.cap) h.entries M
  room : ∀ i, (h.ring i).len ≤ HASHMAP_MAX_COLLISION_COUNT

theorem Represents.cap_pos {h : Hashmap} {M : List UInt8 → Option (List UInt8)}
    (hrep : Represents h M) : 0 < h.cap := by
  obtain ⟨n, hn⟩ := hrep.cap
  rw [hn]
  exact Nat.two_pow_pos n

theorem Represents.create (keySize valSize : Nat) :
    Represents (createHashmap keySize valSize) fun _ => none := by
  refine ⟨⟨4, rfl⟩, ?_, fun _ => Nat.zero_le _⟩
  have hempty : (createHashmap keySize valSize).entries = fun _ => [] := by
    funext i
    exact Bucket.entries_of_len rfl
  rw [hempty]
  exact Chaining.Holds.empty _

theorem Represents.grow {h : Hashmap} {M : List UInt8 → Option (List UInt8)}
    (hrep : Represents h M) (hsizes : h.keySize = h.valSize) (fresh : Nat → Bucket) :
    Represents (hashmapGrow fresh h) M := by
  obtain ⟨n, hn⟩ := hrep.cap
  have hholds : Chaining.Holds (bucketIndex (h.cap * 2)) (hashmapGrow fresh h).entries M := by
    rw [entries_hashmapGrow, moved_of_sizes hsizes]
    exact hrep.holds.rehash (bucketIndex_lt hrep.cap_pos) _
  refine ⟨⟨n + 1, ?_⟩, hholds, fun i => ?_⟩
  · show h.cap * 2 = 2 ^ (n + 1)
    rw [hn, Nat.pow_succ]
  · -- a bucket of the new table takes its entries from one bucket of the old one
    have hle := hrep.holds.length_le hholds (π := fun i => i % h.cap) (fun key => by
      rw [hn]
      exact bucketIndex_double n key) i
    unfold Hashmap.entries ringEntries at hle
    rw [Bucket.length_entries, Bucket.length_entries] at hle
    exact hle.trans (hrep.room _)

theorem Represents.insertHere {h : Hashmap} {M : List UInt8 → Option (List UInt8)}
    (hrep : Represents h M) (fresh : Bucket) {key value : List UInt8}
    (hkey : key.length = h.keySize) (hvalue : value.length = h.valSize) (habsent : M key = none)
    (hroom : (h.ring (bucketIndex h.cap key)).len < HASHMAP_MAX_COLLISION_COUNT) :
    Represents (insertHere fresh key value h) (Function.update M key (some value)) := by
  refine ⟨hrep.cap, ?_, fun i => ?_⟩
  · rw [entries_insertHere fresh hkey hvalue]
    exact hrep.holds.push (e := (key, value)) habsent
  · show (Function.update h.ring _ _ i).len ≤ _
    by_cases hi : i = bucketIndex h.cap key
    · subst hi
      rw [Function.update_self]
      unfold Bucket.push
      dsimp only
      split
      · exact hroom
      · exact hroom
    · rw [Function.update_of_ne hi]
      exact hrep.room i

/-- The bucket has room, or the two strides of the table agree. -/
def Strided (h : Hashmap) (key : List UInt8) : Prop :=
  (h.ring (bucketIndex h.cap key)).len < HASHMAP_MAX_COLLISION_COUNT ∨ h.keySize = h.valSize

theorem Represents.insert {h h' : Hashmap} {M : List UInt8 → Option (List UInt8)}
    {key value : List UInt8} (hcall : HashmapInsert key value h h') (hrep : Represents h M)
    (hkey : key.length = h.keySize) (hvalue : value.length = h.valSize) (habsent : M key = none)
    (hstrided : Strided h key) : Represents h' (Function.update M key (some value)) := by
  induction hcall with
  | here fresh hroom => exact hrep.insertHere fresh hkey hvalue habsent hroom
  | grow fresh hfull _ _ ih =>
    have hsizes := hstrided.resolve_left hfull
    exact ih (hrep.grow hsizes fresh) hkey hvalue (Or.inr hsizes)

theorem Represents.remove {h : Hashmap} {M : List UInt8 → Option (List UInt8)}
    (hrep : Represents h M) (key : List UInt8) :
    Represents (hashmapRemove key h) (Function.update M key none) := by
  have hholds : Chaining.Holds (bucketIndex h.cap) (hashmapRemove key h).entries
      (Function.update M key none) := by
    rw [entries_hashmapRemove]
    exact hrep.holds.erase key
  refine ⟨hrep.cap, hholds, fun i => ?_⟩
  have hlen : ((hashmapRemove key h).ring i).len ≤ (h.ring i).len := by
    have hle : ((hashmapRemove key h).entries i).length ≤ (h.entries i).length := by
      rw [entries_hashmapRemove, Chaining.erase]
      by_cases hi : i = bucketIndex h.cap key
      · subst hi
        rw [Function.update_self]
        exact List.eraseP_sublist.length_le
      · rw [Function.update_of_ne hi]
    unfold Hashmap.entries ringEntries at hle
    rwa [Bucket.length_entries, Bucket.length_entries] at hle
  exact hlen.trans (hrep.room i)

theorem Represents.get {h : Hashmap} {M : List UInt8 → Option (List UInt8)}
    (hrep : Represents h M) (key : List UInt8) : hashmapGet key h = M key := by
  rw [hashmapGet_eq]
  exact hrep.holds.lookup_eq key

theorem Represents.empty_iff {h : Hashmap} {M : List UInt8 → Option (List UInt8)}
    (hrep : Represents h M) : hashmapEmpty h = true ↔ ∀ key, M key = none := by
  have hlen : ∀ i, (h.entries i).length = (h.ring i).len := fun i => Bucket.length_entries _
  rw [hashmapEmpty, List.all_eq_true]
  constructor
  · intro hall key
    cases hM : M key with
    | none => rfl
    | some v =>
      have hmem := (hrep.holds.mem_iff key v).mp hM
      have hzero := of_decide_eq_true
        (hall _ (List.mem_range.mpr (bucketIndex_lt hrep.cap_pos key)))
      rw [← hlen, List.length_eq_zero_iff] at hzero
      rw [hzero] at hmem
      exact nomatch hmem
  · intro hnone i _
    apply decide_eq_true
    rw [← hlen, List.length_eq_zero_iff, List.eq_nil_iff_forall_not_mem]
    intro e he
    have hsome := hrep.holds.of_mem he
    rw [hnone] at hsome
    exact nomatch hsome

/-! ## 7. Every run -/

/-- No insert grows the table, or keys and values are equally large. -/
def Strided.step (s : MapState) : MapOp → Prop
  | .insert key _ => Strided s.table key
  | _ => True

theorem Represents.step {s t : MapState} {op : MapOp} (hrep : Represents s.table s.contents)
    (hstep : guarded Strided.step MapStep s op t) : Represents t.table t.contents := by
  obtain ⟨hstrided, hstep⟩ := hstep
  cases hstep with
  | insert hkey hvalue habsent hcall =>
    exact Represents.insert hcall hrep hkey hvalue habsent hstrided
  | remove hkey => exact hrep.remove _
  | get key => exact hrep

/-- **The hashmap is a finite map**, in every run in which no insert grows a table whose
    keys and values differ in size. -/
theorem hashmap_finite_map (keySize valSize : Nat) (ops : List MapOp) (s : MapState)
    (hrun : Run (guarded Strided.step MapStep) ⟨createHashmap keySize valSize, fun _ => none⟩
      ops s) :
    (∀ key, hashmapGet key s.table = s.contents key) ∧
      (hashmapEmpty s.table = true ↔ ∀ key, s.contents key = none) := by
  have hrep : Represents s.table s.contents :=
    @Run.invariant _ _ _ (fun s => Represents s.table s.contents)
      (fun _ _ _ h hstep => Represents.step h hstep) _ _ _ hrun (Represents.create keySize valSize)
  exact ⟨hrep.get, hrep.empty_iff⟩

/-- An insert that finds room at once. -/
theorem MapStep.insertHere {s : MapState} (fresh : Bucket) {key value : List UInt8}
    (hkey : key.length = s.table.keySize) (hvalue : value.length = s.table.valSize)
    (hkeys : s.table.keySize * HASHMAP_MAX_COLLISION_COUNT < 2 ^ 64)
    (hvalues : s.table.valSize * HASHMAP_MAX_COLLISION_COUNT < 2 ^ 64)
    (habsent : s.contents key = none)
    (hroom : (s.table.ring (bucketIndex s.table.cap key)).len < HASHMAP_MAX_COLLISION_COUNT) :
    MapStep s (.insert key value)
      ⟨IloPali.insertHere fresh key value s.table, Function.update s.contents key (some value)⟩ :=
  .insert hkey hvalue habsent (.here fresh hroom hkeys hvalues)

/-- A first key. -/
theorem hashmap_finite_map_first :
    hashmapGet [7] (insertHere .empty [7] [2, 3] (createHashmap 1 2)) = some [2, 3] :=
  (hashmap_finite_map 1 2 [.insert [7] [2, 3]] ⟨_, _⟩ (.cons ⟨Or.inl (by decide +kernel),
    .insertHere .empty rfl rfl (by decide) (by decide) rfl (by decide +kernel)⟩ (.nil _))).1 [7]

/-! ## 8. A table that grows -/

/-- A value that tells its key. -/
def valueFor (key : UInt8) : List UInt8 := List.replicate 8 (key / 16 + 1)

/-- A key of one byte, and its value, put into a table. -/
def MapState.put (s : MapState) (key : UInt8) : MapState :=
  ⟨insertHere .empty [key] (valueFor key) s.table,
    Function.update s.contents [key] (some (valueFor key))⟩

/-- Five keys of one bucket. -/
def MapState.full : MapState :=
  MapState.put (.put (.put (.put (.put ⟨createHashmap 1 8, fun _ => none⟩ 0) 16) 32) 48) 64

/-- A sixth one, for which the table has grown. -/
def MapState.grown : MapState :=
  .put { MapState.full with table := hashmapGrow (fun _ => .empty) MapState.full.table } 80

theorem MapStep.put {s : MapState} {key : UInt8} (hkey : s.table.keySize = 1)
    (hvalue : s.table.valSize = 8) (habsent : s.contents [key] = none)
    (hroom : (s.table.ring (bucketIndex s.table.cap [key])).len < HASHMAP_MAX_COLLISION_COUNT) :
    MapStep s (.insert [key] (valueFor key)) (s.put key) :=
  .insertHere .empty hkey.symm (by rw [hvalue, valueFor, List.length_replicate])
    (by rw [hkey]; decide) (by rw [hvalue]; decide) habsent hroom

/-- **A grown table mixes its values up**: the second value of the old bucket is read one
    byte, and not eight bytes, behind the first. -/
theorem hashmap_mixes_values : ∃ ops s,
    Run MapStep ⟨createHashmap 1 8, fun _ => none⟩ ops s ∧
      hashmapGet [16] s.table = some [1, 1, 1, 1, 1, 1, 1, 2] ∧
      s.contents [16] = some [2, 2, 2, 2, 2, 2, 2, 2] := by
  have hfull : Run MapStep ⟨createHashmap 1 8, fun _ => none⟩ _ MapState.full :=
    .cons (.put rfl rfl rfl (by decide +kernel)) <|
      .cons (.put rfl rfl (by decide +kernel) (by decide +kernel)) <|
        .cons (.put rfl rfl (by decide +kernel) (by decide +kernel)) <|
          .cons (.put rfl rfl (by decide +kernel) (by decide +kernel)) <|
            .cons (.put rfl rfl (by decide +kernel) (by decide +kernel)) (.nil _)
  have hgrown : MapStep MapState.full (.insert [80] (valueFor 80)) MapState.grown :=
    .insert rfl rfl (by decide +kernel) (.grow (fun _ => .empty) (by decide +kernel)
      (by decide +kernel) (.here .empty (by decide +kernel) (by decide +kernel) (by decide +kernel)))
  exact ⟨_, _, hfull.append (.cons hgrown (.nil _)), by decide +kernel, by decide +kernel⟩

end IloPali
