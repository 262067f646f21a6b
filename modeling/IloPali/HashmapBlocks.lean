import IloPali.HashmapEntries
import IloPali.Lib.Logged

/-!
# The blocks of a hashmap (`hashmap.c`)

Here a bucket has the two pointers of the source, which may be `NULL`, and every call
returns the ranges of bytes that it read and wrote behind them.  The tables of this module
are those of `Hashmap` with their pointers followed.
-/

namespace IloPali

open ByteMemory Transition

/-! ## 1. Blocks and accesses -/

/-- `malloc`, where it succeeds: `NULL` for no bytes, otherwise a block with anything in it. -/
def newBlock (bytes : Nat) (fresh : Mem) : Option Mem := if bytes = 0 then none else some fresh

/-- What is behind a pointer. -/
def behind (p : Option Mem) : Mem := p.getD fun _ => 0

/-- One of the two blocks of a bucket. -/
inductive BlockName where
  | keys
  | values
deriving DecidableEq

/-- A range of bytes of a block that is read or written. -/
structure Access where
  block : BlockName
  offset : Nat
  bytes : Nat
deriving DecidableEq

def keySlot (keySize j : Nat) : Access := ⟨.keys, j * keySize, keySize⟩
def valueSlot (valSize j : Nat) : Access := ⟨.values, j * valSize, valSize⟩

/-- The size of the slots of a block. -/
def BlockName.slotSize (keySize valSize : Nat) : BlockName → Nat
  | .keys => keySize
  | .values => valSize

/-- Each byte of the range is in one of the five slots. -/
def Access.Inside (keySize valSize : Nat) (a : Access) : Prop :=
  ∀ x < a.offset + a.bytes, a.offset ≤ x →
    x / a.block.slotSize keySize valSize < HASHMAP_MAX_COLLISION_COUNT

instance (keySize valSize : Nat) (a : Access) : Decidable (a.Inside keySize valSize) :=
  inferInstanceAs (Decidable (∀ x < a.offset + a.bytes, a.offset ≤ x → _))

/-! ## 2. The calls -/

/-- `struct s_hashmap_bucket`. -/
structure RawBucket where
  keys : Option Mem
  values : Option Mem
  len : Nat

/-- `struct s_hashmap`. -/
structure RawHashmap where
  cap : Nat
  keySize : Nat
  valSize : Nat
  ring : Nat → RawBucket

def RawBucket.empty : RawBucket := ⟨none, none, 0⟩

/-- `create_hashmap`. -/
def RawHashmap.create (keySize valSize : Nat) : RawHashmap :=
  ⟨INITIAL_HASHMAP_SIZE, keySize, valSize, fun _ => .empty⟩

/-- The lines that `hashmap_insert` and `hashmap_grow` share. -/
def RawBucket.push (b : RawBucket) (fresh : Mem × Mem) (keySize valSize : Nat)
    (key value : Nat → UInt8) : RawBucket × List Access :=
  let b := if b.len = 0 then
      { b with
        keys := newBlock (keySize * HASHMAP_MAX_COLLISION_COUNT) fresh.1
        values := newBlock (valSize * HASHMAP_MAX_COLLISION_COUNT) fresh.2 }
    else b
  (⟨b.keys.map fun m => patch m (b.len * keySize) keySize key,
      b.values.map fun m => patch m (b.len * valSize) valSize value, b.len + 1⟩,
    [keySlot keySize b.len, valueSlot valSize b.len])

/-- The loop of `hashmap_get` and `hashmap_remove` that compares keys, `n` slots from the
    `i`-th. -/
def RawBucket.find (keySize : Nat) (key : List UInt8) (b : RawBucket) :
    Nat → Nat → Option Nat × List Access
  | 0, _ => (none, [])
  | n + 1, i =>
    if slice (behind b.keys) (i * keySize) keySize = key then (some i, [keySlot keySize i])
    else
      let rest := RawBucket.find keySize key b n (i + 1)
      (rest.1, keySlot keySize i :: rest.2)

/-- `hashmap_get`. -/
def RawHashmap.get (key : List UInt8) (h : RawHashmap) : Option (List UInt8) × List Access :=
  let bucket := h.ring (bucketIndex h.cap key)
  let found := bucket.find h.keySize key bucket.len 0
  (found.1.map fun i => slice (behind bucket.values) (i * h.valSize) h.valSize, found.2)

/-- The loop of `hashmap_remove` that moves `n` entries down by one, from index `j` on. -/
def RawBucket.shift (keySize valSize : Nat) : Nat → Nat → RawBucket → RawBucket × List Access
  | 0, _, b => (b, [])
  | n + 1, j, b =>
    let next := RawBucket.shift keySize valSize n (j + 1)
      { b with
        keys := b.keys.map fun m => patch m (j * keySize) keySize fun i =>
          behind b.keys ((j + 1) * keySize + i)
        values := b.values.map fun m => patch m (j * valSize) valSize fun i =>
          behind b.values ((j + 1) * valSize + i) }
    (next.1, keySlot keySize (j + 1) :: keySlot keySize j :: valueSlot valSize (j + 1) ::
      valueSlot valSize j :: next.2)

/-- What `hashmap_remove` does to the bucket of its key. -/
def RawBucket.remove (keySize valSize : Nat) (key : List UInt8) (bucket : RawBucket) :
    RawBucket × List Access :=
  let found := bucket.find keySize key bucket.len 0
  let moved := match found.1 with
    | none => (bucket, [])
    | some i =>
      let shifted := bucket.shift keySize valSize (bucket.len - i) i
      ({ shifted.1 with len := bucket.len - 1 }, shifted.2)
  (if moved.1.len = 0 then .empty else moved.1, found.2 ++ moved.2)

/-- `hashmap_remove`. -/
def RawHashmap.remove (key : List UInt8) (h : RawHashmap) : RawHashmap × List Access :=
  let index := bucketIndex h.cap key
  let removed := (h.ring index).remove h.keySize h.valSize key
  ({ h with ring := Function.update h.ring index removed.1 }, removed.2)

/-- The body of the inner loop of `hashmap_grow`: entry `j` of bucket `i` of the old table. -/
def RawHashmap.growEntry (fresh : Nat → Mem × Mem) (h : RawHashmap) (ring : Nat → RawBucket)
    (p : Nat × Nat) : (Nat → RawBucket) × List Access :=
  let bucket := h.ring p.1
  let j := p.2
  let index := bucketIndex (h.cap * 2) (slice (behind bucket.keys) (j * h.keySize) h.keySize)
  let pushed := (ring index).push (fresh index) h.keySize h.valSize
    (fun i => behind bucket.keys (j * h.keySize + i))
    (fun i => behind bucket.values (j * h.keySize + i))
  -- the key is read twice, for its hash and to be copied
  (Function.update ring index pushed.1, keySlot h.keySize j :: keySlot h.keySize j ::
    ⟨.values, j * h.keySize, h.valSize⟩ :: pushed.2)

/-- `hashmap_grow`. -/
def RawHashmap.grow (fresh : Nat → Mem × Mem) (h : RawHashmap) : RawHashmap × List Access :=
  let new := Logged.loop (fun ring i =>
    Logged.loop (h.growEntry fresh) ((List.range (h.ring i).len).map (Prod.mk i)) ring)
    (List.range h.cap) fun _ => .empty
  ({ h with cap := h.cap * 2, ring := new.1 }, new.2)

/-- One turn of the loop of `hashmap_insert` that finds room. -/
def RawHashmap.insertHere (fresh : Mem × Mem) (key value : List UInt8) (h : RawHashmap) :
    RawHashmap × List Access :=
  let index := bucketIndex h.cap key
  let pushed := (h.ring index).push fresh h.keySize h.valSize (fun i => key.getD i 0)
    fun i => value.getD i 0
  ({ h with ring := Function.update h.ring index pushed.1 }, pushed.2)

/-- `hashmap_insert`, where it returns, and what it accesses. -/
inductive RawInsert (key value : List UInt8) : RawHashmap → RawHashmap → List Access → Prop
  | here {h : RawHashmap} (fresh : Mem × Mem)
      (hroom : (h.ring (bucketIndex h.cap key)).len < HASHMAP_MAX_COLLISION_COUNT)
      (hkeys : h.keySize * HASHMAP_MAX_COLLISION_COUNT < 2 ^ 64)
      (hvalues : h.valSize * HASHMAP_MAX_COLLISION_COUNT < 2 ^ 64) :
      RawInsert key value h (h.insertHere fresh key value).1 (h.insertHere fresh key value).2
  | grow {h h' : RawHashmap} {log : List Access} (fresh : Nat → Mem × Mem)
      (hfull : ¬ (h.ring (bucketIndex h.cap key)).len < HASHMAP_MAX_COLLISION_COUNT)
      (htable : 24 + 24 * h.cap * 2 < 2 ^ 64)
      (hrest : RawInsert key value (h.grow fresh).1 h' log) :
      RawInsert key value h h' ((h.grow fresh).2 ++ log)

/-- One call, and what it accesses. -/
inductive RawStep : RawHashmap → HashmapOp × List Access → RawHashmap → Prop
  | insert {h h' : RawHashmap} {key value : List UInt8} {log : List Access}
      (hkey : key.length = h.keySize) (hvalue : value.length = h.valSize)
      (hcall : RawInsert key value h h' log) : RawStep h (.insert key value, log) h'
  | remove {h : RawHashmap} {key : List UInt8} (hkey : key.length = h.keySize) :
      RawStep h (.remove key, (h.remove key).2) (h.remove key).1
  | get {h : RawHashmap} {key : List UInt8} (hkey : key.length = h.keySize) :
      RawStep h (.get key, (h.get key).2) h
  | grow {h : RawHashmap} (fresh : Nat → Mem × Mem) (htable : 24 + 24 * h.cap * 2 < 2 ^ 64) :
      RawStep h (.grow, (h.grow fresh).2) (h.grow fresh).1

/-! ## 3. Following the pointers -/

def RawBucket.follow (b : RawBucket) : Bucket := ⟨behind b.keys, behind b.values, b.len⟩

def followRing (ring : Nat → RawBucket) : Nat → Bucket := fun i => (ring i).follow

def RawHashmap.follow (h : RawHashmap) : Hashmap :=
  ⟨h.cap, h.keySize, h.valSize, followRing h.ring⟩

/-- What the new blocks of a bucket hold. -/
def freshBucket (keySize valSize : Nat) (fresh : Mem × Mem) : Bucket :=
  ⟨behind (newBlock (keySize * HASHMAP_MAX_COLLISION_COUNT) fresh.1),
    behind (newBlock (valSize * HASHMAP_MAX_COLLISION_COUNT) fresh.2), 0⟩

/-- A bucket has blocks exactly when it holds something, of a size that is not zero. -/
structure RawBucket.Allocated (keySize valSize : Nat) (b : RawBucket) : Prop where
  keys : b.keys = none ↔ b.len = 0 ∨ keySize = 0
  values : b.values = none ↔ b.len = 0 ∨ valSize = 0

variable {keySize valSize : Nat}

theorem newBlock_eq_none {size : Nat} {fresh : Mem} :
    newBlock (size * HASHMAP_MAX_COLLISION_COUNT) fresh = none ↔ size = 0 := by
  simp [newBlock, HASHMAP_MAX_COLLISION_COUNT]

/-- Nothing is written behind a `NULL` pointer. -/
theorem behind_map_patch {p : Option Mem} {a n : Nat} {f : Nat → UInt8} (hp : p = none → n = 0) :
    behind (p.map fun m => patch m a n f) = patch (behind p) a n f := by
  cases p with
  | some m => rfl
  | none =>
    rw [hp rfl, patch_zero]
    rfl

theorem followRing_update (ring : Nat → RawBucket) (i : Nat) (b : RawBucket) :
    followRing (Function.update ring i b) = Function.update (followRing ring) i b.follow := by
  funext j
  unfold followRing
  by_cases hj : j = i
  · subst hj
    rw [Function.update_self, Function.update_self]
  · rw [Function.update_of_ne hj, Function.update_of_ne hj]

theorem RawBucket.Allocated.empty : RawBucket.empty.Allocated keySize valSize := by
  constructor
  · simp [RawBucket.empty]
  · simp [RawBucket.empty]

theorem RawBucket.Allocated.push {b : RawBucket} (hb : b.Allocated keySize valSize)
    (fresh : Mem × Mem) (key value : Nat → UInt8) :
    (b.push fresh keySize valSize key value).1.Allocated keySize valSize ∧
      (b.push fresh keySize valSize key value).1.follow =
        b.follow.push (freshBucket keySize valSize fresh) keySize valSize key value := by
  unfold RawBucket.push Bucket.push RawBucket.follow freshBucket
  by_cases h0 : b.len = 0
  · simp only [if_pos h0]
    refine ⟨⟨?_, ?_⟩, ?_⟩
    · simp [newBlock_eq_none]
    · simp [newBlock_eq_none]
    · rw [behind_map_patch newBlock_eq_none.mp, behind_map_patch newBlock_eq_none.mp]
  · simp only [if_neg h0]
    have hkeys : b.keys = none ↔ keySize = 0 := by simp [hb.keys, h0]
    have hvalues : b.values = none ↔ valSize = 0 := by simp [hb.values, h0]
    refine ⟨⟨?_, ?_⟩, ?_⟩
    · simp [hkeys]
    · simp [hvalues]
    · rw [behind_map_patch hkeys.mp, behind_map_patch hvalues.mp]

theorem RawBucket.shift_follow (n j : Nat) {b : RawBucket} (hkeys : b.keys = none → keySize = 0)
    (hvalues : b.values = none → valSize = 0) :
    (b.shift keySize valSize n j).1.follow = b.follow.shift keySize valSize n j ∧
      ((b.shift keySize valSize n j).1.keys = none ↔ b.keys = none) ∧
      ((b.shift keySize valSize n j).1.values = none ↔ b.values = none) := by
  induction n generalizing j b with
  | zero => exact ⟨rfl, Iff.rfl, Iff.rfl⟩
  | succ n ih =>
    rw [RawBucket.shift, Bucket.shift]
    dsimp only
    obtain ⟨hfollow, hk, hv⟩ := @ih (j + 1)
      { b with
        keys := b.keys.map fun m => patch m (j * keySize) keySize fun i =>
          behind b.keys ((j + 1) * keySize + i)
        values := b.values.map fun m => patch m (j * valSize) valSize fun i =>
          behind b.values ((j + 1) * valSize + i) }
      (by simpa using hkeys) (by simpa using hvalues)
    refine ⟨?_, by simpa using hk, by simpa using hv⟩
    rw [hfollow]
    congr 1
    unfold RawBucket.follow
    dsimp only
    rw [behind_map_patch hkeys, behind_map_patch hvalues]

theorem RawBucket.find_fst (keySize : Nat) (key : List UInt8) (b : RawBucket) :
    (b.find keySize key b.len 0).1 = b.follow.find keySize key := by
  have hfrom : ∀ n i, (b.find keySize key n i).1 = (((List.range' i n).map fun i =>
      slice (behind b.keys) (i * keySize) keySize).findIdx? (· = key)).map (· + i) := by
    intro n
    induction n with
    | zero => exact fun _ => rfl
    | succ n ih =>
      intro i
      rw [RawBucket.find, List.range'_succ, List.map_cons, List.findIdx?_cons]
      by_cases hkey : slice (behind b.keys) (i * keySize) keySize = key
      · simp [hkey]
      · simp [hkey, ih, Function.comp_def, Nat.add_comm, Nat.add_left_comm]
  rw [hfrom, Bucket.find, List.range_eq_range']
  simp only [Nat.add_zero, Option.map_id']
  rfl

/-- What `hashmap_remove` does to the bucket of its key. -/
def Bucket.remove (keySize valSize : Nat) (key : List UInt8) (bucket : Bucket) : Bucket :=
  let bucket := match bucket.find keySize key with
    | none => bucket
    | some i => { bucket.shift keySize valSize (bucket.len - i) i with len := bucket.len - 1 }
  if bucket.len = 0 then .empty else bucket

theorem hashmapRemove_eq (key : List UInt8) (h : Hashmap) : hashmapRemove key h =
    { h with
      ring := Function.update h.ring (bucketIndex h.cap key)
        ((h.ring (bucketIndex h.cap key)).remove h.keySize h.valSize key) } := rfl

/-- A bucket that is given up where it is empty. -/
theorem allocated_or_empty {b : RawBucket}
    (hb : b.len ≠ 0 → b.Allocated keySize valSize) :
    (if b.len = 0 then RawBucket.empty else b).Allocated keySize valSize ∧
      (if b.len = 0 then RawBucket.empty else b).follow =
        if b.follow.len = 0 then .empty else b.follow := by
  have hlen : b.follow.len = b.len := rfl
  rw [hlen]
  by_cases h0 : b.len = 0
  · simp only [if_pos h0]
    exact ⟨.empty, rfl⟩
  · simp only [if_neg h0]
    exact ⟨hb h0, trivial⟩

theorem RawBucket.Allocated.remove {b : RawBucket} (hb : b.Allocated keySize valSize)
    (key : List UInt8) : (b.remove keySize valSize key).1.Allocated keySize valSize ∧
      (b.remove keySize valSize key).1.follow = b.follow.remove keySize valSize key := by
  have hfind := RawBucket.find_fst keySize key b
  unfold RawBucket.remove Bucket.remove
  dsimp only
  rw [hfind]
  cases hf : b.follow.find keySize key with
  | none => exact allocated_or_empty fun _ => hb
  | some i =>
    have h0 : b.len ≠ 0 := by
      intro h0
      have hlt := (List.findIdx?_eq_some_iff_getElem.mp hf).1
      simp [RawBucket.follow, h0] at hlt
    have hkeys : b.keys = none ↔ keySize = 0 := by simp [hb.keys, h0]
    have hvalues : b.values = none ↔ valSize = 0 := by simp [hb.values, h0]
    obtain ⟨hshift, hk, hv⟩ := RawBucket.shift_follow (b.len - i) i hkeys.mp hvalues.mp
    have hmain := @allocated_or_empty keySize valSize
      { (RawBucket.shift keySize valSize (b.len - i) i b).1 with len := b.len - 1 } (by
        intro hlen
        constructor
        · exact (hk.trans hkeys).trans ⟨Or.inr, fun hor => hor.resolve_left hlen⟩
        · exact (hv.trans hvalues).trans ⟨Or.inr, fun hor => hor.resolve_left hlen⟩)
    refine ⟨hmain.1, hmain.2.trans ?_⟩
    show _ = if b.len - 1 = 0 then Bucket.empty else
      { Bucket.shift keySize valSize (b.len - i) i b.follow with len := b.len - 1 }
    rw [← hshift]
    rfl

/-! ## 4. The calls, with their pointers followed -/

/-- The blocks of a table are there where they are needed. -/
def RawHashmap.Allocated (h : RawHashmap) : Prop :=
  ∀ i, (h.ring i).Allocated h.keySize h.valSize

theorem RawHashmap.get_follow (key : List UInt8) (h : RawHashmap) :
    (h.get key).1 = hashmapGet key h.follow := by
  unfold RawHashmap.get hashmapGet
  dsimp only
  rw [RawBucket.find_fst]
  rfl

theorem allocated_update {ring : Nat → RawBucket}
    (hring : ∀ i, (ring i).Allocated keySize valSize) {b : RawBucket}
    (hb : b.Allocated keySize valSize) (i j : Nat) :
    (Function.update ring i b j).Allocated keySize valSize := by
  by_cases hj : j = i
  · subst hj
    rw [Function.update_self]
    exact hb
  · rw [Function.update_of_ne hj]
    exact hring j

theorem RawHashmap.insertHere_follow {h : RawHashmap} (hh : h.Allocated) (fresh : Mem × Mem)
    (key value : List UInt8) : (h.insertHere fresh key value).1.Allocated ∧
      (h.insertHere fresh key value).1.follow =
        IloPali.insertHere (freshBucket h.keySize h.valSize fresh) key value h.follow := by
  obtain ⟨halloc, hfollow⟩ := (hh (bucketIndex h.cap key)).push fresh (fun i => key.getD i 0)
    fun i => value.getD i 0
  refine ⟨allocated_update hh halloc _, ?_⟩
  unfold RawHashmap.insertHere IloPali.insertHere RawHashmap.follow
  dsimp only
  rw [followRing_update, hfollow]
  rfl

theorem RawHashmap.remove_follow {h : RawHashmap} (hh : h.Allocated) (key : List UInt8) :
    (h.remove key).1.Allocated ∧ (h.remove key).1.follow = hashmapRemove key h.follow := by
  obtain ⟨halloc, hfollow⟩ := (hh (bucketIndex h.cap key)).remove key
  refine ⟨allocated_update hh halloc _, ?_⟩
  rw [hashmapRemove_eq]
  unfold RawHashmap.remove RawHashmap.follow
  dsimp only
  rw [followRing_update, hfollow]
  rfl

theorem RawHashmap.growEntry_follow (h : RawHashmap) (fresh : Nat → Mem × Mem)
    {ring : Nat → RawBucket} (hring : ∀ i, (ring i).Allocated h.keySize h.valSize)
    (p : Nat × Nat) : (∀ i, ((h.growEntry fresh ring p).1 i).Allocated h.keySize h.valSize) ∧
      followRing (h.growEntry fresh ring p).1 =
        IloPali.growEntry (fun i => freshBucket h.keySize h.valSize (fresh i)) h.follow
          (h.follow.ring p.1) (followRing ring) p.2 := by
  unfold RawHashmap.growEntry
  dsimp only
  obtain ⟨halloc, hfollow⟩ := (hring (bucketIndex (h.cap * 2)
    (slice (behind (h.ring p.1).keys) (p.2 * h.keySize) h.keySize))).push (fresh _)
      (fun i => behind (h.ring p.1).keys (p.2 * h.keySize + i))
      fun i => behind (h.ring p.1).values (p.2 * h.keySize + i)
  refine ⟨allocated_update hring halloc _, ?_⟩
  rw [followRing_update, hfollow]
  rfl

theorem RawHashmap.grow_eq (h : RawHashmap) (fresh : Nat → Mem × Mem) :
    ((h.grow fresh).1.ring, (h.grow fresh).2) =
      Logged.loop (h.growEntry fresh) h.follow.positions fun _ => .empty :=
  Logged.loop_flatMap _ _ _

/-- The new ring, when the loops of `hashmap_grow` have been at some of the positions. -/
def RawHashmap.grownRing (fresh : Nat → Mem × Mem) (h : RawHashmap) (l : List (Nat × Nat)) :
    Nat → RawBucket :=
  Logged.after (h.growEntry fresh) l fun _ => .empty

theorem RawHashmap.grownRing_follow (h : RawHashmap) (fresh : Nat → Mem × Mem)
    (l : List (Nat × Nat)) :
    (∀ i, (h.grownRing fresh l i).Allocated h.keySize h.valSize) ∧
      followRing (h.grownRing fresh l) =
        h.follow.grownRing (fun i => freshBucket h.keySize h.valSize (fresh i)) l := by
  have hempty : ∀ i : Nat, RawBucket.empty.Allocated h.keySize h.valSize := fun _ => .empty
  exact @Logged.after_hom _ _ _ _ (h.growEntry fresh) followRing
    (fun ring => ∀ i, (ring i).Allocated h.keySize h.valSize)
    (fun ring p => IloPali.growEntry (fun i => freshBucket h.keySize h.valSize (fresh i)) h.follow
      (h.follow.ring p.1) ring p.2) l (fun _ hs p _ => h.growEntry_follow fresh hs p) _ hempty

theorem RawHashmap.grow_follow (h : RawHashmap) (fresh : Nat → Mem × Mem) :
    (h.grow fresh).1.Allocated ∧ (h.grow fresh).1.follow =
      hashmapGrow (fun i => freshBucket h.keySize h.valSize (fresh i)) h.follow := by
  have hring : (h.grow fresh).1.ring = h.grownRing fresh h.follow.positions := by
    rw [RawHashmap.grownRing, ← Logged.loop_fst, ← h.grow_eq]
  obtain ⟨halloc, hfollow⟩ := h.grownRing_follow fresh h.follow.positions
  rw [← hring] at halloc hfollow
  refine ⟨halloc, ?_⟩
  have hnew := hashmapGrow_ring (fun i => freshBucket h.keySize h.valSize (fresh i)) h.follow
  show (⟨h.cap * 2, h.keySize, h.valSize, followRing (h.grow fresh).1.ring⟩ : Hashmap) =
    ⟨h.cap * 2, h.keySize, h.valSize, (hashmapGrow _ h.follow).ring⟩
  rw [hfollow, hnew]

/-! ## 5. Runs, with their pointers followed -/

variable {h h' : RawHashmap}

theorem RawInsert.follow {key value : List UInt8} {log : List Access}
    (hcall : RawInsert key value h h' log) (hh : h.Allocated) :
    h'.Allocated ∧ HashmapInsert key value h.follow h'.follow := by
  induction hcall with
  | @here h fresh hroom hkeys hvalues =>
    obtain ⟨halloc, hfollow⟩ := h.insertHere_follow hh fresh key value
    refine ⟨halloc, ?_⟩
    rw [hfollow]
    exact .here _ hroom hkeys hvalues
  | @grow h h' log fresh hfull htable _ ih =>
    obtain ⟨halloc, hfollow⟩ := h.grow_follow fresh
    obtain ⟨hend, hrest⟩ := ih halloc
    rw [hfollow] at hrest
    exact ⟨hend, .grow _ hfull htable hrest⟩

theorem RawStep.follow {e : HashmapOp × List Access} (hstep : RawStep h e h')
    (hh : h.Allocated) : h'.Allocated ∧ HashmapStep h.follow e.1 h'.follow := by
  cases hstep with
  | insert hkey hvalue hcall =>
    obtain ⟨halloc, hinsert⟩ := hcall.follow hh
    exact ⟨halloc, .insert hkey hvalue hinsert⟩
  | remove hkey =>
    obtain ⟨halloc, hfollow⟩ := h.remove_follow hh _
    refine ⟨halloc, ?_⟩
    rw [hfollow]
    exact .remove hkey
  | get hkey => exact ⟨hh, .get hkey⟩
  | grow fresh htable =>
    obtain ⟨halloc, hfollow⟩ := h.grow_follow fresh
    refine ⟨halloc, ?_⟩
    rw [hfollow]
    exact .grow _ htable

/-- What holds of a table that a run comes to. -/
structure RawHashmap.Sound (keySize valSize : Nat) (h : RawHashmap) : Prop where
  allocated : h.Allocated
  filed : Filed keySize valSize h.follow

theorem RawHashmap.Sound.create (keySize valSize : Nat) :
    (RawHashmap.create keySize valSize).Sound keySize valSize :=
  ⟨fun _ => .empty, Filed.create keySize valSize⟩

theorem RawHashmap.Sound.step {e : HashmapOp × List Access} (hs : h.Sound keySize valSize)
    (hstep : RawStep h e h') : h'.Sound keySize valSize := by
  obtain ⟨halloc, hfollow⟩ := hstep.follow hs.allocated
  exact ⟨halloc, hs.filed.step hfollow⟩

theorem RawHashmap.Sound.run {es : List (HashmapOp × List Access)}
    (hrun : Run RawStep (RawHashmap.create keySize valSize) es h) : h.Sound keySize valSize :=
  hrun.invariant (fun _ _ _ hs hstep => hs.step hstep) (.create keySize valSize)

/-! ## 6. The representation -/

/-- The key in slot `j` of bucket `i`. -/
def RawHashmap.keyAt (h : RawHashmap) (i j : Nat) : List UInt8 :=
  slice (behind (h.ring i).keys) (j * h.keySize) h.keySize

/-- All keys, bucket by bucket. -/
def RawHashmap.storedKeys (h : RawHashmap) : List (List UInt8) :=
  (List.range h.cap).flatMap fun i => (List.range (h.ring i).len).map (h.keyAt i)

theorem RawHashmap.storedKeys_follow (h : RawHashmap) : h.follow.storedKeys = h.storedKeys := by
  unfold Hashmap.storedKeys Hashmap.allEntries RawHashmap.storedKeys
  rw [List.map_flatMap]
  apply List.flatMap_congr
  intro i _
  unfold Hashmap.entries ringEntries Bucket.entries
  rw [List.map_map]
  rfl

/-- The invariant of a hashmap. -/
structure RawHashmap.Represents (h : RawHashmap) : Prop where
  cap : (∃ n, h.cap = 2 ^ n) ∧ INITIAL_HASHMAP_SIZE ≤ h.cap
  room : ∀ i, (h.ring i).len ≤ HASHMAP_MAX_COLLISION_COUNT
  blocks : ∀ i, ((h.ring i).keys = none ↔ (h.ring i).len = 0) ∧
    ((h.ring i).values = none ↔ (h.ring i).len = 0)
  placed : ∀ i j, j < (h.ring i).len → bucketIndex h.cap (h.keyAt i j) = i

theorem RawHashmap.Sound.represents (hs : h.Sound keySize valSize) (hkeys : 0 < keySize)
    (hvalues : 0 < valSize) : h.Represents := by
  obtain ⟨n, hlo, _, hn⟩ := hs.filed.cap
  have hcap : h.cap = 2 ^ n := hn
  constructor
  case cap =>
    refine ⟨⟨n, hcap⟩, ?_⟩
    rw [hcap]
    exact Nat.pow_le_pow_right Nat.two_pos hlo
  case room => exact hs.filed.room
  case blocks =>
    have hk : h.keySize ≠ 0 := by
      rw [show h.keySize = keySize from hs.filed.keySize]
      exact Nat.ne_of_gt hkeys
    have hv : h.valSize ≠ 0 := by
      rw [show h.valSize = valSize from hs.filed.valSize]
      exact Nat.ne_of_gt hvalues
    intro i
    refine ⟨(hs.allocated i).keys.trans ?_, (hs.allocated i).values.trans ?_⟩
    · simp [hk]
    · simp [hv]
  case placed =>
    intro i j hj
    apply hs.filed.placed i ((h.follow.ring i).keyAt h.keySize j, (h.follow.ring i).valueAt h.valSize j)
    exact List.mem_map_of_mem (List.mem_range.mpr hj)

/-- **The representation invariant.**  Every reachable table satisfies it, and `hashmap_grow` keeps
    the keys and fills no bucket beyond its slots. -/
theorem hashmap_representation (hkeys : 0 < keySize) (hvalues : 0 < valSize)
    {es : List (HashmapOp × List Access)}
    (hrun : Run RawStep (RawHashmap.create keySize valSize) es h) :
    h.Represents ∧ ∀ fresh, 24 + 24 * h.cap * 2 < 2 ^ 64 →
      (h.grow fresh).1.Represents ∧ (h.grow fresh).1.storedKeys.Perm h.storedKeys := by
  have hs := RawHashmap.Sound.run hrun
  refine ⟨hs.represents hkeys hvalues, ?_⟩
  intro fresh htable
  have hgrown := hs.step (.grow fresh htable)
  refine ⟨hgrown.represents hkeys hvalues, ?_⟩
  rw [← RawHashmap.storedKeys_follow, ← RawHashmap.storedKeys_follow, (h.grow_follow fresh).2]
  exact storedKeys_grow hs.filed _

/-- A block of zeros, for keys and for values. -/
def zeroBlocks : Mem × Mem := (fun _ => 0, fun _ => 0)

/-- An insert that finds room at once. -/
theorem RawStep.insertHere (fresh : Mem × Mem) {key value : List UInt8}
    (hkey : key.length = h.keySize) (hvalue : value.length = h.valSize)
    (hkeys : h.keySize * HASHMAP_MAX_COLLISION_COUNT < 2 ^ 64)
    (hvalues : h.valSize * HASHMAP_MAX_COLLISION_COUNT < 2 ^ 64)
    (hroom : (h.ring (bucketIndex h.cap key)).len < HASHMAP_MAX_COLLISION_COUNT) :
    RawStep h (.insert key value, (h.insertHere fresh key value).2)
      (h.insertHere fresh key value).1 :=
  .insert hkey hvalue (.here fresh hroom hkeys hvalues)

/-- A first key. -/
theorem hashmap_representation_first :
    ((RawHashmap.create 1 2).insertHere zeroBlocks [7] [2, 3]).1.Represents :=
  (hashmap_representation (by decide) (by decide) (.cons (.insertHere zeroBlocks rfl rfl
    (by decide) (by decide) (by decide +kernel)) (.nil _))).1

end IloPali
