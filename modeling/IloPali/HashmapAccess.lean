import IloPali.HashmapBlocks

/-!
# The slots that a hashmap accesses (`hashmap.c`)

Two calls read behind the five slots of a bucket.  `hashmap_remove` moves down the slot
behind the last entry as well, and in a full bucket there is none.  `hashmap_grow` looks
for the values with the stride of the keys, which takes it past the end of the block where
the keys are larger.
-/

namespace IloPali

open ByteMemory Transition

variable {keySize valSize : Nat}

/-! ## 1. Accesses -/

theorem inside_iff {a : Access} : a.Inside keySize valSize ↔
    a.bytes = 0 ∨ a.block.slotSize keySize valSize = 0 ∨
      a.offset + a.bytes ≤ HASHMAP_MAX_COLLISION_COUNT * a.block.slotSize keySize valSize := by
  unfold Access.Inside
  constructor
  · intro h
    by_cases hbytes : a.bytes = 0
    · exact Or.inl hbytes
    by_cases hsize : a.block.slotSize keySize valSize = 0
    · exact Or.inr (Or.inl hsize)
    -- the last byte tells
    have hlast := h (a.offset + a.bytes - 1) (by omega) (by omega)
    rw [Nat.div_lt_iff_lt_mul (Nat.pos_of_ne_zero hsize)] at hlast
    exact Or.inr (Or.inr (by omega))
  · rintro (hbytes | hsize | hle) x hx hlow
    · omega
    · rw [hsize, Nat.div_zero]
      decide
    · apply Nat.div_lt_of_lt_mul
      rw [Nat.mul_comm]
      exact hx.trans_le hle

/-- A slot is inside its block exactly if it is one of the five. -/
theorem slot_inside_iff (block : BlockName) (j : Nat) :
    (Access.mk block (j * block.slotSize keySize valSize)
      (block.slotSize keySize valSize)).Inside keySize valSize ↔
      j < HASHMAP_MAX_COLLISION_COUNT ∨ block.slotSize keySize valSize = 0 := by
  rw [inside_iff]
  dsimp only
  by_cases hsize : block.slotSize keySize valSize = 0
  · simp [hsize]
  · rw [← Nat.succ_mul, Nat.mul_le_mul_right_iff (Nat.pos_of_ne_zero hsize)]
    simp only [hsize, false_or, or_false]
    exact Nat.succ_le_iff

theorem keySlot_inside_iff (j : Nat) : (keySlot keySize j).Inside keySize valSize ↔
    j < HASHMAP_MAX_COLLISION_COUNT ∨ keySize = 0 :=
  slot_inside_iff .keys j

theorem valueSlot_inside_iff (j : Nat) : (valueSlot valSize j).Inside keySize valSize ↔
    j < HASHMAP_MAX_COLLISION_COUNT ∨ valSize = 0 :=
  slot_inside_iff .values j

/-- Where `hashmap_grow` looks for a value. -/
theorem moved_inside_iff (j : Nat) :
    (Access.mk .values (j * keySize) valSize).Inside keySize valSize ↔
      valSize = 0 ∨ j * keySize ≤ 4 * valSize := by
  rw [inside_iff]
  show valSize = 0 ∨ valSize = 0 ∨ j * keySize + valSize ≤ 5 * valSize ↔ _
  omega

/-! ## 2. Buckets -/

theorem push_inside {b : RawBucket} (fresh : Mem × Mem) (key value : Nat → UInt8)
    (hroom : b.len < HASHMAP_MAX_COLLISION_COUNT) :
    ∀ a ∈ (b.push fresh keySize valSize key value).2, a.Inside keySize valSize := by
  intro a ha
  have hlen : (b.push fresh keySize valSize key value).2 =
      [keySlot keySize b.len, valueSlot valSize b.len] := by
    unfold RawBucket.push
    by_cases h0 : b.len = 0
    · simp [h0]
    · simp [h0]
  rw [hlen] at ha
  simp only [List.mem_cons, List.not_mem_nil, or_false] at ha
  rcases ha with rfl | rfl
  · exact (keySlot_inside_iff _).mpr (Or.inl hroom)
  · exact (valueSlot_inside_iff _).mpr (Or.inl hroom)

/-- The search for a key reads the slots of entries only. -/
theorem find_inside (key : List UInt8) (b : RawBucket) {n i : Nat}
    (hn : i + n ≤ HASHMAP_MAX_COLLISION_COUNT) :
    ∀ a ∈ (b.find keySize key n i).2, a.Inside keySize valSize := by
  induction n generalizing i with
  | zero => exact fun a ha => nomatch ha
  | succ n ih =>
    have hfirst : (keySlot keySize i).Inside keySize valSize :=
      (keySlot_inside_iff i).mpr (Or.inl (by omega))
    intro a ha
    rw [RawBucket.find] at ha
    split at ha
    · rw [List.mem_singleton.mp ha]
      exact hfirst
    · rcases List.mem_cons.mp ha with rfl | ha
      · exact hfirst
      · exact ih (by omega) a ha

/-- The loop that moves entries down reads one slot more than it moves. -/
theorem shift_inside_iff (b : RawBucket) (n j : Nat) :
    (∀ a ∈ (b.shift keySize valSize (n + 1) j).2, a.Inside keySize valSize) ↔
      (j + n + 1 < HASHMAP_MAX_COLLISION_COUNT ∨ keySize = 0) ∧
        (j + n + 1 < HASHMAP_MAX_COLLISION_COUNT ∨ valSize = 0) := by
  induction n generalizing j b with
  | zero =>
    simp only [RawBucket.shift, List.forall_mem_cons, keySlot_inside_iff, valueSlot_inside_iff]
    simp only [List.not_mem_nil, false_implies, implies_true, and_true, Nat.add_zero]
    omega
  | succ n ih =>
    rw [RawBucket.shift]
    simp only [List.forall_mem_cons, keySlot_inside_iff, valueSlot_inside_iff]
    rw [ih]
    omega

/-! ## 3. Calls -/

variable {h h' : RawHashmap}

/-- The bucket of the key is full, and the key is in it. -/
def RawHashmap.FullWith (h : RawHashmap) (key : List UInt8) : Prop :=
  (h.ring (bucketIndex h.cap key)).len = HASHMAP_MAX_COLLISION_COUNT ∧
    ∃ j < HASHMAP_MAX_COLLISION_COUNT, h.keyAt (bucketIndex h.cap key) j = key

/-- When a call stays inside the slots. -/
def InSlots (h : RawHashmap) : HashmapOp → Prop
  | .insert key _ => (h.ring (bucketIndex h.cap key)).len < HASHMAP_MAX_COLLISION_COUNT ∨
      h.keySize ≤ h.valSize ∨ h.valSize = 0
  | .remove key => ¬ h.FullWith key ∨ h.keySize = 0 ∧ h.valSize = 0
  | .get _ => True
  | .grow => h.valSize = 0 ∨ ∀ i < h.cap, ((h.ring i).len - 1) * h.keySize ≤ 4 * h.valSize

/-- A log with nothing in it that is outside. -/
def AllInside (h : RawHashmap) (log : List Access) : Prop :=
  ∀ a ∈ log, a.Inside h.keySize h.valSize

theorem allInside_append {log log' : List Access} :
    AllInside h (log ++ log') ↔ AllInside h log ∧ AllInside h log' :=
  List.forall_mem_append

theorem get_inside (hs : h.Sound keySize valSize) (key : List UInt8) :
    AllInside h (h.get key).2 := by
  apply find_inside
  rw [Nat.zero_add]
  exact hs.filed.room _

theorem find_isSome_iff (key : List UInt8) (b : RawBucket) :
    (∃ i, b.follow.find keySize key = some i) ↔
      ∃ j < b.len, slice (behind b.keys) (j * keySize) keySize = key := by
  rw [← Option.isSome_iff_exists, Bucket.find, List.findIdx?_isSome]
  simp [RawBucket.follow]

theorem remove_inside_iff (hs : h.Sound keySize valSize) (key : List UInt8) :
    AllInside h (h.remove key).2 ↔ InSlots h (.remove key) := by
  have hroom : (h.ring (bucketIndex h.cap key)).len ≤ HASHMAP_MAX_COLLISION_COUNT :=
    hs.filed.room _
  have hfind := RawBucket.find_fst h.keySize key (h.ring (bucketIndex h.cap key))
  have hsearch : AllInside h ((h.ring (bucketIndex h.cap key)).find h.keySize key
      (h.ring (bucketIndex h.cap key)).len 0).2 :=
    find_inside key _ (by rwa [Nat.zero_add])
  have hpresent := @find_isSome_iff h.keySize key (h.ring (bucketIndex h.cap key))
  unfold RawHashmap.remove RawBucket.remove InSlots RawHashmap.FullWith
  dsimp only
  rw [hfind, allInside_append]
  cases hf : (h.ring (bucketIndex h.cap key)).follow.find h.keySize key with
  | none =>
    have habsent : ¬ ∃ j < (h.ring (bucketIndex h.cap key)).len,
        h.keyAt (bucketIndex h.cap key) j = key := by
      intro hcon
      obtain ⟨i, hi⟩ := hpresent.mpr hcon
      rw [hf] at hi
      exact nomatch hi
    constructor
    · intro _
      apply Or.inl
      rintro ⟨hfull, hkey⟩
      rw [← hfull] at hkey
      exact habsent hkey
    · exact fun _ => ⟨hsearch, fun a ha => nomatch ha⟩
  | some i =>
    have hin : ∃ j < (h.ring (bucketIndex h.cap key)).len,
        h.keyAt (bucketIndex h.cap key) j = key := hpresent.mp ⟨i, hf⟩
    have hi : i < (h.ring (bucketIndex h.cap key)).len := by
      have hlt := (List.findIdx?_eq_some_iff_getElem.mp hf).1
      rwa [List.length_map, List.length_range] at hlt
    -- the loop runs at least once, and it ends at the slot behind the last entry
    obtain ⟨n, hn⟩ := Nat.exists_eq_add_of_lt hi
    have hturns : (h.ring (bucketIndex h.cap key)).len - i = n + 1 := by omega
    have hend : i + n + 1 = (h.ring (bucketIndex h.cap key)).len := hn.symm
    dsimp only
    rw [hturns]
    refine (and_iff_right hsearch).trans ?_
    refine (shift_inside_iff _ n i).trans ?_
    rw [hend]
    constructor
    · rintro ⟨hk, hv⟩
      by_cases hfull : (h.ring (bucketIndex h.cap key)).len = HASHMAP_MAX_COLLISION_COUNT
      · have hno : ¬ (h.ring (bucketIndex h.cap key)).len < HASHMAP_MAX_COLLISION_COUNT := by
          omega
        exact Or.inr ⟨hk.resolve_left hno, hv.resolve_left hno⟩
      · exact Or.inl fun hcon => hfull hcon.1
    · rintro (hnot | ⟨hk, hv⟩)
      · have hlt : (h.ring (bucketIndex h.cap key)).len < HASHMAP_MAX_COLLISION_COUNT := by
          apply Nat.lt_of_le_of_ne hroom
          intro hfull
          rw [hfull] at hin
          exact hnot ⟨hfull, hin⟩
        exact ⟨Or.inl hlt, Or.inl hlt⟩
      · exact ⟨Or.inr hk, Or.inr hv⟩

theorem grow_inside_iff (hs : h.Sound keySize valSize) (fresh : Nat → Mem × Mem)
    (htable : 24 + 24 * h.cap * 2 < 2 ^ 64) :
    AllInside h (h.grow fresh).2 ↔ InSlots h .grow := by
  have hlog : (h.grow fresh).2 =
      (Logged.loop (h.growEntry fresh) h.follow.positions fun _ => .empty).2 := by
    rw [← h.grow_eq]
  have hmem : ∀ i < h.cap, ∀ j < (h.ring i).len, (i, j) ∈ h.follow.positions := by
    intro i hi j hj
    exact mem_positions.mpr ⟨hi, hj⟩
  unfold InSlots
  constructor
  · intro hall
    by_cases hv : h.valSize = 0
    · exact Or.inl hv
    · apply Or.inr
      intro i hi
      rcases Nat.eq_zero_or_pos (h.ring i).len with h0 | hpos
      · simp [h0]
      · obtain ⟨front, back, hsplit⟩ :=
          List.append_of_mem (hmem i hi ((h.ring i).len - 1) (Nat.sub_lt hpos Nat.one_pos))
        have hin := hall ⟨.values, ((h.ring i).len - 1) * h.keySize, h.valSize⟩ (by
          rw [hlog, Logged.mem_loop_snd]
          refine ⟨front, _, back, hsplit, ?_⟩
          unfold RawHashmap.growEntry
          simp)
        exact ((moved_inside_iff _).mp hin).resolve_left hv
  · intro hcond a ha
    rw [hlog, Logged.mem_loop_snd] at ha
    obtain ⟨front, p, back, hsplit, ha⟩ := ha
    have hp : p ∈ h.follow.positions := by
      rw [hsplit]
      exact List.mem_append_right front List.mem_cons_self
    obtain ⟨hcap, hlen⟩ := mem_positions.mp hp
    have hfive : (h.follow.ring p.1).len ≤ HASHMAP_MAX_COLLISION_COUNT := hs.filed.room _
    have hkey : (keySlot h.keySize p.2).Inside h.keySize h.valSize :=
      (keySlot_inside_iff _).mpr (Or.inl (hlen.trans_le hfive))
    have hvalue : (Access.mk .values (p.2 * h.keySize) h.valSize).Inside h.keySize h.valSize := by
      apply (moved_inside_iff p.2).mpr
      rcases hcond with hv | hall
      · exact Or.inl hv
      · have hle : p.2 ≤ (h.ring p.1).len - 1 := Nat.le_sub_one_of_lt hlen
        exact Or.inr ((Nat.mul_le_mul_right h.keySize hle).trans (hall p.1 hcap))
    have hroom : (h.grownRing fresh front (bucketIndex (h.cap * 2)
        (h.keyAt p.1 p.2))).len < HASHMAP_MAX_COLLISION_COUNT := by
      have hlt := hs.filed.grownRing_room (fun i => freshBucket h.keySize h.valSize (fresh i))
        htable hsplit
      rw [← (h.grownRing_follow fresh front).2] at hlt
      exact hlt
    unfold RawHashmap.growEntry at ha
    simp only [List.mem_cons] at ha
    rcases ha with rfl | rfl | rfl | ha
    · exact hkey
    · exact hkey
    · exact hvalue
    · exact push_inside _ _ _ hroom a ha

/-- A growth stays inside the slots of every table whose values are as large as its keys. -/
theorem grow_inside_of_le (hs : h.Sound keySize valSize) (fresh : Nat → Mem × Mem)
    (htable : 24 + 24 * h.cap * 2 < 2 ^ 64) (hle : h.keySize ≤ h.valSize ∨ h.valSize = 0) :
    AllInside h (h.grow fresh).2 := by
  rw [grow_inside_iff hs fresh htable]
  refine hle.symm.imp_right fun hle i _ => ?_
  have hroom : (h.ring i).len ≤ 5 := hs.filed.room i
  exact Nat.mul_le_mul (by omega) hle

/-- An insert that grows meets a full bucket, and reads all of its values. -/
theorem le_of_grow_inside (hs : h.Sound keySize valSize) (fresh : Nat → Mem × Mem)
    (htable : 24 + 24 * h.cap * 2 < 2 ^ 64) {key : List UInt8}
    (hfull : ¬ (h.ring (bucketIndex h.cap key)).len < HASHMAP_MAX_COLLISION_COUNT)
    (hall : AllInside h (h.grow fresh).2) : h.keySize ≤ h.valSize ∨ h.valSize = 0 := by
  rw [grow_inside_iff hs fresh htable] at hall
  rcases hall with hv | hall
  · exact Or.inr hv
  · have hbucket := hall _ (hs.filed.index_lt key)
    have hroom : (h.ring (bucketIndex h.cap key)).len ≤ HASHMAP_MAX_COLLISION_COUNT :=
      hs.filed.room _
    have hfive : (h.ring (bucketIndex h.cap key)).len = 5 :=
      Nat.le_antisymm hroom (Nat.le_of_not_lt hfull)
    have hfour : 4 * h.keySize ≤ 4 * h.valSize := by
      rw [show h.follow.cap = h.cap from rfl, hfive] at hbucket
      exact hbucket
    exact Or.inl (by omega)

theorem insert_inside_of_le {key value : List UInt8} {log : List Access}
    (hcall : RawInsert key value h h' log) (hs : h.Sound keySize valSize)
    (hle : h.keySize ≤ h.valSize ∨ h.valSize = 0) : AllInside h log := by
  induction hcall with
  | here fresh hroom =>
    exact push_inside fresh (fun i => key.getD i 0) (fun i => value.getD i 0) hroom
  | grow fresh _ htable _ ih =>
    rw [allInside_append]
    exact ⟨grow_inside_of_le hs fresh htable hle, ih (hs.step (.grow fresh htable)) hle⟩

theorem insert_inside_iff {key value : List UInt8} {log : List Access}
    (hcall : RawInsert key value h h' log) (hs : h.Sound keySize valSize) :
    AllInside h log ↔ InSlots h (.insert key value) := by
  have hwhole := hcall
  unfold InSlots
  cases hcall with
  | here fresh hroom =>
    refine ⟨fun _ => Or.inl hroom, fun _ => ?_⟩
    exact push_inside fresh (fun i => key.getD i 0) (fun i => value.getD i 0) hroom
  | grow fresh hfull htable _ =>
    constructor
    · intro hall
      exact Or.inr (le_of_grow_inside hs fresh htable hfull (allInside_append.mp hall).1)
    · intro hcond
      exact insert_inside_of_le hwhole hs (hcond.resolve_left hfull)

/-! ## 4. Runs -/

theorem step_inside_iff {e : HashmapOp × List Access} (hstep : RawStep h e h')
    (hs : h.Sound keySize valSize) : AllInside h e.2 ↔ InSlots h e.1 := by
  cases hstep with
  | insert _ _ hcall => exact insert_inside_iff hcall hs
  | remove _ => exact remove_inside_iff hs _
  | get _ => exact ⟨fun _ => trivial, fun _ => get_inside hs _⟩
  | grow fresh htable => exact grow_inside_iff hs fresh htable

/-- **A run stays inside the slots** exactly if no remove finds its key in a full bucket, and no
    growth finds a value behind its block. -/
theorem hashmap_accesses_inside_iff {es : List (HashmapOp × List Access)}
    (hrun : Run RawStep (RawHashmap.create keySize valSize) es h) :
    (∀ e ∈ es, ∀ a ∈ e.2, a.Inside keySize valSize) ↔
      Run (guarded (fun h e => InSlots h e.1) RawStep) (RawHashmap.create keySize valSize) es h := by
  have hgood : ∀ h e h', h.Sound keySize valSize → RawStep h e h' →
      ((∀ a ∈ e.2, a.Inside keySize valSize) ↔ InSlots h e.1) := by
    intro h e h' hs hstep
    have hkeys : h.keySize = keySize := hs.filed.keySize
    have hvalues : h.valSize = valSize := hs.filed.valSize
    rw [← step_inside_iff hstep hs, AllInside, hkeys, hvalues]
  exact hrun.guarded_iff (fun _ _ _ hs hstep => hs.step hstep) hgood (.create keySize valSize)

/-- A first key. -/
theorem hashmap_accesses_inside_first :
    (∀ e ∈ [(HashmapOp.insert [7] [2, 3],
        ((RawHashmap.create 1 2).insertHere zeroBlocks [7] [2, 3]).2)],
      ∀ a ∈ e.2, a.Inside 1 2) ↔
      Run (guarded (fun h e => InSlots h e.1) RawStep) (RawHashmap.create 1 2)
        [(.insert [7] [2, 3], ((RawHashmap.create 1 2).insertHere zeroBlocks [7] [2, 3]).2)]
        ((RawHashmap.create 1 2).insertHere zeroBlocks [7] [2, 3]).1 :=
  hashmap_accesses_inside_iff (.cons (.insertHere zeroBlocks rfl rfl (by decide) (by decide)
    (by decide +kernel)) (.nil _))

/-- The key `[7]`, put into a table of bytes. -/
def RawHashmap.putSeven (value : UInt8) (h : RawHashmap) : RawHashmap :=
  (h.insertHere zeroBlocks [7] [value]).1

theorem RawStep.putSeven (value : UInt8) (hkey : h.keySize = 1) (hvalue : h.valSize = 1)
    (hroom : (h.ring (bucketIndex h.cap [7])).len < HASHMAP_MAX_COLLISION_COUNT) :
    RawStep h (.insert [7] [value], (h.insertHere zeroBlocks [7] [value]).2) (h.putSeven value) :=
  .insertHere zeroBlocks hkey.symm hvalue.symm (by rw [hkey]; decide) (by rw [hvalue]; decide) hroom

/-- Five entries of one key. -/
def RawHashmap.sevens : RawHashmap :=
  ((((((RawHashmap.create 1 1).putSeven 1).putSeven 2).putSeven 3).putSeven 4).putSeven 5)

/-- **A remove from a full bucket reads a sixth slot.** -/
theorem hashmap_reads_sixth_slot : ∃ es h, Run RawStep (RawHashmap.create 1 1) es h ∧
    ∃ e ∈ es, ∃ a ∈ e.2, ¬ a.Inside 1 1 := by
  have hrun : Run RawStep (RawHashmap.create 1 1) _ RawHashmap.sevens :=
    .cons (.putSeven 1 rfl rfl (by decide +kernel)) <|
      .cons (.putSeven 2 rfl rfl (by decide +kernel)) <|
        .cons (.putSeven 3 rfl rfl (by decide +kernel)) <|
          .cons (.putSeven 4 rfl rfl (by decide +kernel)) <|
            .cons (.putSeven 5 rfl rfl (by decide +kernel)) (.nil _)
  have hremove : RawStep RawHashmap.sevens (.remove [7], (RawHashmap.sevens.remove [7]).2) _ :=
    .remove rfl
  refine ⟨_, _, hrun.append (.cons hremove (.nil _)), _,
    List.mem_append_right _ List.mem_cons_self, keySlot 1 5, ?_, ?_⟩
  · decide +kernel
  · decide

end IloPali
