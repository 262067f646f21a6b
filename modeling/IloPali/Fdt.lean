import IloPali.Lib.ByteMemory

/-!
# The flattened device tree (`fdt.c`)

The structure block of a device tree is a sequence of tokens, aligned to four bytes:
the tree written out in document order, with the properties of each node behind its
name.  `fdt_find` scans it for a name and goes on behind the node it found last.

This module says what the block of a tree is, what the scan does to it, and for which
trees the loop over `fdt_find` visits every node of a name.
-/

namespace IloPali

open ByteMemory

/-! ## 1. The code -/

def FDT_BEGIN_NODE : Nat := 0x01
def FDT_END_NODE : Nat := 0x02
def FDT_PROP : Nat := 0x03
def FDT_NOP : Nat := 0x04
def FDT_END : Nat := 0x09

/-- The words that are tokens. -/
def fdtNodeTypes : List Nat := [FDT_BEGIN_NODE, FDT_END_NODE, FDT_PROP, FDT_NOP, FDT_END]

/-- `be_to_le`. -/
def beToLe (size : Nat) (m : Mem) (be : Nat) : Nat :=
  let byteCount := size / 8
  (List.range byteCount).foldl
    (fun result i => result ||| (m (be + i)).toNat <<< ((byteCount - i - 1) * 8)) 0

/-- `p & ~0x3`. -/
def floor4 (p : Nat) : Nat := p / 4 * 4

/-- `while (*c++);`, with the number of bytes it may look at. -/
def skipString (m : Mem) : Nat → Nat → Option Nat
  | 0, _ => none
  | fuel + 1, c => if m c = 0 then some (c + 1) else skipString m fuel (c + 1)

/-- The character `@`. -/
def atSign : UInt8 := 64

/-- The loop of `fdt_find` that compares a name: how far it gets in both strings. -/
def matchName (m : Mem) : Nat → List UInt8 → Nat × List UInt8
  | c, [] => (c, [])
  | c, t :: tempName =>
    if m c ≠ 0 ∧ m c ≠ atSign then
      if m c ≠ t then (c, t :: tempName) else matchName m (c + 1) tempName
    else (c, t :: tempName)

/-- The main loop of `fdt_find`; 0 is `NULL`, and `none` says that it did not end. -/
def findLoop (m : Mem) (name : List UInt8) : Nat → Nat → Option Nat
  | 0, _ => none
  | fuel + 1, last =>
    let current := beToLe 32 m last
    if current = FDT_END then some 0
    else if current = FDT_BEGIN_NODE then
      let (c, tempName) := matchName m (last + 4) name
      if (m c = 0 ∨ m c = atSign) ∧ tempName = [] then some last
      else (skipString m fuel c).bind fun c => findLoop m name fuel (floor4 (c + 3))
    else if current = FDT_END_NODE then findLoop m name fuel (last + 4)
    else if current = FDT_PROP then
      let len := beToLe 32 m (last + 4)
      findLoop m name fuel (floor4 (last + 12 + len + 3))
    else if current = FDT_NOP then findLoop m name fuel (last + 4)
    else findLoop m name fuel last

/-- `fdt_find`. -/
def fdtFind (fuel : Nat) (m : Mem) (structureBlock : Nat) (name : List UInt8) (last : Nat) :
    Option Nat :=
  if last = 0 then findLoop m name fuel structureBlock
  else (skipString m fuel (last + 4)).bind fun c => findLoop m name fuel (floor4 (c + 4))

/-! ## 2. Structure blocks -/

inductive Token where
  | beginNode (name : List UInt8)
  | endNode
  | prop (nameOff : Nat) (data : List UInt8)
  | nop
deriving DecidableEq

/-- What a node holds: properties, nodes and no-ops, in order. -/
inductive Items where
  | nil
  | nop (rest : Items)
  | prop (nameOff : Nat) (data : List UInt8) (rest : Items)
  | node (name : List UInt8) (items rest : Items)

/-- The tokens of a part of the tree, in document order. -/
def Items.tokens : Items → List Token
  | .nil => []
  | .nop rest => .nop :: rest.tokens
  | .prop nameOff data rest => .prop nameOff data :: rest.tokens
  | .node name items rest => .beginNode name :: items.tokens ++ .endNode :: rest.tokens

/-- A device tree: the items of its root, with no-ops before and behind it. -/
structure DeviceTree where
  before : Nat
  items : Items
  behind : Nat

/-- The name of the root is empty. -/
def DeviceTree.tokens (d : DeviceTree) : List Token :=
  List.replicate d.before .nop ++
    .beginNode [] :: d.items.tokens ++ .endNode :: List.replicate d.behind .nop

/-- A 32-bit number in big-endian order. -/
def be32Bytes (v : Nat) : List UInt8 :=
  [UInt8.ofNat (v / 2 ^ 24), UInt8.ofNat (v / 2 ^ 16), UInt8.ofNat (v / 2 ^ 8), UInt8.ofNat v]

/-- The zero bytes that align `n` bytes to four. -/
def padding (n : Nat) : List UInt8 := List.replicate ((4 - n % 4) % 4) 0

def Token.bytes : Token → List UInt8
  | .beginNode name => be32Bytes FDT_BEGIN_NODE ++ (name ++ 0 :: padding (name.length + 1))
  | .endNode => be32Bytes FDT_END_NODE
  | .prop nameOff data =>
    be32Bytes FDT_PROP ++ (be32Bytes data.length ++ (be32Bytes nameOff ++ (data ++ padding data.length)))
  | .nop => be32Bytes FDT_NOP

/-- The structure block: the tokens, and `FDT_END`. -/
def blockBytes (ts : List Token) : List UInt8 := ts.flatMap Token.bytes ++ be32Bytes FDT_END

/-- Names are strings, and the length of a property is a 32-bit number. -/
def Token.Valid : Token → Prop
  | .beginNode name => ∀ c ∈ name, c ≠ 0
  | .prop _ data => data.length < 2 ^ 32
  | _ => True

instance (t : Token) : Decidable t.Valid :=
  match t with
  | .beginNode name => inferInstanceAs (Decidable (∀ c ∈ name, c ≠ 0))
  | .endNode => isTrue trivial
  | .prop _ data => inferInstanceAs (Decidable (data.length < 2 ^ 32))
  | .nop => isTrue trivial

/-- Each token with its address, from `a` on. -/
def place : Nat → List Token → List (Nat × Token)
  | _, [] => []
  | a, t :: ts => (a, t) :: place (a + t.bytes.length) ts

/-! ## 3. Nodes of a name -/

/-- A node's name up to `@`, or to its end. -/
def baseName (name : List UInt8) : List UInt8 := name.takeWhile (· ≠ atSign)

def Token.Named (name : List UInt8) : Token → Bool
  | .beginNode n => baseName n = name
  | .endNode => false
  | .prop _ _ => false
  | .nop => false

/-- The length of a node's name. -/
def Token.nameLength : Token → Nat
  | .beginNode n => n.length
  | .endNode => 0
  | .prop _ _ => 0
  | .nop => 0

/-- The addresses of the nodes with a name, in document order. -/
def nodesNamed (name : List UInt8) (ts : List (Nat × Token)) : List Nat :=
  (ts.filter fun t => t.2.Named name).map Prod.fst

/-- The call returns `result`: it does so with any fuel from some amount on. -/
def FdtFinds (m : Mem) (structureBlock : Nat) (name : List UInt8) (last result : Nat) : Prop :=
  ∃ n, ∀ fuel, n ≤ fuel → fdtFind fuel m structureBlock name last = some result

/-- `fdt_find`, called with its own result again and again until it returns `NULL`. -/
inductive Enumerates (m : Mem) (structureBlock : Nat) (name : List UInt8) : Nat → List Nat → Prop
  | done {last : Nat} (h : FdtFinds m structureBlock name last 0) :
      Enumerates m structureBlock name last []
  | next {last node : Nat} {nodes : List Nat} (h : FdtFinds m structureBlock name last node)
      (hnode : node ≠ 0) (hrest : Enumerates m structureBlock name node nodes) :
      Enumerates m structureBlock name last (node :: nodes)

/-- Whether every node of a name can be stepped over.  The rule of the first lines of
    `fdt_find` skips one word more than the scan does where a name fills its words, and
    that word must then be a token that holds nothing. -/
def Resumable (name : List UInt8) : List Token → Prop
  | [] => True
  | t :: ts =>
    (t.Named name = true → t.bytes.length = 4 + t.nameLength + 1 →
      ts.head? = some .nop ∨ ts.head? = some .endNode) ∧ Resumable name ts

instance decidableResumable (name : List UInt8) : (ts : List Token) → Decidable (Resumable name ts)
  | [] => isTrue trivial
  | t :: ts =>
    have := decidableResumable name ts
    inferInstanceAs (Decidable ((t.Named name = true → t.bytes.length = 4 + t.nameLength + 1 →
      ts.head? = some .nop ∨ ts.head? = some .endNode) ∧ Resumable name ts))

/-! ## 4. Reading words and names -/

theorem length_be32Bytes (v : Nat) : (be32Bytes v).length = 4 := rfl

theorem length_padding (n : Nat) : (n + (padding n).length) % 4 = 0 := by
  rw [padding, List.length_replicate]
  omega

/-- A digit below a multiple of its range. -/
theorem or_digit {hi lo k : Nat} (h : lo < 2 ^ k) : hi * 2 ^ k ||| lo = hi * 2 ^ k + lo := by
  rw [← Nat.shiftLeft_eq, Nat.shiftLeft_add_eq_or_of_lt h]

/-- A big-endian word reads as its number. -/
theorem beToLe_be32Bytes {m : Mem} {a v : Nat} (hv : v < 2 ^ 32)
    (h : HoldsBytes m a (be32Bytes v)) : beToLe 32 m a = v := by
  obtain ⟨h0, h1, h2, h3, _⟩ := h
  have hbytes : beToLe 32 m a = (((0 ||| (m (a + 0)).toNat <<< 24) ||| (m (a + 1)).toNat <<< 16) |||
      (m (a + 1 + 1)).toNat <<< 8) ||| (m (a + 1 + 1 + 1)).toNat <<< 0 := rfl
  rw [hbytes, Nat.add_zero, h0, h1, h2, h3]
  simp only [UInt8.toNat_ofNat', Nat.shiftLeft_eq, Nat.zero_or, Nat.pow_zero, Nat.mul_one]
  have e1 : v / 2 ^ 24 % 2 ^ 8 * 2 ^ 24 ||| v / 2 ^ 16 % 2 ^ 8 * 2 ^ 16 = v / 2 ^ 16 * 2 ^ 16 := by
    rw [or_digit (by omega)]
    omega
  have e2 : v / 2 ^ 16 * 2 ^ 16 ||| v / 2 ^ 8 % 2 ^ 8 * 2 ^ 8 = v / 2 ^ 8 * 2 ^ 8 := by
    rw [or_digit (by omega)]
    omega
  have e3 : v / 2 ^ 8 * 2 ^ 8 ||| v % 2 ^ 8 = v := by
    rw [or_digit (by omega)]
    omega
  rw [e1, e2, e3]

/-- Skipping a string takes one look at each of its bytes. -/
theorem skipString_spec {m : Mem} {c fuel : Nat} {name : List UInt8} (hname : ∀ b ∈ name, b ≠ 0)
    (h : HoldsBytes m c (name ++ [0])) (hfuel : name.length < fuel) :
    skipString m fuel c = some (c + name.length + 1) := by
  induction name generalizing c fuel with
  | nil =>
    cases fuel with
    | zero => exact absurd hfuel (Nat.not_lt_zero _)
    | succ fuel =>
      rw [skipString, if_pos h.1]
      rfl
  | cons b name ih =>
    cases fuel with
    | zero => exact absurd hfuel (Nat.not_lt_zero _)
    | succ fuel =>
      have hb : m c ≠ 0 := by
        rw [h.1]
        exact hname b List.mem_cons_self
      rw [skipString, if_neg hb, ih (fun b' hb' => hname b' (List.mem_cons_of_mem b hb')) h.2
        (Nat.lt_of_succ_lt_succ hfuel), List.length_cons]
      congr 1
      omega

/-- The comparison gets `k` bytes far, in both strings, and ends at a character that is not
    part of what is compared or at the first difference. -/
theorem matchName_spec {m : Mem} {c : Nat} {node : List UInt8} (name : List UInt8) (hnode : ∀ b ∈ node, b ≠ 0)
    (h : HoldsBytes m c (node ++ [0])) :
    ∃ k, k ≤ node.length ∧ (matchName m c name).1 = c + k ∧
      HoldsBytes m (c + k) (node.drop k ++ [0]) ∧
      ((m (c + k) = 0 ∨ m (c + k) = atSign) ∧ (matchName m c name).2 = [] ↔
        baseName node = name) := by
  induction name generalizing c node with
  | nil =>
    refine ⟨0, Nat.zero_le _, rfl, h, ?_⟩
    rw [matchName, Nat.add_zero]
    cases node with
    | nil => exact ⟨fun _ => rfl, fun _ => ⟨Or.inl h.1, rfl⟩⟩
    | cons b node =>
      have hb : b ≠ 0 := hnode b List.mem_cons_self
      rw [h.1, baseName, List.takeWhile_cons]
      by_cases hat : b = atSign
      · simp [hat]
      · simp [hat, hb]
  | cons t name ih =>
    rw [matchName]
    cases node with
    | nil =>
      refine ⟨0, le_refl _, ?_, h, ?_⟩
      · rw [if_neg fun hcon => hcon.1 h.1]
        rfl
      · rw [if_neg fun hcon => hcon.1 h.1]
        exact ⟨fun hcon => absurd hcon.2 (List.cons_ne_nil _ _), fun hcon => nomatch hcon⟩
    | cons b node =>
      have hb : m c ≠ 0 := by
        rw [h.1]
        exact hnode b List.mem_cons_self
      by_cases hat : m c = atSign
      · refine ⟨0, Nat.zero_le _, ?_, h, ?_⟩
        · rw [if_neg fun hcon => hcon.2 hat]
          rfl
        · rw [if_neg fun hcon => hcon.2 hat]
          have hbase : baseName (b :: node) = [] := by
            rw [baseName, List.takeWhile_cons, ← h.1, hat]
            rfl
          rw [hbase]
          exact ⟨fun hcon => absurd hcon.2 (List.cons_ne_nil _ _), fun hcon => nomatch hcon⟩
      · have hbase : baseName (b :: node) = b :: baseName node := by
          rw [baseName, List.takeWhile_cons, ← h.1, if_pos (by simpa using hat)]
          rfl
        rw [if_pos ⟨hb, hat⟩, hbase]
        by_cases hne : m c = t
        · rw [if_neg (not_not.mpr hne)]
          obtain ⟨k, hk, hpos, hrest, hiff⟩ :=
            ih (fun b' hb' => hnode b' (List.mem_cons_of_mem b hb')) h.2
          have hadd : c + 1 + k = c + (k + 1) := by omega
          rw [hadd] at hpos hrest hiff
          refine ⟨k + 1, Nat.succ_le_succ hk, hpos, hrest, hiff.trans ?_⟩
          rw [← hne, h.1, List.cons.injEq]
          exact ⟨fun heq => ⟨rfl, heq⟩, And.right⟩
        · rw [if_pos hne]
          refine ⟨0, Nat.zero_le _, rfl, h, ?_⟩
          rw [← h.1]
          exact ⟨fun hcon => absurd hcon.2 (List.cons_ne_nil _ _),
            fun hcon => absurd (List.cons.inj hcon).1 hne⟩

/-! ## 5. The scan over tokens -/

theorem length_beginNode (name : List UInt8) :
    (Token.beginNode name).bytes.length = 4 + (name.length + 1 + (padding (name.length + 1)).length) := by
  rw [Token.bytes, List.length_append, length_be32Bytes, List.length_append, List.length_cons]
  omega

theorem length_prop (nameOff : Nat) (data : List UInt8) :
    (Token.prop nameOff data).bytes.length = 12 + (data.length + (padding data.length).length) := by
  rw [Token.bytes, List.length_append, List.length_append, List.length_append, List.length_append,
    length_be32Bytes, length_be32Bytes, length_be32Bytes]
  omega

/-- A token fills whole words. -/
theorem length_token (t : Token) : t.bytes.length % 4 = 0 ∧ 4 ≤ t.bytes.length := by
  cases t with
  | beginNode name =>
    have := length_padding (name.length + 1)
    rw [length_beginNode]
    omega
  | endNode => exact ⟨rfl, le_refl _⟩
  | prop nameOff data =>
    have := length_padding data.length
    rw [length_prop]
    omega
  | nop => exact ⟨rfl, le_refl _⟩

theorem length_nops (k : Nat) :
    ((List.replicate k Token.nop).flatMap Token.bytes).length = k * Token.nop.bytes.length := by
  induction k with
  | zero => rw [Nat.zero_mul, List.replicate_zero, List.flatMap_nil, List.length_nil]
  | succ k ih =>
    rw [List.replicate_succ, List.flatMap_cons, List.length_append, ih, Nat.succ_mul, Nat.add_comm]

/-- The next token begins at the next word boundary. -/
theorem floor4_padding {a n : Nat} (ha : a % 4 = 0) :
    floor4 (a + n + 3) = a + (n + (padding n).length) := by
  rw [padding, List.length_replicate, floor4]
  omega

theorem holds_name {m : Mem} {a : Nat} {name : List UInt8}
    (h : HoldsBytes m a (Token.beginNode name).bytes) :
    HoldsBytes m (a + 4) (name ++ 0 :: padding (name.length + 1)) := by
  rw [Token.bytes, holdsBytes_append] at h
  exact h.2

theorem holds_beginNode {m : Mem} {a : Nat} {name : List UInt8}
    (h : HoldsBytes m a (Token.beginNode name).bytes) :
    beToLe 32 m a = FDT_BEGIN_NODE ∧ HoldsBytes m (a + 4) (name ++ [0]) := by
  have hname := holds_name h
  rw [Token.bytes, holdsBytes_append] at h
  refine ⟨beToLe_be32Bytes (by decide) h.1, ?_⟩
  rw [← List.singleton_append, ← List.append_assoc, holdsBytes_append] at hname
  exact hname.1

theorem holds_prop {m : Mem} {a nameOff : Nat} {data : List UInt8} (hvalid : data.length < 2 ^ 32)
    (h : HoldsBytes m a (Token.prop nameOff data).bytes) :
    beToLe 32 m a = FDT_PROP ∧ beToLe 32 m (a + 4) = data.length := by
  rw [Token.bytes, holdsBytes_append, length_be32Bytes, holdsBytes_append] at h
  exact ⟨beToLe_be32Bytes (by decide) h.1, beToLe_be32Bytes hvalid h.2.1⟩

/-- Skipping a name from anywhere in it leads to the next token. -/
theorem skip_name {m : Mem} {a k : Nat} (fuel : Nat) {name : List UInt8} (ha : a % 4 = 0)
    (hname : ∀ b ∈ name, b ≠ 0) (hk : k ≤ name.length)
    (h : HoldsBytes m (a + 4 + k) (name.drop k ++ [0])) (hfuel : name.length < fuel) :
    (skipString m fuel (a + 4 + k)).map (fun c => floor4 (c + 3)) =
      some (a + (Token.beginNode name).bytes.length) := by
  have hlen : (name.drop k).length = name.length - k := List.length_drop
  rw [skipString_spec (fun b hb => hname b (List.mem_of_mem_drop hb)) h (by omega), hlen,
    Option.map_some, length_beginNode, Option.some.injEq]
  have hfloor := @floor4_padding (a + 4) (name.length + 1) (by omega)
  rw [show a + 4 + k + (name.length - k) + 1 + 3 = a + 4 + (name.length + 1) + 3 by omega, hfloor]
  omega

/-- One turn of the loop stops at a node of the name, and steps over any other token. -/
theorem findLoop_token {m : Mem} {name : List UInt8} {t : Token} {a fuel : Nat} (ha : a % 4 = 0)
    (hvalid : t.Valid) (h : HoldsBytes m a t.bytes) (hfuel : t.bytes.length ≤ fuel) :
    findLoop m name (fuel + 1) a =
      if t.Named name then some a else findLoop m name fuel (a + t.bytes.length) := by
  rw [findLoop]
  cases t with
  | beginNode n =>
    obtain ⟨hword, hname⟩ := holds_beginNode h
    obtain ⟨k, hk, hpos, hrest, hiff⟩ := matchName_spec name hvalid hname
    have hlen := length_beginNode n
    have hskip := skip_name fuel ha hvalid hk hrest (by omega)
    dsimp only
    rw [hword, if_neg (by decide), if_pos rfl, hpos]
    by_cases hnamed : baseName n = name
    · rw [if_pos (hiff.mpr hnamed), if_pos (by simpa [Token.Named] using hnamed)]
    · rw [if_neg fun hcon => hnamed (hiff.mp hcon), if_neg (by simpa [Token.Named] using hnamed)]
      obtain ⟨c, hc, hfloor⟩ := Option.map_eq_some_iff.mp hskip
      rw [hc, Option.bind_some, hfloor]
  | endNode =>
    have hword : beToLe 32 m a = FDT_END_NODE := beToLe_be32Bytes (by decide) h
    dsimp only
    rw [hword, if_neg (by decide), if_neg (by decide), if_pos rfl, Token.Named,
      if_neg Bool.false_ne_true]
    rfl
  | prop nameOff data =>
    obtain ⟨hword, hdata⟩ := holds_prop hvalid h
    dsimp only
    rw [hword, if_neg (by decide), if_neg (by decide), if_neg (by decide), if_pos rfl, hdata,
      floor4_padding (by omega), Token.Named, if_neg Bool.false_ne_true, length_prop, Nat.add_assoc]
  | nop =>
    have hword : beToLe 32 m a = FDT_NOP := beToLe_be32Bytes (by decide) h
    dsimp only
    rw [hword, if_neg (by decide), if_neg (by decide), if_neg (by decide), if_neg (by decide),
      if_pos rfl, Token.Named,
      if_neg Bool.false_ne_true]
    rfl

theorem findLoop_end {m : Mem} {name : List UInt8} {a fuel : Nat}
    (h : HoldsBytes m a (be32Bytes FDT_END)) : findLoop m name (fuel + 1) a = some 0 := by
  rw [findLoop]
  dsimp only
  rw [beToLe_be32Bytes (by decide) h, if_pos rfl]

theorem blockBytes_cons (t : Token) (ts : List Token) :
    blockBytes (t :: ts) = t.bytes ++ blockBytes ts := by
  rw [blockBytes, List.flatMap_cons, List.append_assoc]
  rfl

theorem nodesNamed_cons (name : List UInt8) (a : Nat) (t : Token) (ts : List (Nat × Token)) :
    nodesNamed name ((a, t) :: ts) =
      if t.Named name then a :: nodesNamed name ts else nodesNamed name ts := by
  unfold nodesNamed
  rw [List.filter_cons]
  dsimp only
  by_cases hnamed : t.Named name = true
  · rw [if_pos hnamed, if_pos hnamed, List.map_cons]
  · rw [if_neg hnamed, if_neg hnamed]

/-- **The scan.**  From a token on, the loop returns the next node of the name. -/
theorem findLoop_spec {m : Mem} {name : List UInt8} {ts : List Token} {a fuel : Nat}
    (ha : a % 4 = 0) (hvalid : ∀ t ∈ ts, t.Valid) (h : HoldsBytes m a (blockBytes ts))
    (hfuel : (blockBytes ts).length < fuel) :
    findLoop m name fuel a = some ((nodesNamed name (place a ts)).headD 0) := by
  induction ts generalizing a fuel with
  | nil =>
    obtain ⟨fuel, rfl⟩ := Nat.exists_eq_succ_of_ne_zero (Nat.ne_of_gt (Nat.zero_lt_of_lt hfuel))
    exact findLoop_end h
  | cons t ts ih =>
    obtain ⟨fuel, rfl⟩ := Nat.exists_eq_succ_of_ne_zero (Nat.ne_of_gt (Nat.zero_lt_of_lt hfuel))
    rw [blockBytes_cons, holdsBytes_append] at h
    rw [blockBytes_cons, List.length_append] at hfuel
    obtain ⟨hmod, hlen⟩ := length_token t
    rw [findLoop_token ha (hvalid t List.mem_cons_self) h.1 (by omega),
      ih (by omega) (fun t' ht' => hvalid t' (List.mem_cons_of_mem t ht')) h.2 (by omega)]
    rw [place, nodesNamed_cons]
    by_cases hnamed : t.Named name = true
    · rw [if_pos hnamed, if_pos hnamed]
      rfl
    · rw [if_neg hnamed, if_neg hnamed]

/-! ## 6. The loop over `fdt_find` -/

/-- A call returns one result. -/
theorem FdtFinds.unique {m : Mem} {structureBlock : Nat} {name : List UInt8} {last r r' : Nat}
    (h : FdtFinds m structureBlock name last r) (h' : FdtFinds m structureBlock name last r') :
    r = r' := by
  obtain ⟨n, h⟩ := h
  obtain ⟨n', h'⟩ := h'
  have hr := h _ (Nat.le_max_left n n')
  rw [h' _ (Nat.le_max_right n n')] at hr
  exact (Option.some.inj hr).symm

theorem Enumerates.unique {m : Mem} {structureBlock : Nat} {name : List UInt8} {last : Nat}
    {nodes nodes' : List Nat} (h : Enumerates m structureBlock name last nodes)
    (h' : Enumerates m structureBlock name last nodes') : nodes = nodes' := by
  induction h generalizing nodes' with
  | done h =>
    cases h' with
    | done _ => rfl
    | next h2 hnode _ => exact absurd (h2.unique h) hnode
  | next h hnode _ ih =>
    cases h' with
    | done h2 => exact absurd (h.unique h2) hnode
    | next h2 _ hrest =>
      obtain rfl := h.unique h2
      rw [ih hrest]

theorem fdtFind_first {m : Mem} {structureBlock : Nat} {name : List UInt8} {ts : List Token}
    (haligned : structureBlock % 4 = 0) (hvalid : ∀ t ∈ ts, t.Valid)
    (h : HoldsBytes m structureBlock (blockBytes ts)) :
    FdtFinds m structureBlock name 0 ((nodesNamed name (place structureBlock ts)).headD 0) := by
  refine ⟨(blockBytes ts).length + 1, fun fuel hfuel => ?_⟩
  rw [fdtFind, if_pos rfl]
  exact findLoop_spec haligned hvalid h hfuel

/-- Going on behind a node that was found. -/
theorem fdtFind_resume {m : Mem} {structureBlock : Nat} {name n : List UInt8} {ts : List Token}
    {a : Nat} (ha : a % 4 = 0) (hpos : 0 < a) (hname : ∀ b ∈ n, b ≠ 0)
    (hvalid : ∀ t ∈ ts, t.Valid) (h : HoldsBytes m a (blockBytes (.beginNode n :: ts)))
    (hskip : n.length % 4 = 3 → ts.head? = some .nop ∨ ts.head? = some .endNode) :
    FdtFinds m structureBlock name a
      ((nodesNamed name (place (a + (Token.beginNode n).bytes.length) ts)).headD 0) := by
  rw [blockBytes_cons, holdsBytes_append] at h
  obtain ⟨hnode, hrest⟩ := h
  obtain ⟨hmod, hlen⟩ := length_token (.beginNode n)
  have hbytes : (blockBytes (.beginNode n :: ts)).length =
      (Token.beginNode n).bytes.length + (blockBytes ts).length := by
    rw [blockBytes_cons, List.length_append]
  have hsize := length_beginNode n
  rw [padding, List.length_replicate] at hsize
  refine ⟨(blockBytes (.beginNode n :: ts)).length + 1, fun fuel hfuel => ?_⟩
  rw [fdtFind, if_neg (Nat.ne_of_gt hpos),
    skipString_spec hname (holds_beginNode hnode).2 (by omega), Option.bind_some]
  by_cases h3 : n.length % 4 = 3
  · -- one word more is skipped, and it holds a token of its own
    have hfloor : floor4 (a + 4 + n.length + 1 + 4) = a + (Token.beginNode n).bytes.length + 4 := by
      rw [floor4]
      omega
    rw [hfloor]
    have hempty : ∃ t rest, ts = t :: rest ∧ t.bytes.length = 4 ∧ t.Named name = false := by
      rcases hskip h3 with hhead | hhead
      · obtain ⟨rest, hrest⟩ := List.head?_eq_some_iff.mp hhead
        exact ⟨_, rest, hrest, rfl, rfl⟩
      · obtain ⟨rest, hrest⟩ := List.head?_eq_some_iff.mp hhead
        exact ⟨_, rest, hrest, rfl, rfl⟩
    obtain ⟨t, rest, rfl, ht4, hnamed⟩ := hempty
    rw [blockBytes_cons, holdsBytes_append, ht4] at hrest
    rw [place, nodesNamed_cons, hnamed, if_neg Bool.false_ne_true, ht4]
    apply findLoop_spec (by omega) (fun t' ht' => hvalid t' (List.mem_cons_of_mem t ht')) hrest.2
    rw [blockBytes_cons t, List.length_append] at hbytes
    omega
  · have hfloor : floor4 (a + 4 + n.length + 1 + 4) = a + (Token.beginNode n).bytes.length := by
      rw [floor4]
      omega
    rw [hfloor]
    apply findLoop_spec (by omega) hvalid hrest
    omega

/-- From a token on, the loop over `fdt_find` visits the nodes that follow. -/
theorem enumerates_from {m : Mem} {structureBlock : Nat} {name : List UInt8} {ts : List Token}
    {a last : Nat} (ha : a % 4 = 0) (hpos : 0 < a) (hvalid : ∀ t ∈ ts, t.Valid)
    (h : HoldsBytes m a (blockBytes ts)) (hresume : Resumable name ts)
    (hnext : FdtFinds m structureBlock name last ((nodesNamed name (place a ts)).headD 0)) :
    Enumerates m structureBlock name last (nodesNamed name (place a ts)) := by
  induction ts generalizing a last with
  | nil => exact .done hnext
  | cons t ts ih =>
    have hblock := h
    rw [blockBytes_cons, holdsBytes_append] at h
    obtain ⟨hmod, hlen⟩ := length_token t
    have hvalid' : ∀ t' ∈ ts, t'.Valid := fun t' ht' => hvalid t' (List.mem_cons_of_mem t ht')
    rw [place, nodesNamed_cons] at hnext ⊢
    by_cases hnamed : t.Named name = true
    · rw [if_pos hnamed] at hnext ⊢
      cases t with
      | beginNode n =>
        refine .next hnext (Nat.ne_of_gt hpos) (ih (by omega) (by omega) hvalid' h.2 hresume.2 ?_)
        apply fdtFind_resume ha hpos (hvalid _ List.mem_cons_self) hvalid' hblock
        intro h3
        apply hresume.1 hnamed
        rw [length_beginNode, padding, List.length_replicate, Token.nameLength]
        omega
      | endNode => exact absurd hnamed Bool.false_ne_true
      | prop nameOff data => exact absurd hnamed Bool.false_ne_true
      | nop => exact absurd hnamed Bool.false_ne_true
    · rw [if_neg hnamed] at hnext ⊢
      exact ih (by omega) (by omega) hvalid' h.2 hresume.2 hnext

/-- Addresses grow along the block. -/
theorem place_sorted (a : Nat) (ts : List Token) :
    (∀ t ∈ place a ts, a ≤ t.1) ∧ (place a ts).Pairwise fun t t' => t.1 < t'.1 := by
  induction ts generalizing a with
  | nil => exact ⟨fun _ ht => (nomatch ht), .nil⟩
  | cons t ts ih =>
    obtain ⟨hle, hpair⟩ := ih (a + t.bytes.length)
    have hlen := (length_token t).2
    refine ⟨fun t' ht' => ?_, .cons (fun t' ht' => ?_) hpair⟩
    · rcases List.mem_cons.mp ht' with rfl | ht'
      · exact le_refl a
      · have := hle t' ht'
        omega
    · have := hle t' ht'
      show a < t'.1
      omega

/-- **Enumeration.**  Where every node of the name can be stepped over, the loop over
    `fdt_find` visits the nodes of the name, each once and in document order, and ends. -/
theorem fdt_find_enumerates (d : DeviceTree) (m : Mem) (structureBlock : Nat) (name : List UInt8)
    (haligned : structureBlock % 4 = 0) (hpos : 0 < structureBlock)
    (hvalid : ∀ t ∈ d.tokens, t.Valid)
    (hblock : HoldsBytes m structureBlock (blockBytes d.tokens))
    (hresume : Resumable name d.tokens) :
    (∀ nodes, Enumerates m structureBlock name 0 nodes ↔
      nodes = nodesNamed name (place structureBlock d.tokens)) ∧
    (nodesNamed name (place structureBlock d.tokens)).Pairwise (· < ·) := by
  have hall := enumerates_from haligned hpos hvalid hblock hresume
    (fdtFind_first haligned hvalid hblock)
  refine ⟨fun nodes => ⟨fun h => h.unique hall, fun h => h ▸ hall⟩, ?_⟩
  exact List.pairwise_map.mpr ((place_sorted _ _).2.filter _)

/-- `/cpus` with two processors, at address 64; the names are `cpus`, `cpu@0` and `cpu@100`. -/
def cpusTree : DeviceTree where
  before := 0
  items := .node [99, 112, 117, 115]
    (.node [99, 112, 117, 64, 48] (.prop 0 [1, 2, 3] .nil)
      (.node [99, 112, 117, 64, 49, 48, 48] .nil .nil)) .nil
  behind := 0

theorem fdt_find_enumerates_cpus : Enumerates (ofBytes 64 (blockBytes cpusTree.tokens)) 64
    [99, 112, 117] 0 [84, 116] :=
  ((fdt_find_enumerates cpusTree (ofBytes 64 (blockBytes cpusTree.tokens)) 64 [99, 112, 117]
    (by decide) (by decide) (by decide +kernel) (ofBytes_holds _ _) (by decide +kernel)).1
      [84, 116]).mpr (by decide +kernel)

/-! ## 7. Nodes that cannot be stepped over -/

/-- At a word that is no token the loop stands still. -/
theorem findLoop_stuck {m : Mem} {last : Nat} (h : beToLe 32 m last ∉ fdtNodeTypes)
    (name : List UInt8) (fuel : Nat) : findLoop m name fuel last = none := by
  simp only [fdtNodeTypes, List.mem_cons, List.not_mem_nil, or_false, not_or] at h
  obtain ⟨h1, h2, h3, h4, h9⟩ := h
  induction fuel with
  | zero => rfl
  | succ fuel ih =>
    rw [findLoop]
    dsimp only
    rw [if_neg h9, if_neg h1, if_neg h2, if_neg h3, if_neg h4]
    exact ih

/-- A name is no token. -/
theorem beToLe_name {m : Mem} {a : Nat} {n : List UInt8} (hn : ∀ b ∈ n, b ≠ 0)
    (h : HoldsBytes m a (n ++ 0 :: padding (n.length + 1))) :
    beToLe 32 m a ∉ fdtNodeTypes := by
  cases n with
  | nil =>
    have hzero : beToLe 32 m a = 0 := beToLe_be32Bytes (by decide) h
    rw [hzero]
    decide
  | cons b n =>
    have hb : 1 ≤ (m a).toNat := by
      rw [h.1]
      exact Nat.pos_of_ne_zero fun hcon => hn b List.mem_cons_self (UInt8.toNat_inj.mp hcon)
    have hlarge : 2 ^ 24 ≤ beToLe 32 m a := by
      have hbytes : beToLe 32 m a = (((0 ||| (m (a + 0)).toNat <<< 24) |||
        (m (a + 1)).toNat <<< 16) ||| (m (a + 2)).toNat <<< 8) ||| (m (a + 3)).toNat <<< 0 := rfl
      rw [hbytes, Nat.zero_or, Nat.add_zero]
      refine le_trans ?_ (Nat.left_le_or.trans (Nat.left_le_or.trans Nat.left_le_or))
      rw [Nat.shiftLeft_eq]
      omega
    intro hmem
    have hsmall : ∀ v ∈ fdtNodeTypes, v ≤ 9 := by decide
    have := hsmall _ hmem
    omega

/-- A token whose second word is no token. -/
def Token.Opaque : Token → Prop
  | .beginNode _ => True
  | .prop _ data => data.length ∉ fdtNodeTypes
  | _ => False

/-- **Nodes that are lost.**  From a node whose name fills its words and that begins with a
    node, or with a property of an unfortunate length, `fdt_find` does not return. -/
theorem fdtFind_lost {m : Mem} {structureBlock a : Nat} {n : List UInt8} {t : Token}
    {ts : List Token} (ha : a % 4 = 0) (hpos : 0 < a) (hn : ∀ b ∈ n, b ≠ 0) (ht : t.Valid)
    (h : HoldsBytes m a (blockBytes (.beginNode n :: t :: ts))) (hlen : n.length % 4 = 3)
    (hopq : t.Opaque) (name : List UInt8) (r : Nat) :
    ¬ FdtFinds m structureBlock name a r := by
  rintro ⟨fuel, hcall⟩
  have hmore := hcall _ (Nat.le_max_left fuel (n.length + 1))
  rw [blockBytes_cons, holdsBytes_append, blockBytes_cons, holdsBytes_append] at h
  obtain ⟨hnode, htoken, _⟩ := h
  have hsize := length_beginNode n
  rw [padding, List.length_replicate] at hsize
  rw [fdtFind, if_neg (Nat.ne_of_gt hpos), skipString_spec hn (holds_beginNode hnode).2
    (Nat.lt_of_succ_le (Nat.le_max_right fuel (n.length + 1))), Option.bind_some] at hmore
  have hfloor : floor4 (a + 4 + n.length + 1 + 4) = a + (Token.beginNode n).bytes.length + 4 := by
    rw [floor4]
    omega
  have hword : beToLe 32 m (a + (Token.beginNode n).bytes.length + 4) ∉ fdtNodeTypes := by
    cases t with
    | beginNode n' => exact beToLe_name ht (holds_name htoken)
    | prop nameOff data =>
      rw [(holds_prop ht htoken).2]
      exact hopq
    | endNode => exact hopq.elim
    | nop => exact hopq.elim
  rw [hfloor, findLoop_stuck hword] at hmore
  exact nomatch hmore

/-- One processor, whose name fills its words and which has a property of eight bytes. -/
def lostTree : DeviceTree where
  before := 0
  items := .node [99, 112, 117, 64, 49, 48, 48] (.prop 0 [0, 0, 0, 0, 0, 0, 1, 0] .nil) .nil
  behind := 0

/-- **The only processor is found, and the next call does not return.** -/
theorem fdt_find_lost : ¬ ∃ nodes, Enumerates (ofBytes 64 (blockBytes lostTree.tokens)) 64
    [99, 112, 117] 0 nodes := by
  have hnode : HoldsBytes (ofBytes 64 (blockBytes lostTree.tokens)) 72
      (blockBytes (lostTree.tokens.drop 1)) := by decide +kernel
  have hfirst : FdtFinds (ofBytes 64 (blockBytes lostTree.tokens)) 64 [99, 112, 117] 0 72 :=
    fdtFind_first (by decide) (by decide +kernel) (ofBytes_holds 64 (blockBytes lostTree.tokens))
  have hopq : Token.Opaque (.prop 0 [0, 0, 0, 0, 0, 0, 1, 0]) :=
    show 8 ∉ fdtNodeTypes by decide
  have hname : ∀ b ∈ ([99, 112, 117, 64, 49, 48, 48] : List UInt8), b ≠ 0 := by simp
  have hlost := @fdtFind_lost _ 64 72 _ _ _ (by decide) (by decide) hname (by decide) hnode
    (by decide) hopq [99, 112, 117]
  rintro ⟨nodes, hall⟩
  cases hall with
  | done h => exact absurd (h.unique hfirst) (by decide)
  | next h _ hrest =>
    obtain rfl := h.unique hfirst
    cases hrest with
    | done h => exact hlost 0 h
    | next h _ _ => exact hlost _ h

end IloPali
