import IloPali.Fdt

/-!
# Properties in the device tree (`fdt_get_property`)

`fdt_get_property` scans from the beginning of a node and counts how deep it is.  The node's own
properties are at depth 1, and a part of the tree that begins and ends inside the node leads back
to the depth it began at; so what the scan returns is a property of the node itself.
-/

namespace IloPali

open ByteMemory

/-! ## 1. The code -/

/-- `strcmp`; the second string is given without its final zero. -/
def strcmp (m : Mem) : Nat → List UInt8 → Int
  | s1, [] => if m s1 < 0 then -1 else if m s1 > 0 then 1 else 0
  | s1, c :: s2 =>
    if m s1 ≠ 0 ∧ c ≠ 0 then
      if m s1 < c then -1 else if m s1 > c then 1 else strcmp m (s1 + 1) s2
    else if m s1 < c then -1 else if m s1 > c then 1 else 0

/-- `struct fdt_property`. -/
structure FdtProperty where
  len : Nat
  key : Nat
  data : Nat
deriving DecidableEq

def FdtProperty.zero : FdtProperty := ⟨0, 0, 0⟩

/-- The main loop of `fdt_get_property`.  The depth has 64 bits in the source, more than the nodes
    that fit into memory. -/
def getPropertyLoop (m : Mem) (stringsBlock : Nat) (key : List UInt8) :
    Nat → Nat → Nat → Option FdtProperty
  | 0, _, _ => none
  | fuel + 1, node, depth =>
    let current := beToLe 32 m node
    if current = FDT_END then some .zero
    else if current = FDT_BEGIN_NODE then
      (skipString m fuel (node + 4)).bind fun c =>
        getPropertyLoop m stringsBlock key fuel (floor4 (c + 3)) (depth + 1)
    else if current = FDT_END_NODE then
      if depth - 1 = 0 then some .zero
      else getPropertyLoop m stringsBlock key fuel (node + 4) (depth - 1)
    else if current = FDT_PROP then
      let len := beToLe 32 m (node + 4)
      let nameOffset := beToLe 32 m (node + 8)
      if depth = 1 ∧ strcmp m (stringsBlock + nameOffset) key = 0 then
        some ⟨len, stringsBlock + nameOffset, node + 12⟩
      else getPropertyLoop m stringsBlock key fuel (floor4 (node + 12 + len + 3)) depth
    else if current = FDT_NOP then getPropertyLoop m stringsBlock key fuel (node + 4) depth
    else getPropertyLoop m stringsBlock key fuel node depth

/-- `fdt_get_property`. -/
def fdtGetProperty (fuel : Nat) (m : Mem) (structureBlock stringsBlock node : Nat)
    (key : List UInt8) : Option FdtProperty :=
  let node := if node = 0 then structureBlock else node
  if beToLe 32 m node ≠ FDT_BEGIN_NODE then some .zero
  else getPropertyLoop m stringsBlock key fuel node 0

/-! ## 2. Nodes and their properties -/

/-- The bytes of a part of the tree. -/
def Items.bytes (items : Items) : List UInt8 := items.tokens.flatMap Token.bytes

/-- A node of a tree: where it begins, its name and what it holds. -/
structure TreeNode where
  start : Nat
  name : List UInt8
  items : Items

/-- Where the items of a node begin. -/
def TreeNode.inside (n : TreeNode) : Nat := n.start + (Token.beginNode n.name).bytes.length

def TreeNode.tokens (n : TreeNode) : List Token :=
  .beginNode n.name :: n.items.tokens ++ [.endNode]

/-- The nodes in a part of the tree that begins at an address, at any depth. -/
def Items.treeNodes : Items → Nat → List TreeNode
  | .nil, _ => []
  | .nop rest, a => rest.treeNodes (a + Token.nop.bytes.length)
  | .prop nameOff data rest, a => rest.treeNodes (a + (Token.prop nameOff data).bytes.length)
  | .node name items rest, a =>
    let inside := a + (Token.beginNode name).bytes.length
    ⟨a, name, items⟩ :: items.treeNodes inside ++
      rest.treeNodes (inside + items.bytes.length + Token.endNode.bytes.length)

/-- All nodes of a tree. -/
def DeviceTree.treeNodes (d : DeviceTree) (structureBlock : Nat) : List TreeNode :=
  (Items.node [] d.items .nil).treeNodes (structureBlock + d.before * Token.nop.bytes.length)

/-- A property of a node, and where it begins. -/
structure TreeProperty where
  start : Nat
  nameOff : Nat
  data : List UInt8

/-- The properties in a part of the tree that are in none of its nodes. -/
def Items.properties : Items → Nat → List TreeProperty
  | .nil, _ => []
  | .nop rest, a => rest.properties (a + Token.nop.bytes.length)
  | .prop nameOff data rest, a =>
    ⟨a, nameOff, data⟩ :: rest.properties (a + (Token.prop nameOff data).bytes.length)
  | .node name items rest, a =>
    rest.properties (a + (Token.beginNode name).bytes.length + items.bytes.length +
      Token.endNode.bytes.length)

/-- The properties that belong directly to a node. -/
def TreeNode.properties (n : TreeNode) : List TreeProperty := n.items.properties n.inside

/-- Length, name and data of a property. -/
def TreeProperty.found (stringsBlock : Nat) (q : TreeProperty) : FdtProperty :=
  ⟨q.data.length, stringsBlock + q.nameOff, q.start + 12⟩

/-- The first property of a key, or the zero result. -/
def firstNamed (stringsBlock : Nat) (names : Nat → List UInt8) (key : List UInt8)
    (properties : List TreeProperty) : FdtProperty :=
  ((properties.find? fun q => names q.nameOff = key).map (TreeProperty.found stringsBlock)).getD .zero

/-- The names of the properties are in the strings block, each at its offset. -/
structure StringsAt (m : Mem) (stringsBlock : Nat) (names : Nat → List UInt8) (ts : List Token) :
    Prop where
  offset : ∀ nameOff data, Token.prop nameOff data ∈ ts → nameOff < 2 ^ 32
  string : ∀ nameOff data, Token.prop nameOff data ∈ ts → ∀ b ∈ names nameOff, b ≠ 0
  text : ∀ nameOff data, Token.prop nameOff data ∈ ts →
    HoldsBytes m (stringsBlock + nameOff) (names nameOff ++ [0])

/-- The call returns `r`: it does so with any fuel from some amount on. -/
def FdtGets (m : Mem) (structureBlock stringsBlock node : Nat) (key : List UInt8)
    (r : FdtProperty) : Prop :=
  ∃ n, ∀ fuel, n ≤ fuel → fdtGetProperty fuel m structureBlock stringsBlock node key = some r

/-! ## 3. One token -/

/-- Two strings are equal if `strcmp` says so. -/
theorem strcmp_eq_zero {m : Mem} {s1 : Nat} {name key : List UInt8} (hname : ∀ b ∈ name, b ≠ 0)
    (hkey : ∀ b ∈ key, b ≠ 0) (h : HoldsBytes m s1 (name ++ [0])) :
    strcmp m s1 key = 0 ↔ name = key := by
  induction key generalizing s1 name with
  | nil =>
    cases name with
    | nil =>
      have hzero : m s1 = 0 := h.1
      simp [strcmp, hzero]
    | cons b name =>
      have hb : m s1 > 0 := by
        rw [h.1]
        exact UInt8.pos_iff_ne_zero.mpr (hname b List.mem_cons_self)
      have hlow : ¬ m s1 < 0 := UInt8.not_lt_zero
      simp [strcmp, hb, hlow]
  | cons c key ih =>
    have hc : c ≠ 0 := hkey c List.mem_cons_self
    cases name with
    | nil =>
      have hzero : m s1 = 0 := h.1
      have hlow : m s1 < c := by
        rw [hzero]
        exact UInt8.pos_iff_ne_zero.mpr hc
      simp [strcmp, hzero, UInt8.pos_iff_ne_zero.mpr hc]
    | cons b name =>
      have hb : m s1 = b := h.1
      have hne : b ≠ 0 := hname b List.mem_cons_self
      rw [strcmp, hb, if_pos ⟨hne, hc⟩]
      rcases Nat.lt_trichotomy b.toNat c.toNat with hlt | heq | hgt
      · have hlt : b < c := UInt8.lt_iff_toNat_lt.mpr hlt
        have hdiff : b ≠ c := UInt8.ne_of_lt hlt
        simp [hlt, hdiff]
      · obtain rfl := UInt8.toNat_inj.mp heq
        have hrest := ih (fun b' hb' => hname b' (List.mem_cons_of_mem b hb'))
          (fun b' hb' => hkey b' (List.mem_cons_of_mem b hb')) h.2
        simp [UInt8.lt_irrefl, hrest]
      · have hgt : c < b := UInt8.lt_iff_toNat_lt.mpr hgt
        have hdiff : b ≠ c := (UInt8.ne_of_lt hgt).symm
        simp [UInt8.lt_asymm hgt, hgt, hdiff]

theorem Items.length_nop (rest : Items) :
    (Items.nop rest).bytes.length = Token.nop.bytes.length + rest.bytes.length :=
  List.length_append

theorem Items.length_prop (nameOff : Nat) (data : List UInt8) (rest : Items) :
    (Items.prop nameOff data rest).bytes.length =
      (Token.prop nameOff data).bytes.length + rest.bytes.length :=
  List.length_append

theorem Items.length_node (name : List UInt8) (items rest : Items) :
    (Items.node name items rest).bytes.length =
      (Token.beginNode name).bytes.length +
        (items.bytes.length + (Token.endNode.bytes.length + rest.bytes.length)) := by
  rw [Items.bytes, Items.tokens, List.cons_append, List.flatMap_cons, List.flatMap_append,
    List.flatMap_cons, List.length_append, List.length_append, List.length_append]
  rfl

/-- What a turn of the loop does at a token. -/
def turnAt (m : Mem) (stringsBlock : Nat) (key : List UInt8) (fuel a depth : Nat) :
    Token → Option FdtProperty
  | .beginNode n =>
    getPropertyLoop m stringsBlock key fuel (a + (Token.beginNode n).bytes.length) (depth + 1)
  | .endNode =>
    if depth - 1 = 0 then some .zero
    else getPropertyLoop m stringsBlock key fuel (a + Token.endNode.bytes.length) (depth - 1)
  | .prop nameOff data =>
    if depth = 1 ∧ strcmp m (stringsBlock + nameOff) key = 0 then
      some ⟨data.length, stringsBlock + nameOff, a + 12⟩
    else getPropertyLoop m stringsBlock key fuel (a + (Token.prop nameOff data).bytes.length) depth
  | .nop => getPropertyLoop m stringsBlock key fuel (a + Token.nop.bytes.length) depth

section Scan

variable {m : Mem} {stringsBlock : Nat} {key : List UInt8}

/-- One turn of the loop. -/
theorem getPropertyLoop_token {t : Token} {a fuel depth : Nat} (ha : a % 4 = 0) (hvalid : t.Valid)
    (hoff : ∀ nameOff data, t = .prop nameOff data → nameOff < 2 ^ 32)
    (h : HoldsBytes m a t.bytes) (hfuel : t.bytes.length ≤ fuel) :
    getPropertyLoop m stringsBlock key (fuel + 1) a depth =
      turnAt m stringsBlock key fuel a depth t := by
  rw [getPropertyLoop]
  dsimp only
  cases t with
  | beginNode n =>
    obtain ⟨hword, hname⟩ := holds_beginNode h
    have hlen := length_beginNode n
    obtain ⟨c, hc, hfloor⟩ := Option.map_eq_some_iff.mp
      (@skip_name m a 0 fuel n ha hvalid (Nat.zero_le _) hname (by omega))
    rw [Nat.add_zero] at hc
    rw [hword, if_neg (by decide), if_pos rfl, hc, Option.bind_some, hfloor, turnAt]
  | endNode =>
    have hword : beToLe 32 m a = FDT_END_NODE := beToLe_be32Bytes (by decide) h
    rw [hword, if_neg (by decide), if_neg (by decide), if_pos rfl]
    rfl
  | prop nameOff data =>
    obtain ⟨hword, hdata⟩ := holds_prop hvalid h
    have hname : beToLe 32 m (a + 8) = nameOff := by
      rw [Token.bytes, holdsBytes_append, length_be32Bytes, holdsBytes_append, length_be32Bytes,
        holdsBytes_append] at h
      exact beToLe_be32Bytes (hoff nameOff data rfl) h.2.2.1
    rw [hword, if_neg (by decide), if_neg (by decide), if_neg (by decide), if_pos rfl, hdata, hname,
      floor4_padding (by omega), turnAt, length_prop, Nat.add_assoc]
  | nop =>
    have hword : beToLe 32 m a = FDT_NOP := beToLe_be32Bytes (by decide) h
    rw [hword, if_neg (by decide), if_neg (by decide), if_neg (by decide), if_neg (by decide),
      if_pos rfl]
    rfl

/-! ## 4. The scan over a part of the tree -/

variable (m stringsBlock key)

/-- With any fuel from some amount on, the loop returns `r`. -/
def Gets (a depth : Nat) (r : FdtProperty) : Prop :=
  ∃ n, ∀ fuel, n ≤ fuel → getPropertyLoop m stringsBlock key fuel a depth = some r

variable {m stringsBlock key}

/-- The loop returns what it returns one turn later. -/
theorem Gets.step {a a' depth depth' n : Nat} {r : FdtProperty}
    (h : Gets m stringsBlock key a' depth' r)
    (hturn : ∀ fuel, n ≤ fuel → getPropertyLoop m stringsBlock key (fuel + 1) a depth =
      getPropertyLoop m stringsBlock key fuel a' depth') : Gets m stringsBlock key a depth r := by
  obtain ⟨n', hn'⟩ := h
  refine ⟨max n n' + 1, fun fuel hfuel => ?_⟩
  obtain ⟨fuel, rfl⟩ := Nat.exists_eq_succ_of_ne_zero (Nat.ne_of_gt (Nat.zero_lt_of_lt hfuel))
  rw [hturn fuel (by omega)]
  exact hn' fuel (by omega)

/-- A part of the tree in memory, with the names of its properties. -/
structure HoldsItems (m : Mem) (stringsBlock : Nat) (names : Nat → List UInt8) (ts : List Token)
    (a : Nat) : Prop where
  aligned : a % 4 = 0
  valid : ∀ t ∈ ts, t.Valid
  strings : StringsAt m stringsBlock names ts
  bytes : HoldsBytes m a (ts.flatMap Token.bytes)

variable {names : Nat → List UInt8} {ts ts' : List Token} {t : Token} {a : Nat}

theorem StringsAt.mono (h : StringsAt m stringsBlock names ts) (hsub : ts' ⊆ ts) :
    StringsAt m stringsBlock names ts' :=
  ⟨fun off data hmem => h.offset off data (hsub hmem),
    fun off data hmem => h.string off data (hsub hmem),
    fun off data hmem => h.text off data (hsub hmem)⟩

theorem HoldsItems.append (h : HoldsItems m stringsBlock names (ts ++ ts') a) :
    HoldsItems m stringsBlock names ts a ∧
      HoldsItems m stringsBlock names ts' (a + (ts.flatMap Token.bytes).length) := by
  obtain ⟨haligned, hvalid, hstrings, hbytes⟩ := h
  have hmod : (ts.flatMap Token.bytes).length % 4 = 0 := by
    clear hvalid hstrings hbytes
    induction ts with
    | nil => rfl
    | cons t ts ih =>
      have := (length_token t).1
      rw [List.flatMap_cons, List.length_append]
      omega
  rw [List.flatMap_append, holdsBytes_append] at hbytes
  constructor
  · exact ⟨haligned, fun t ht => hvalid t (List.mem_append_left _ ht),
      hstrings.mono (List.subset_append_left _ _), hbytes.1⟩
  · exact ⟨by omega, fun t ht => hvalid t (List.mem_append_right _ ht),
      hstrings.mono (List.subset_append_right _ _), hbytes.2⟩

theorem HoldsItems.tail (h : HoldsItems m stringsBlock names (t :: ts) a) :
    HoldsItems m stringsBlock names ts (a + t.bytes.length) := by
  have hparts := @HoldsItems.append m stringsBlock names [t] ts a h
  simpa using hparts.2

theorem HoldsItems.head (h : HoldsItems m stringsBlock names (t :: ts) a) :
    HoldsBytes m a t.bytes := by
  have hbytes := h.bytes
  rw [List.flatMap_cons, holdsBytes_append] at hbytes
  exact hbytes.1

/-- One turn at the first token of a part of the tree. -/
theorem HoldsItems.turn (h : HoldsItems m stringsBlock names (t :: ts) a) {fuel : Nat} (depth : Nat)
    (hfuel : t.bytes.length ≤ fuel) :
    getPropertyLoop m stringsBlock key (fuel + 1) a depth =
      turnAt m stringsBlock key fuel a depth t := by
  apply getPropertyLoop_token h.aligned (h.valid t List.mem_cons_self) ?_ h.head hfuel
  rintro nameOff data rfl
  exact h.strings.offset nameOff data List.mem_cons_self

/-- **A part of the tree is passed over** at a depth above 1, and the depth is the same behind
    it. -/
theorem HoldsItems.through {items : Items} {depth : Nat} {r : FdtProperty}
    (h : HoldsItems m stringsBlock names items.tokens a)
    (hr : Gets m stringsBlock key (a + items.bytes.length) (depth + 2) r) :
    Gets m stringsBlock key a (depth + 2) r := by
  induction items generalizing a depth with
  | nil => exact hr
  | nop rest ih =>
    have hrest := ih h.tail (by rwa [Items.length_nop, ← Nat.add_assoc] at hr)
    exact hrest.step fun fuel hfuel => h.turn (depth + 2) hfuel
  | prop nameOff data rest ih =>
    have hrest := ih h.tail (by rwa [Items.length_prop, ← Nat.add_assoc] at hr)
    refine hrest.step fun fuel hfuel => (h.turn (depth + 2) hfuel).trans ?_
    have hdepth : ¬ (depth + 2 = 1 ∧ strcmp m (stringsBlock + nameOff) key = 0) := by
      rintro ⟨hone, _⟩
      omega
    rw [turnAt, if_neg hdepth]
  | node name items rest ihItems ihRest =>
    have hinside : HoldsItems m stringsBlock names (items.tokens ++ .endNode :: rest.tokens) _ := h.tail
    obtain ⟨hitems, hbehind⟩ := hinside.append
    -- one deeper for the items of the node, and back at its end
    have hrest := ihRest hbehind.tail (by
      rw [Items.length_node, ← Nat.add_assoc, ← Nat.add_assoc, ← Nat.add_assoc] at hr
      exact hr)
    have hend := hrest.step fun fuel hfuel => hbehind.turn (depth + 3) hfuel
    have hdeep := @ihItems _ (depth + 1) hitems hend
    exact hdeep.step fun fuel hfuel => h.turn (depth + 2) hfuel

/-- **The node's own items**: the first property of the key, or what the scan returns behind
    them. -/
theorem HoldsItems.own {items : Items} {r : FdtProperty}
    (h : HoldsItems m stringsBlock names items.tokens a) (hkey : ∀ b ∈ key, b ≠ 0)
    (hr : Gets m stringsBlock key (a + items.bytes.length) 1 r) :
    Gets m stringsBlock key a 1 ((((items.properties a).find? fun q => names q.nameOff = key).map
      (TreeProperty.found stringsBlock)).getD r) := by
  induction items generalizing a with
  | nil => exact hr
  | nop rest ih =>
    have hrest := ih h.tail (by rwa [Items.length_nop, ← Nat.add_assoc] at hr)
    exact hrest.step fun fuel hfuel => h.turn 1 hfuel
  | prop nameOff data rest ih =>
    have hrest := ih h.tail (by rwa [Items.length_prop, ← Nat.add_assoc] at hr)
    have hmem : Token.prop nameOff data ∈ (Items.prop nameOff data rest).tokens := List.mem_cons_self
    have hcompare := strcmp_eq_zero (h.strings.string nameOff data hmem) hkey
      (h.strings.text nameOff data hmem)
    rw [Items.properties, List.find?_cons]
    by_cases hname : names nameOff = key
    · rw [decide_eq_true hname]
      refine ⟨(Token.prop nameOff data).bytes.length + 1, fun fuel hfuel => ?_⟩
      obtain ⟨fuel, rfl⟩ := Nat.exists_eq_succ_of_ne_zero (Nat.ne_of_gt (Nat.zero_lt_of_lt hfuel))
      exact (h.turn 1 (by omega)).trans (if_pos ⟨rfl, hcompare.mpr hname⟩)
    · rw [decide_eq_false hname]
      refine hrest.step fun fuel hfuel => (h.turn 1 hfuel).trans ?_
      have hdiff : ¬ (1 = 1 ∧ strcmp m (stringsBlock + nameOff) key = 0) := by
        rintro ⟨_, hzero⟩
        exact hname (hcompare.mp hzero)
      rw [turnAt, if_neg hdiff]
  | node name items rest _ ihRest =>
    have hinside : HoldsItems m stringsBlock names (items.tokens ++ .endNode :: rest.tokens) _ := h.tail
    obtain ⟨hitems, hbehind⟩ := hinside.append
    have hrest := ihRest hbehind.tail (by
      rw [Items.length_node, ← Nat.add_assoc, ← Nat.add_assoc, ← Nat.add_assoc] at hr
      exact hr)
    have hend := hrest.step fun fuel hfuel => hbehind.turn 2 hfuel
    have hdeep := @HoldsItems.through m stringsBlock key names _ items 0 _ hitems hend
    exact hdeep.step fun fuel hfuel => h.turn 1 hfuel

/-- The whole call, from the beginning of a node. -/
theorem HoldsItems.node {n : TreeNode} (h : HoldsItems m stringsBlock names n.tokens n.start)
    (hkey : ∀ b ∈ key, b ≠ 0) :
    Gets m stringsBlock key n.start 0 (firstNamed stringsBlock names key n.properties) := by
  obtain ⟨hitems, hend⟩ := @HoldsItems.append m stringsBlock names n.items.tokens _ _ h.tail
  have hzero : Gets m stringsBlock key (n.inside + n.items.bytes.length) 1 .zero := by
    refine ⟨5, fun fuel hfuel => ?_⟩
    obtain ⟨fuel, rfl⟩ := Nat.exists_eq_succ_of_ne_zero (Nat.ne_of_gt (Nat.zero_lt_of_lt hfuel))
    exact hend.turn 1 (Nat.le_of_succ_le_succ hfuel)
  have hown := hitems.own hkey hzero
  exact hown.step fun fuel hfuel => h.turn 0 hfuel

/-! ## 5. Every node of a tree -/

/-- Each node of a part of the tree is in memory. -/
theorem HoldsItems.treeNodes {items : Items} (h : HoldsItems m stringsBlock names items.tokens a) :
    ∀ n ∈ items.treeNodes a, a ≤ n.start ∧ HoldsItems m stringsBlock names n.tokens n.start := by
  induction items generalizing a with
  | nil =>
    intro n hn
    cases hn
  | nop rest ih =>
    intro n hn
    obtain ⟨hle, hholds⟩ := ih h.tail n hn
    exact ⟨Nat.le_of_add_right_le hle, hholds⟩
  | prop nameOff data rest ih =>
    intro n hn
    obtain ⟨hle, hholds⟩ := ih h.tail n hn
    exact ⟨Nat.le_of_add_right_le hle, hholds⟩
  | node name items rest ihItems ihRest =>
    have hinside : HoldsItems m stringsBlock names (items.tokens ++ .endNode :: rest.tokens) _ := h.tail
    obtain ⟨hitems, hbehind⟩ := hinside.append
    intro n hn
    rw [Items.treeNodes, List.cons_append, List.mem_cons, List.mem_append] at hn
    rcases hn with rfl | hn | hn
    · -- the node itself, without what follows it
      refine ⟨le_refl a, ?_⟩
      have hsplit : (Items.node name items rest).tokens =
          (TreeNode.mk a name items).tokens ++ rest.tokens := by
        simp [Items.tokens, TreeNode.tokens]
      rw [hsplit] at h
      exact h.append.1
    · obtain ⟨hle, hholds⟩ := ihItems hitems n hn
      exact ⟨Nat.le_of_add_right_le hle, hholds⟩
    · obtain ⟨hle, hholds⟩ := ihRest hbehind.tail n hn
      exact ⟨Nat.le_of_add_right_le (Nat.le_of_add_right_le (Nat.le_of_add_right_le hle)), hholds⟩

/-- The bytes of each property of a node are where its data is. -/
theorem HoldsItems.properties {items : Items} (h : HoldsItems m stringsBlock names items.tokens a) :
    ∀ q ∈ items.properties a, HoldsBytes m (q.found stringsBlock).data q.data := by
  induction items generalizing a with
  | nil =>
    intro q hq
    cases hq
  | nop rest ih =>
    intro q hq
    exact ih h.tail q hq
  | prop nameOff data rest ih =>
    intro q hq
    rcases List.mem_cons.mp hq with rfl | hq
    · have hbytes := h.head
      rw [Token.bytes, holdsBytes_append, holdsBytes_append, holdsBytes_append, holdsBytes_append]
        at hbytes
      exact hbytes.2.2.2.1
    · exact ih h.tail q hq
  | node name items rest _ ihRest =>
    have hinside : HoldsItems m stringsBlock names (items.tokens ++ .endNode :: rest.tokens) _ := h.tail
    intro q hq
    exact ihRest hinside.append.2.tail q hq

end Scan

/-- **Properties are looked up in their node.**  For every node of a tree in memory, wherever
    there are no-ops and whatever the values hold, `fdt_get_property` returns the first property
    of the key among those that belong directly to the node, with its length and its data, and the
    zero result if there is none. -/
theorem fdt_get_property_own (d : DeviceTree) (m : Mem) (structureBlock stringsBlock : Nat)
    (names : Nat → List UInt8) (key : List UInt8) (haligned : structureBlock % 4 = 0)
    (hpos : 0 < structureBlock) (hvalid : ∀ t ∈ d.tokens, t.Valid)
    (hblock : HoldsBytes m structureBlock (blockBytes d.tokens))
    (hstrings : StringsAt m stringsBlock names d.tokens) (hkey : ∀ b ∈ key, b ≠ 0)
    (n : TreeNode) (hn : n ∈ d.treeNodes structureBlock) (node : Nat)
    (hnode : node = n.start ∨ node = 0 ∧ n.start = structureBlock) :
    (∀ r, FdtGets m structureBlock stringsBlock node key r ↔
      r = firstNamed stringsBlock names key n.properties) ∧
    ∀ q ∈ n.properties, HoldsBytes m (q.found stringsBlock).data q.data := by
  have htokens : d.tokens = List.replicate d.before Token.nop ++
      ((Items.node [] d.items .nil).tokens ++ List.replicate d.behind .nop) := by
    simp [DeviceTree.tokens, Items.tokens]
  rw [blockBytes, holdsBytes_append] at hblock
  have hall : HoldsItems m stringsBlock names d.tokens structureBlock :=
    ⟨haligned, hvalid, hstrings, hblock.1⟩
  rw [htokens] at hall
  have hroot := hall.append.2.append.1
  rw [length_nops] at hroot
  obtain ⟨hle, hholds⟩ := hroot.treeNodes n hn
  have hstart : n.start ≠ 0 := by omega
  have hcursor : (if node = 0 then structureBlock else node) = n.start := by
    rcases hnode with rfl | ⟨rfl, hroot⟩
    · exact if_neg hstart
    · exact hroot.symm
  have hcall : ∀ fuel, fdtGetProperty fuel m structureBlock stringsBlock node key =
      getPropertyLoop m stringsBlock key fuel n.start 0 := by
    intro fuel
    rw [fdtGetProperty, hcursor]
    exact if_neg (not_not.mpr (holds_beginNode hholds.head).1)
  obtain ⟨fuel, hfuel⟩ := hholds.node hkey
  constructor
  · intro r
    constructor
    · rintro ⟨fuel', hr⟩
      have hsame := hr _ (Nat.le_max_right fuel fuel')
      rw [hcall, hfuel _ (Nat.le_max_left fuel fuel')] at hsame
      exact (Option.some.inj hsame).symm
    · rintro rfl
      exact ⟨fuel, fun fuel' hle' => (hcall fuel').trans (hfuel fuel' hle')⟩
  · exact hholds.tail.append.1.properties

/-- A tree at address 64: the root has the properties `b`, with the bytes of a token as its value,
    and, behind a node that has the properties `a` and `b`, the property `a`.  The names of the
    properties are at 1024. -/
def scopedTree : DeviceTree where
  before := 0
  items := .prop 2 (be32Bytes FDT_END_NODE) (.nop (.node [120] (.prop 0 [1] (.prop 2 [2] .nil))
    (.prop 0 [3, 4] .nil)))
  behind := 1

def scopedMem : Mem := fun x =>
  if x = 1024 then 97 else if x = 1026 then 98 else ofBytes 64 (blockBytes scopedTree.tokens) x

def scopedNames (nameOff : Nat) : List UInt8 := if nameOff = 0 then [97] else [98]

theorem scopedTree_nameOff {nameOff : Nat} {data : List UInt8}
    (h : Token.prop nameOff data ∈ scopedTree.tokens) : nameOff = 0 ∨ nameOff = 2 := by
  simp [scopedTree, DeviceTree.tokens, Items.tokens] at h
  omega

theorem scopedTree_strings : StringsAt scopedMem 1024 scopedNames scopedTree.tokens := by
  constructor
  · intro nameOff data hmem
    rcases scopedTree_nameOff hmem with rfl | rfl
    · decide
    · decide
  · intro nameOff data hmem
    rcases scopedTree_nameOff hmem with rfl | rfl
    · simp [scopedNames]
    · simp [scopedNames]
  · intro nameOff data hmem
    rcases scopedTree_nameOff hmem with rfl | rfl
    · decide +kernel
    · decide +kernel

/-- The property `a` of the root, not that of the node before it. -/
theorem fdt_get_property_scoped : FdtGets scopedMem 64 1024 0 [97] ⟨2, 1024, 148⟩ :=
  ((fdt_get_property_own scopedTree scopedMem 64 1024 scopedNames [97] (by decide) (by decide)
    (by decide +kernel) (by decide +kernel) scopedTree_strings (by simp)
    ⟨64, [], scopedTree.items⟩ List.mem_cons_self 0 (Or.inr ⟨rfl, rfl⟩)).1 _).mpr (by decide +kernel)

end IloPali
