import IloPali.Printf
import IloPali.FdtProperty

/-!
# Dumping a device tree (`dump_fdt`)

`dump_fdt` scans the structure block with a cursor and a counter for the indentation, and stops
when the counter is back at zero.  What it writes for a node is what a printer writes that goes
down the tree: each name and each property on a line of its own, indented by its depth.
-/

namespace IloPali

open ByteMemory

/-! ## 1. The code -/

/-- `fdt_t`. -/
structure FdtT where
  header : Nat
  memoryReservationBlock : Nat
  structureBlock : Nat
  stringsBlock : Nat
deriving DecidableEq

/-- `verify_fdt`. -/
def verifyFdt (m : Mem) (fdt : Nat) : FdtT :=
  if fdt ≠ 0 ∧ beToLe 32 m fdt = 0xd00dfeed ∧ beToLe 32 m (fdt + 20) = 17 then
    { header := fdt
      memoryReservationBlock := fdt + beToLe 32 m (fdt + 16)
      structureBlock := fdt + beToLe 32 m (fdt + 8)
      stringsBlock := fdt + beToLe 32 m (fdt + 12) }
  else ⟨0, 0, 0, 0⟩

/-- The loop that indents a line. -/
def indentation (indent : Int) : Output :=
  outputs (fun _ => consolePuts "    ".toList) (List.range indent.toNat)

/-- The loop that writes the name of a node, and where it stops. -/
def putName (m : Mem) : Nat → Nat → Output × Nat
  | 0, c => (([], false), c)
  | fuel + 1, c =>
    if m c ≠ 0 then
      let (rest, c') := putName m fuel (c + 1)
      ((consolePrintf "%c".toList [.word (m c).toNat]).andThen rest, c')
    else (([], true), c)

/-- The value of a property: a number, if its first byte is zero, and else characters. -/
def dumpData (m : Mem) (ptr len : Nat) : Output :=
  if m ptr = 0 then
    consolePrintf "0x%lx (0x%x bytes)\n".toList [.word (beToLe (len * 8 % 2 ^ 32) m ptr), .word len]
  else
    (outputs (fun i => consolePrintf "%c".toList [.word (m (ptr + i)).toNat]) (List.range len)).andThen
      (consolePrintf " (0x%x bytes)\n".toList [.word len])

/-- One turn of the main loop: what it writes, and the cursor and the indentation after it. -/
def dumpTurn (m : Mem) (stringsBlock : Nat) (node : Nat) (fuel ptr : Nat) (indent : Int) :
    Output × Nat × Int :=
  let current := beToLe 32 m ptr
  if current = FDT_BEGIN_NODE then
    -- the root of the whole tree has its name already
    if node ≠ 0 ∨ indent + 1 ≠ 1 then
      let (name, c) := putName m fuel (ptr + 4)
      ((indentation indent).andThen (name.andThen (consolePuts ":\n".toList)), floor4 (c + 4), indent + 1)
    else (indentation indent, floor4 (ptr + 4 + 4), indent + 1)
  else if current = FDT_END_NODE then (([], true), ptr + 4, indent - 1)
  else if current = FDT_PROP then
    let len := beToLe 32 m (ptr + 4)
    let name := stringsBlock + beToLe 32 m (ptr + 8)
    ((indentation indent).andThen
      ((consoleVprintf fuel "property %s = ".toList [.string fun i => some (m (name + i))]).andThen
        (dumpData m (ptr + 12) len)), floor4 (ptr + 12 + len + 3), indent)
  else if current = FDT_NOP then (([], true), ptr + 4, indent)
  else (([], true), ptr, indent)

/-- The main loop. -/
def dumpLoop (m : Mem) (stringsBlock : Nat) (node : Nat) : Nat → Nat → Int → Output
  | 0, _, _ => ([], false)
  | fuel + 1, ptr, indent =>
    let (written, ptr, indent) := dumpTurn m stringsBlock node fuel ptr indent
    written.andThen
      (if beToLe 32 m ptr ≠ FDT_END ∧ indent > 0 then dumpLoop m stringsBlock node fuel ptr indent
        else ([], true))

def chars (s : List Char) : List UInt8 := s.map fun c => .ofNat c.toNat

/-- Bytes as one number, the first byte on top. -/
def beValue (data : List UInt8) : Nat := data.foldl (fun v b => v * 2 ^ 8 + b.toNat) 0

def indentText (depth : Nat) : List UInt8 :=
  (List.range depth).flatMap fun _ => chars "    ".toList

/-- A value that begins with a zero byte, or has no byte, is a number. -/
def valueText (data : List UInt8) : List UInt8 :=
  (if data.headD 0 = 0 then chars "0x".toList ++ numeral (beValue data) else data) ++
    (chars " (0x".toList ++ numeral data.length ++ chars " bytes)\n".toList)

def propertyText (name data : List UInt8) : List UInt8 :=
  chars "property ".toList ++ name ++ chars " = ".toList ++ valueText data

/-- What is written for a part of the tree. -/
def Items.render (names : Nat → List UInt8) (depth : Nat) : Items → List UInt8
  | .nil => []
  | .nop rest => rest.render names depth
  | .prop nameOff data rest =>
    indentText depth ++ propertyText (names nameOff) data ++ rest.render names depth
  | .node name items rest =>
    indentText depth ++ name ++ chars ":\n".toList ++ items.render names (depth + 1) ++
      rest.render names depth

/-- What is written for a node on its own. -/
def TreeNode.render (names : Nat → List UInt8) (n : TreeNode) : List UInt8 :=
  n.name ++ chars ":\n".toList ++ n.items.render names 1

/-- A number among the values fits into the word that `be_to_le` shifts its bytes to. -/
def Narrow (ts : List Token) : Prop :=
  ∀ nameOff data, Token.prop nameOff data ∈ ts → data.headD 0 = 0 → data.length ≤ 8

theorem holdsBytes_get {m : Mem} {a : Nat} {bytes : List UInt8} (h : HoldsBytes m a bytes) {i : Nat}
    (hi : i < bytes.length) : m (a + i) = bytes[i] := by
  induction bytes generalizing a i with
  | nil => exact absurd hi (Nat.not_lt_zero i)
  | cons b bytes ih =>
    cases i with
    | zero => exact h.1
    | succ i =>
      have hrest := ih h.2 (Nat.lt_of_succ_lt_succ hi)
      rwa [Nat.add_assoc, Nat.add_comm 1 i] at hrest

/-- **A number in big-endian order** is read as the number. -/
theorem beToLe_beValue {m : Mem} {a : Nat} {data : List UInt8} (h : HoldsBytes m a data) :
    beToLe (data.length * 8) m a = beValue data := by
  have hprefix : ∀ k, k ≤ data.length →
      (List.range k).foldl
        (fun result i => result ||| (m (a + i)).toNat <<< ((data.length - i - 1) * 8)) 0 =
      beValue (data.take k) * 2 ^ ((data.length - k) * 8) := by
    intro k hk
    induction k with
    | zero => simp [beValue]
    | succ k ih =>
      have hlt : k < data.length := hk
      have hshift : (data.length - k) * 8 = 8 + (data.length - k - 1) * 8 := by omega
      rw [List.range_succ, List.foldl_append, ih (Nat.le_of_lt hlt), List.take_succ_eq_append_getElem hlt,
        beValue, beValue, List.foldl_append, List.foldl_cons, List.foldl_nil, List.foldl_cons,
        List.foldl_nil, holdsBytes_get h hlt, Nat.shiftLeft_eq, hshift, Nat.pow_add, ← Nat.mul_assoc,
        ← Nat.shiftLeft_eq _ (_ * 8), ← Nat.shiftLeft_eq _ (_ * 8), ← Nat.shiftLeft_or_distrib,
        or_digit data[k].toNat_lt, Nat.shiftLeft_eq, Nat.sub_sub]
  rw [beToLe, Nat.mul_div_cancel _ (by decide)]
  have hall := hprefix data.length (Nat.le_refl _)
  rwa [List.take_length, Nat.sub_self, Nat.zero_mul, Nat.pow_zero, Nat.mul_one] at hall

theorem consolePuts_chars (s : List Char) : consolePuts s = (chars s, true) := consolePuts_eq s

theorem indentation_eq (depth : Nat) : indentation depth = (indentText depth, true) :=
  outputs_eq fun _ _ => consolePuts_chars _

theorem printf_char (c : Nat) : consolePrintf "%c".toList [.word c] = ([.ofNat c], true) := rfl

/-- The name of a node is written up to its end. -/
theorem putName_eq {m : Mem} {c fuel : Nat} {name : List UInt8} (hname : ∀ b ∈ name, b ≠ 0)
    (h : HoldsBytes m c (name ++ [0])) (hfuel : name.length < fuel) :
    putName m fuel c = ((name, true), c + name.length) := by
  induction name generalizing c fuel with
  | nil =>
    obtain ⟨fuel, rfl⟩ := Nat.exists_eq_succ_of_ne_zero (Nat.ne_of_gt (Nat.zero_lt_of_lt hfuel))
    rw [putName, if_neg (not_not.mpr h.1)]
    rfl
  | cons b name ih =>
    obtain ⟨fuel, rfl⟩ := Nat.exists_eq_succ_of_ne_zero (Nat.ne_of_gt (Nat.zero_lt_of_lt hfuel))
    have hb : m c ≠ 0 := by
      rw [h.1]
      exact hname b List.mem_cons_self
    have hchar : consolePrintf "%c".toList [.word (m c).toNat] = ([b], true) := by
      rw [printf_char, h.1, UInt8.ofNat_toNat]
    rw [putName, if_pos hb, ih (fun b' hb' => hname b' (List.mem_cons_of_mem b hb')) h.2
      (Nat.lt_of_succ_lt_succ hfuel), hchar]
    simp [Output.andThen, Nat.add_assoc, Nat.add_comm 1]

theorem spells_name {m : Mem} {a : Nat} {name : List UInt8} (hname : ∀ b ∈ name, b ≠ 0)
    (h : HoldsBytes m a (name ++ [0])) : Spells (fun i => some (m (a + i))) name := by
  refine ⟨hname, fun i hi => ?_, ?_⟩
  · have hget := holdsBytes_get h (i := i) (by simp; omega)
    rw [hget, List.getElem_append_left hi, List.getElem?_eq_getElem hi]
  · have hget := holdsBytes_get h (i := name.length) (by simp)
    rw [hget]
    simp

/-- The line of a property, up to its value. -/
theorem printf_property {load : Nat → Option UInt8} {name : List UInt8} (h : Spells load name)
    {fuel : Nat} (hfuel : name.length < fuel) :
    consoleVprintf fuel "property %s = ".toList [.string load] =
      (chars "property ".toList ++ name ++ chars " = ".toList, true) := by
  have hpieces := @vprintf_pieces fuel
    [.text "property ".toList, .string load name, .text " = ".toList]
    (by simp [Piece.Valid, h, hfuel]) []
  simpa [Piece.format, Piece.args, Piece.writes, chars] using hpieces

theorem printf_number (v len : Nat) : consolePrintf "0x%lx (0x%x bytes)\n".toList [.word v, .word len] =
    (chars "0x".toList ++ numeral v ++ (chars " (0x".toList ++ numeral (len % 2 ^ 32) ++
      chars " bytes)\n".toList), true) := by
  have hpieces := @vprintf_pieces 0
    [.text "0x".toList, .long v, .text " (0x".toList, .hex len, .text " bytes)\n".toList]
    (by simp [Piece.Valid]) []
  simpa [Piece.format, Piece.args, Piece.writes, chars, consolePrintf] using hpieces

theorem printf_length (len : Nat) : consolePrintf " (0x%x bytes)\n".toList [.word len] =
    (chars " (0x".toList ++ numeral (len % 2 ^ 32) ++ chars " bytes)\n".toList, true) := by
  have hpieces := @vprintf_pieces 0
    [.text " (0x".toList, .hex len, .text " bytes)\n".toList] (by simp [Piece.Valid]) []
  simpa [Piece.format, Piece.args, Piece.writes, chars, consolePrintf] using hpieces

theorem dumpData_eq {m : Mem} {ptr : Nat} {data : List UInt8} (h : HoldsBytes m ptr data)
    (hfirst : m ptr = data.headD 0) (hlen : data.length < 2 ^ 32)
    (hnarrow : data.headD 0 = 0 → data.length ≤ 8) :
    dumpData m ptr data.length = (valueText data, true) := by
  have hsmall : data.length % 2 ^ 32 = data.length := Nat.mod_eq_of_lt hlen
  unfold dumpData valueText
  rw [hfirst]
  by_cases hzero : data.headD 0 = 0
  · have hbits : data.length * 8 % 2 ^ 32 = data.length * 8 := by
      have hle := hnarrow hzero
      exact Nat.mod_eq_of_lt (by omega)
    rw [if_pos hzero, if_pos hzero, printf_number, hbits, beToLe_beValue h, hsmall]
  · rw [if_neg hzero, if_neg hzero, printf_length, hsmall]
    have hchars : outputs (fun i => consolePrintf "%c".toList [.word (m (ptr + i)).toNat])
        (List.range data.length) = (data, true) := by
      have hone : ∀ i ∈ List.range data.length,
          consolePrintf "%c".toList [.word (m (ptr + i)).toNat] = ([data.getD i 0], true) := by
        intro i hi
        have hlt := List.mem_range.mp hi
        rw [holdsBytes_get h hlt, printf_char, UInt8.ofNat_toNat]
        simp [hlt]
      rw [outputs_eq hone, ← List.map_eq_flatMap, map_getD_range rfl]
    rw [hchars, Output.andThen_complete rfl]

/-! ## 4. One turn -/

/-- A token that is not the last begins here. -/
def GoesOn (m : Mem) (a : Nat) : Prop := m a = 0 ∧ beToLe 32 m a ≠ FDT_END

theorem goesOn_token {m : Mem} {a : Nat} {t : Token} (hvalid : t.Valid) (h : HoldsBytes m a t.bytes) :
    GoesOn m a := by
  cases t with
  | beginNode name =>
    refine ⟨h.1, ?_⟩
    rw [(holds_beginNode h).1]
    decide
  | endNode =>
    refine ⟨h.1, ?_⟩
    rw [beToLe_be32Bytes (by decide) h]
    decide
  | prop nameOff data =>
    refine ⟨h.1, ?_⟩
    rw [(holds_prop hvalid h).1]
    decide
  | nop =>
    refine ⟨h.1, ?_⟩
    rw [beToLe_be32Bytes (by decide) h]
    decide

section Turns

variable {m : Mem} {stringsBlock node a fuel : Nat} (ha : a % 4 = 0)

theorem indentation_int {depth : Nat} : indentation (depth : Int) = (indentText depth, true) :=
  indentation_eq depth

include ha in
theorem dumpTurn_beginNode {name : List UInt8} {depth : Nat} (hvalid : ∀ b ∈ name, b ≠ 0)
    (h : HoldsBytes m a (Token.beginNode name).bytes) (hfuel : name.length < fuel)
    (hnamed : node ≠ 0 ∨ depth ≠ 0) : dumpTurn m stringsBlock node fuel a depth =
      ((indentText depth ++ name ++ chars ":\n".toList, true),
        a + (Token.beginNode name).bytes.length, ((depth + 1 : Nat) : Int)) := by
  obtain ⟨hword, hname⟩ := holds_beginNode h
  have hcond : node ≠ 0 ∨ (depth : Int) + 1 ≠ 1 := hnamed.imp_right fun h => by omega
  have hfloor := @floor4_padding (a + 4) (name.length + 1) (by omega)
  have hnext : floor4 (a + 4 + name.length + 4) = a + (Token.beginNode name).bytes.length := by
    rw [length_beginNode, ← Nat.add_assoc, ← hfloor]
    rfl
  unfold dumpTurn
  rw [hword, if_pos rfl, if_pos hcond, putName_eq hvalid hname hfuel]
  dsimp only
  rw [hnext, indentation_int, consolePuts_chars]
  simp [Output.andThen]

theorem dumpTurn_endNode {depth : Nat} (h : HoldsBytes m a Token.endNode.bytes) :
    dumpTurn m stringsBlock node fuel a ((depth + 1 : Nat) : Int) =
      (([], true), a + Token.endNode.bytes.length, (depth : Int)) := by
  have hword : beToLe 32 m a = FDT_END_NODE := beToLe_be32Bytes (by decide) h
  unfold dumpTurn
  rw [hword, if_neg (by decide), if_pos rfl, Nat.cast_succ, Int.add_sub_cancel]
  rfl

theorem dumpTurn_nop {depth : Nat} (h : HoldsBytes m a Token.nop.bytes) :
    dumpTurn m stringsBlock node fuel a depth =
      (([], true), a + Token.nop.bytes.length, (depth : Int)) := by
  have hword : beToLe 32 m a = FDT_NOP := beToLe_be32Bytes (by decide) h
  unfold dumpTurn
  rw [hword, if_neg (by decide), if_neg (by decide), if_neg (by decide), if_pos rfl]
  rfl

include ha in
theorem dumpTurn_prop {names : Nat → List UInt8} {nameOff : Nat} {data : List UInt8} {ts : List Token}
    {depth : Nat} (h : HoldsItems m stringsBlock names (.prop nameOff data :: ts) a)
    (hnext : GoesOn m (a + (Token.prop nameOff data).bytes.length))
    (hnarrow : data.headD 0 = 0 → data.length ≤ 8) (hfuel : (names nameOff).length < fuel) :
    dumpTurn m stringsBlock node fuel a depth =
      ((indentText depth ++ propertyText (names nameOff) data, true),
        a + (Token.prop nameOff data).bytes.length, (depth : Int)) := by
  have hvalid : data.length < 2 ^ 32 := h.valid _ List.mem_cons_self
  obtain ⟨hword, hlen⟩ := holds_prop hvalid h.head
  have hbytes := h.head
  rw [Token.bytes, holdsBytes_append, holdsBytes_append, holdsBytes_append, holdsBytes_append] at hbytes
  simp only [length_be32Bytes] at hbytes
  obtain ⟨_, _, hoff, hdata, _⟩ := hbytes
  have hname := beToLe_be32Bytes (h.strings.offset nameOff data List.mem_cons_self) hoff
  have hspells := spells_name (h.strings.string nameOff data List.mem_cons_self)
    (h.strings.text nameOff data List.mem_cons_self)
  have hstart : a + 4 + 4 + 4 = a + 12 := rfl
  rw [hstart] at hdata
  have hfirst : m (a + 12) = data.headD 0 := by
    cases data with
    | nil =>
      -- the first byte of the token behind it
      rw [length_prop] at hnext
      exact hnext.1
    | cons b data => exact hdata.1
  have hfloor : floor4 (a + 12 + data.length + 3) = a + (Token.prop nameOff data).bytes.length := by
    rw [floor4_padding (by omega), length_prop, Nat.add_assoc]
  unfold dumpTurn
  rw [hword, if_neg (by decide), if_neg (by decide), if_pos rfl, hlen, hname]
  dsimp only
  rw [hfloor, printf_property hspells hfuel, dumpData_eq hdata hfirst hvalid hnarrow, indentation_int]
  simp [Output.andThen, propertyText]

end Turns

/-! ## 5. The scan -/

section Scan

variable {m : Mem} {stringsBlock node : Nat}

/-- The main loop writes `text` and ends. -/
def Dumps (m : Mem) (stringsBlock node ptr : Nat) (indent : Int) (text : List UInt8) : Prop :=
  ∃ n, ∀ fuel, n ≤ fuel → dumpLoop m stringsBlock node fuel ptr indent = (text, true)

/-- A turn after which the loop goes on. -/
theorem Dumps.step {a a' n depth' : Nat} {indent : Int} {written text : List UInt8}
    (hnext : GoesOn m a') (h : Dumps m stringsBlock node a' ((depth' + 1 : Nat) : Int) text)
    (hturn : ∀ fuel, n ≤ fuel → dumpTurn m stringsBlock node fuel a indent =
      ((written, true), a', ((depth' + 1 : Nat) : Int))) :
    Dumps m stringsBlock node a indent (written ++ text) := by
  obtain ⟨n', hn'⟩ := h
  refine ⟨max n n' + 1, fun fuel hfuel => ?_⟩
  obtain ⟨fuel, rfl⟩ := Nat.exists_eq_succ_of_ne_zero (Nat.ne_of_gt (Nat.zero_lt_of_lt hfuel))
  have hn : n ≤ fuel ∧ n' ≤ fuel := by omega
  rw [dumpLoop, hturn fuel hn.1]
  dsimp only
  rw [if_pos ⟨hnext.2, by omega⟩, hn' fuel hn.2]
  rfl

/-- A turn after which the loop ends. -/
theorem Dumps.stop {a a' : Nat} {indent : Int} {written : List UInt8}
    (hturn : ∀ fuel, dumpTurn m stringsBlock node fuel a indent =
      ((written, true), a', ((0 : Nat) : Int))) :
    Dumps m stringsBlock node a indent written := by
  refine ⟨1, fun fuel hfuel => ?_⟩
  obtain ⟨fuel, rfl⟩ := Nat.exists_eq_succ_of_ne_zero (Nat.ne_of_gt hfuel)
  rw [dumpLoop, hturn fuel]
  dsimp only
  rw [if_neg (by simp), Output.andThen_complete rfl, List.append_nil]

variable {names : Nat → List UInt8} {a : Nat}

/-- A part of the tree that another token follows begins with a token. -/
theorem HoldsItems.goesOn {items : Items} (h : HoldsItems m stringsBlock names items.tokens a)
    (hnext : GoesOn m (a + items.bytes.length)) : GoesOn m a := by
  cases items with
  | nil => exact hnext
  | nop rest => exact goesOn_token (h.valid _ List.mem_cons_self) h.head
  | prop nameOff data rest => exact goesOn_token (h.valid _ List.mem_cons_self) h.head
  | node name items rest => exact goesOn_token (h.valid _ List.mem_cons_self) h.head

/-- **A part of the tree is written** as the printer writes it, and then what follows. -/
theorem HoldsItems.dumps {items : Items} {depth : Nat} {text : List UInt8}
    (h : HoldsItems m stringsBlock names items.tokens a) (hnarrow : Narrow items.tokens)
    (hnext : GoesOn m (a + items.bytes.length))
    (htext : Dumps m stringsBlock node (a + items.bytes.length) ((depth + 1 : Nat) : Int) text) :
    Dumps m stringsBlock node a ((depth + 1 : Nat) : Int)
      (items.render names (depth + 1) ++ text) := by
  induction items generalizing a depth text with
  | nil => exact htext
  | nop rest ih =>
    rw [Items.length_nop, ← Nat.add_assoc] at hnext htext
    have hrest := ih h.tail (fun off data hmem => hnarrow off data (List.mem_cons_of_mem _ hmem))
      hnext htext
    have hall := hrest.step (h.tail.goesOn hnext) fun fuel (_ : 0 ≤ fuel) =>
      @dumpTurn_nop m stringsBlock node a fuel (depth + 1) h.head
    simpa [Items.render] using hall
  | prop nameOff data rest ih =>
    rw [Items.length_prop, ← Nat.add_assoc] at hnext htext
    have hrest := ih h.tail (fun off data hmem => hnarrow off data (List.mem_cons_of_mem _ hmem))
      hnext htext
    have hbehind := h.tail.goesOn hnext
    rw [Items.render, List.append_assoc]
    exact hrest.step hbehind fun fuel hfuel => dumpTurn_prop h.aligned h hbehind
      (hnarrow nameOff data List.mem_cons_self) (Nat.lt_of_succ_le hfuel)
  | node name items rest ihItems ihRest =>
    have hinside : HoldsItems m stringsBlock names (items.tokens ++ .endNode :: rest.tokens) _ := h.tail
    obtain ⟨hitems, hend⟩ := hinside.append
    rw [Items.length_node, ← Nat.add_assoc, ← Nat.add_assoc, ← Nat.add_assoc] at hnext htext
    have hsub : ∀ t ∈ items.tokens ++ .endNode :: rest.tokens, t ∈ (Items.node name items rest).tokens :=
      fun t ht => List.mem_cons_of_mem _ ht
    have hrest := ihRest hend.tail (fun off data hmem => hnarrow off data
      (hsub _ (List.mem_append_right _ (List.mem_cons_of_mem _ hmem)))) hnext htext
    have hclose := hrest.step (hend.tail.goesOn hnext) fun fuel (_ : 0 ≤ fuel) =>
      @dumpTurn_endNode m stringsBlock node _ fuel (depth + 1) hend.head
    have hgoes : GoesOn m (a + (Token.beginNode name).bytes.length + items.bytes.length) :=
      goesOn_token (hend.valid _ List.mem_cons_self) hend.head
    have hopen := ihItems hitems (fun off data hmem => hnarrow off data
      (hsub _ (List.mem_append_left _ hmem))) hgoes hclose
    have hall := hopen.step (hitems.goesOn hgoes) fun fuel hfuel =>
      @dumpTurn_beginNode m stringsBlock node a fuel h.aligned name (depth + 1)
        (h.valid _ List.mem_cons_self) h.head (Nat.lt_of_succ_le hfuel)
        (Or.inr (Nat.succ_ne_zero depth))
    simpa [Items.render] using hall

/-- Inside a node, up to its end. -/
theorem HoldsItems.inside {items : Items}
    (h : HoldsItems m stringsBlock names (items.tokens ++ [.endNode]) a) (hnarrow : Narrow items.tokens) :
    GoesOn m a ∧ Dumps m stringsBlock node a ((1 : Nat) : Int) (items.render names 1) := by
  obtain ⟨hitems, hend⟩ := h.append
  have hgoes : GoesOn m (a + items.bytes.length) :=
    goesOn_token (hend.valid _ List.mem_cons_self) hend.head
  have hlast : Dumps m stringsBlock node (a + items.bytes.length) ((1 : Nat) : Int) [] :=
    .stop fun fuel => @dumpTurn_endNode m stringsBlock node _ fuel 0 hend.head
  refine ⟨hitems.goesOn hgoes, ?_⟩
  simpa using @HoldsItems.dumps m stringsBlock node names _ _ 0 _ hitems hnarrow hgoes hlast

end Scan

/-! ## 6. The whole dump -/

/-- The root has the property `a`, with the value 2, and a node `x`. -/
def smallTree : DeviceTree where
  before := 0
  items := .prop 0 [0, 0, 0, 2] (.node [120] .nil .nil)
  behind := 0

/-- The tree in a blob at address 16: the header, the structure block at 64 and the strings behind
    it; there are no reserve entries. -/
def smallBlob : List UInt8 :=
  [0xd00dfeed, 0, 48, 92, 1024, 17, 16, 0, 2, 44, 0, 0].flatMap be32Bytes ++
    (blockBytes smallTree.tokens ++ [97, 0])

theorem smallBlob_verified : verifyFdt (ofBytes 16 smallBlob) 16 = ⟨16, 1040, 64, 108⟩ := by decide

end IloPali
