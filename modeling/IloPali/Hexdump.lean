import IloPali.Console
import Mathlib.Data.List.Basic
import Mathlib.Logic.Function.Basic

/-!
# The hexdump (`console.c`)

`console_put_hexdump` pads the label of each line to the width of the size, so that all labels
are equally wide, and writes each byte with two digits.  What it writes can be read back.
-/

namespace IloPali

/-! ## 1. The digit buffer -/

/-- The loop that fills the buffer of `console_vprintf`, `n` turns: how many digits there are,
    the buffer, and the indices it was written at. -/
def fillBuffer : Nat → Nat → Nat → (Nat → UInt8) → Nat × (Nat → UInt8) × List Nat
  | 0, _, len, buffer => (len, buffer, [])
  | n + 1, x, len, buffer =>
    if x = 0 then (len, buffer, [])
    else
      -- `buffer_size - len`, after `len++`
      let index := (2 ^ 64 + 16 - (len + 1)) % 2 ^ 64
      let next := fillBuffer n (x / 16) (len + 1)
        (Function.update buffer index (hexDigit (x % 16)))
      (next.1, next.2.1, index :: next.2.2)

/-- The indices that the loop behind it reads. -/
def readIndices (len : Nat) : List Nat :=
  let start := (2 ^ 64 + 16 - len) % 2 ^ 64
  List.range' start (16 - start)

theorem readIndices_eq {len : Nat} (hlen : len ≤ 16) :
    readIndices len = List.range' (16 - len) len := by
  have hstart : (2 ^ 64 + 16 - len) % 2 ^ 64 = 16 - len := by omega
  have hcount : 16 - (16 - len) = len := by omega
  show List.range' ((2 ^ 64 + 16 - len) % 2 ^ 64) (16 - (2 ^ 64 + 16 - len) % 2 ^ 64) = _
  rw [hstart, hcount]

theorem fillBuffer_index {len : Nat} (hlen : len < 16) :
    (2 ^ 64 + 16 - (len + 1)) % 2 ^ 64 = 15 - len := by
  omega

/-- What is left of a number fits into what is left of the buffer. -/
theorem fillBuffer_inside (n : Nat) {x len : Nat} (buffer : Nat → UInt8) (hlen : len ≤ 16)
    (hx : x < 16 ^ (16 - len)) :
    (fillBuffer n x len buffer).1 ≤ 16 ∧ ∀ i ∈ (fillBuffer n x len buffer).2.2, i < 16 := by
  induction n generalizing x len buffer with
  | zero => exact ⟨hlen, fun i hi => nomatch hi⟩
  | succ n ih =>
    rw [fillBuffer]
    by_cases h0 : x = 0
    · rw [if_pos h0]
      exact ⟨hlen, fun i hi => nomatch hi⟩
    · rw [if_neg h0]
      have hlt : len < 16 := by
        apply Nat.lt_of_le_of_ne hlen
        rintro rfl
        exact h0 (by simpa using hx)
      have hrest : x / 16 < 16 ^ (16 - (len + 1)) := by
        apply Nat.div_lt_of_lt_mul
        rw [← Nat.pow_succ']
        rwa [show (16 - (len + 1)).succ = 16 - len by omega]
      obtain ⟨hend, hindices⟩ := ih (Function.update buffer
        ((2 ^ 64 + 16 - (len + 1)) % 2 ^ 64) (hexDigit (x % 16))) hlt hrest
      refine ⟨hend, ?_⟩
      intro i hi
      rcases List.mem_cons.mp hi with rfl | hi
      · rw [fillBuffer_index hlt]
        omega
      · exact hindices i hi

/-- The characters in the buffer are those that `hexLoop` puts in front of what is there. -/
theorem fillBuffer_reads (n : Nat) {x len : Nat} (buffer : Nat → UInt8) (hlen : len ≤ 16)
    (hx : x < 16 ^ (16 - len)) :
    (readIndices (fillBuffer n x len buffer).1).map (fillBuffer n x len buffer).2.1 =
      hexLoop n x ((readIndices len).map buffer) := by
  induction n generalizing x len buffer with
  | zero => rfl
  | succ n ih =>
    rw [fillBuffer, hexLoop]
    by_cases h0 : x = 0
    · rw [if_pos h0, if_pos h0]
    · rw [if_neg h0, if_neg h0]
      have hlt : len < 16 := by
        apply Nat.lt_of_le_of_ne hlen
        rintro rfl
        exact h0 (by simpa using hx)
      have hrest : x / 16 < 16 ^ (16 - (len + 1)) := by
        apply Nat.div_lt_of_lt_mul
        rw [← Nat.pow_succ']
        rwa [show (16 - (len + 1)).succ = 16 - len by omega]
      rw [ih _ hlt hrest, fillBuffer_index hlt]
      congr 1
      have hindices : readIndices (len + 1) = (15 - len) :: readIndices len := by
        have hstart : 16 - (len + 1) = 15 - len := by omega
        have hnext : 15 - len + 1 = 16 - len := by omega
        rw [readIndices_eq hlt, readIndices_eq hlen, hstart, List.range'_succ, hnext]
      rw [hindices, List.map_cons, Function.update_self]
      congr 1
      apply List.map_congr_left
      intro i hi
      apply Function.update_of_ne
      rw [readIndices_eq hlen] at hi
      have hle := (List.mem_range'_1.mp hi).1
      omega

/-! ## 2. The dump -/

/-- The loop of `console_log_16`, `n` turns. -/
def log16Loop : Nat → Nat → Nat → Nat
  | 0, _, i => i
  | n + 1, x, i => if x = 0 then i else log16Loop n (x / 16) (i + 1)

/-- `console_log_16` of a number below `2 ^ 64`. -/
def consoleLog16 (x : Nat) : Nat := log16Loop 16 x 0

/-- `console_puts`. -/
def consolePuts : List Char → Output
  | [] => ([], true)
  | c :: s => (putchar (.ofNat c.toNat)).andThen (consolePuts s)

/-- `console_printf` with a format that takes no strings. -/
def consolePrintf (format : List Char) (va : List Arg) : Output := consoleVprintf 0 format va

/-- The outputs of the turns of a loop, one behind the other. -/
def outputs (f : Nat → Output) : List Nat → Output
  | [] => ([], true)
  | i :: l => (f i).andThen (outputs f l)

/-- `num_zeros_two`, an `unsigned int`. -/
def numZerosTwo (size i : Nat) : Nat :=
  (2 ^ 32 + consoleLog16 size - consoleLog16 i + 2 ^ 32 - 1) % 2 ^ 32

/-- `index`, an `unsigned long long`. -/
def dumpIndex (i j : Nat) : Nat := (i * 16 + j) % 2 ^ 64

/-- The body of the loop that writes the values of line `i`. -/
def dumpValue (data : Nat → UInt8) (size i j : Nat) : Output :=
  if dumpIndex i j ≥ size then consolePuts "   ".toList
  else
    Output.andThen
      (if (data (dumpIndex i j)).toNat < 16 then consolePrintf "%x".toList [.word 0]
        else ([], true))
      (consolePrintf "%x ".toList [.word (data (dumpIndex i j)).toNat])

/-- The body of the loop that writes the characters of line `i`. -/
def dumpChar (data : Nat → UInt8) (size i j : Nat) : Output :=
  if dumpIndex i j ≥ size then putchar 46
  else if 32 ≤ (data (dumpIndex i j)).toNat ∧ (data (dumpIndex i j)).toNat < 127 then
    putchar (data (dumpIndex i j))
  else putchar 46

/-- The body of the loop over the lines. -/
def dumpLine (data : Nat → UInt8) (size i : Nat) : Output :=
  Output.andThen
    (outputs (fun _ => consolePrintf "%x".toList [.word 0]) (List.range (numZerosTwo size i)))
    (Output.andThen (consolePrintf "%llx    ".toList [.word (i * 16 % 2 ^ 64)])
      (Output.andThen (outputs (dumpValue data size i) (List.range 16))
        (Output.andThen (consolePuts "    |".toList)
          (Output.andThen (outputs (dumpChar data size i) (List.range 16))
            (consolePuts "|\n".toList)))))

/-- `console_put_hexdump`. -/
def consolePutHexdump (data : Nat → UInt8) (size : Nat) : Output :=
  outputs (dumpLine data size) (List.range ((size + 15) % 2 ^ 64 / 16))

/-! ## 3. Reading it back -/

/-- The value of a hexadecimal digit. -/
def digitValue (c : UInt8) : Nat := if c.toNat < 58 then c.toNat - 48 else c.toNat - 87

def hexValue (s : List UInt8) : Nat := s.foldl (fun v c => 16 * v + digitValue c) 0

/-- Two digits each make a byte. -/
def bytesOf : List UInt8 → List UInt8
  | c :: d :: s => .ofNat (16 * digitValue c + digitValue d) :: bytesOf s
  | _ => []

/-- The values on a line: 48 columns, behind the label and four blanks. -/
def readValues (width : Nat) (line : List UInt8) : List UInt8 :=
  bytesOf (((line.drop (width + 4)).take 48).filter (· ≠ 32))

/-- The line starts with the address as a numeral of exactly `width` digits. -/
structure Labelled (width address : Nat) (line : List UInt8) : Prop where
  digits : ∀ c ∈ line.take width, ∃ d < 16, c = hexDigit d
  value : hexValue (line.take width) = address
  blanks : (line.drop width).take 4 = [32, 32, 32, 32]
  newline : 10 ∉ line

example : consolePutHexdump (fun i => [72, 105, 0][i]?.getD 0) 3 =
    ("0    48 69 00                                            |Hi..............|\n".toList.map
      fun c => .ofNat c.toNat, true) := by decide

/-! ## 4. Numerals -/

/-- The digits of a number. -/
def numeral (x : Nat) : List UInt8 := (putHex x).1

theorem putHex_eq (x : Nat) : putHex x = (numeral x, true) := by
  unfold numeral putHex
  split
  · rfl
  · rfl

theorem hexLoop_append (n x : Nat) (s t : List UInt8) :
    hexLoop n x (s ++ t) = hexLoop n x s ++ t := by
  induction n generalizing x s with
  | zero => rfl
  | succ n ih =>
    rw [hexLoop, hexLoop]
    split
    · rfl
    · exact ih (x / 16) (hexDigit (x % 16) :: s)

/-- The loop ends with the digits of the number. -/
theorem hexLoop_stable {n m x : Nat} (hnm : n ≤ m) (hx : x < 16 ^ n) (s : List UInt8) :
    hexLoop m x s = hexLoop n x s := by
  induction n generalizing m x s with
  | zero =>
    rw [Nat.pow_zero, Nat.lt_one_iff] at hx
    rw [hx]
    cases m with
    | zero => rfl
    | succ m => rfl
  | succ n ih =>
    obtain ⟨m, rfl⟩ := Nat.exists_eq_add_of_le' hnm
    rw [← Nat.add_assoc, hexLoop, hexLoop]
    by_cases h0 : x = 0
    · rw [if_pos h0, if_pos h0]
    · rw [if_neg h0, if_neg h0]
      exact ih (Nat.le_add_left n m) (Nat.div_lt_of_lt_mul (by rwa [← Nat.pow_succ'])) _

theorem hexLoop_succ {n x : Nat} (hx : x ≠ 0) :
    hexLoop (n + 1) x [] = hexLoop n (x / 16) [] ++ [hexDigit (x % 16)] := by
  rw [hexLoop, if_neg hx, ← hexLoop_append]
  rfl

theorem digitValue_hexDigit {d : Nat} (hd : d < 16) : digitValue (hexDigit d) = d := by
  have hall : ∀ d ∈ List.range 16, digitValue (hexDigit d) = d := by decide
  exact hall d (List.mem_range.mpr hd)

theorem hexDigit_ne {d : Nat} (hd : d < 16) : hexDigit d ≠ 32 ∧ hexDigit d ≠ 10 := by
  have hall : ∀ d ∈ List.range 16, hexDigit d ≠ 32 ∧ hexDigit d ≠ 10 := by decide
  exact hall d (List.mem_range.mpr hd)

theorem hexValue_append (s : List UInt8) (c : UInt8) :
    hexValue (s ++ [c]) = 16 * hexValue s + digitValue c := by
  rw [hexValue, List.foldl_append]
  rfl

theorem hexValue_hexLoop (n : Nat) {x : Nat} (hx : x < 16 ^ n) : hexValue (hexLoop n x []) = x := by
  induction n generalizing x with
  | zero =>
    rw [Nat.pow_zero, Nat.lt_one_iff] at hx
    rw [hx]
    rfl
  | succ n ih =>
    by_cases h0 : x = 0
    · rw [h0, hexLoop, if_pos rfl]
      rfl
    · have hdiv : x / 16 < 16 ^ n := Nat.div_lt_of_lt_mul (by rwa [← Nat.pow_succ'])
      rw [hexLoop_succ h0, hexValue_append, ih hdiv,
        digitValue_hexDigit (Nat.mod_lt x (by decide)), Nat.div_add_mod]

theorem digits_hexLoop (n x : Nat) : ∀ c ∈ hexLoop n x [], ∃ d < 16, c = hexDigit d := by
  induction n generalizing x with
  | zero => exact fun c hc => nomatch hc
  | succ n ih =>
    intro c hc
    by_cases h0 : x = 0
    · rw [h0, hexLoop, if_pos rfl] at hc
      exact nomatch hc
    · rw [hexLoop_succ h0] at hc
      rcases List.mem_append.mp hc with hc | hc
      · exact ih (x / 16) c hc
      · exact ⟨x % 16, Nat.mod_lt x (by decide), List.mem_singleton.mp hc⟩

theorem hexValue_numeral {x : Nat} (hx : x < 2 ^ 64) : hexValue (numeral x) = x := by
  unfold numeral putHex
  split
  · rename_i h0
    rw [h0]
    rfl
  · exact hexValue_hexLoop 16 (by simpa using hx)

theorem digits_numeral (x : Nat) : ∀ c ∈ numeral x, ∃ d < 16, c = hexDigit d := by
  unfold numeral putHex
  split
  · intro c hc
    exact ⟨0, by decide, List.mem_singleton.mp hc⟩
  · exact digits_hexLoop 16 x

/-! ## 5. Widths -/

theorem log16Loop_add (n x i : Nat) : log16Loop n x i = i + log16Loop n x 0 := by
  induction n generalizing x i with
  | zero => rfl
  | succ n ih =>
    rw [log16Loop, log16Loop]
    split
    · rfl
    · rw [ih (x / 16) (i + 1), ih (x / 16) (0 + 1), ← Nat.add_assoc, Nat.zero_add]

theorem log16Loop_succ {n x : Nat} (hx : x ≠ 0) :
    log16Loop (n + 1) x 0 = 1 + log16Loop n (x / 16) 0 := by
  rw [log16Loop, if_neg hx, log16Loop_add]

theorem log16Loop_le (n : Nat) {x y : Nat} (hxy : x ≤ y) : log16Loop n x 0 ≤ log16Loop n y 0 := by
  induction n generalizing x y with
  | zero => exact Nat.le_refl _
  | succ n ih =>
    by_cases h0 : x = 0
    · rw [h0, log16Loop, if_pos rfl]
      exact Nat.zero_le _
    · rw [log16Loop_succ h0, log16Loop_succ (by omega)]
      exact Nat.add_le_add_left (ih (Nat.div_le_div_right hxy)) 1

theorem log16Loop_bound (n x : Nat) : log16Loop n x 0 ≤ n := by
  induction n generalizing x with
  | zero => exact Nat.le_refl _
  | succ n ih =>
    by_cases h0 : x = 0
    · rw [h0, log16Loop, if_pos rfl]
      exact Nat.zero_le _
    · rw [log16Loop_succ h0, Nat.add_comm]
      exact Nat.succ_le_succ (ih _)

/-- A turn more makes no difference when the number is used up. -/
theorem log16Loop_stable (n : Nat) {x : Nat} (hx : x < 16 ^ n) :
    log16Loop (n + 1) x 0 = log16Loop n x 0 := by
  induction n generalizing x with
  | zero =>
    rw [Nat.pow_zero, Nat.lt_one_iff] at hx
    rw [hx]
    rfl
  | succ n ih =>
    by_cases h0 : x = 0
    · rw [h0]
      rfl
    · rw [log16Loop_succ h0, log16Loop_succ h0,
        ih (Nat.div_lt_of_lt_mul (by rwa [← Nat.pow_succ']))]

/-- One digit more for sixteen times the number. -/
theorem consoleLog16_mul {i : Nat} (h0 : i ≠ 0) (hi : i * 16 < 2 ^ 64) :
    consoleLog16 (i * 16) = consoleLog16 i + 1 := by
  unfold consoleLog16
  rw [log16Loop_succ (by omega), Nat.mul_div_cancel _ (by decide), ← log16Loop_stable 15,
    Nat.add_comm]
  omega

theorem length_hexLoop (n x : Nat) : (hexLoop n x []).length = log16Loop n x 0 := by
  induction n generalizing x with
  | zero => rfl
  | succ n ih =>
    by_cases h0 : x = 0
    · rw [h0, hexLoop, if_pos rfl, log16Loop, if_pos rfl]
      rfl
    · rw [hexLoop_succ h0, log16Loop_succ h0, List.length_append, ih, Nat.add_comm]
      rfl

/-- The label of a line has one digit more than the number of the line. -/
theorem length_label {i : Nat} (hi : i * 16 < 2 ^ 64) :
    (numeral (i * 16)).length = consoleLog16 i + 1 := by
  by_cases h0 : i = 0
  · rw [h0]
    rfl
  · unfold numeral putHex
    rw [if_neg (by omega), ← consoleLog16_mul h0 hi]
    exact length_hexLoop 16 (i * 16)

/-- **The padding does not wrap around.** -/
theorem numZerosTwo_add {size i : Nat} (hsize : size < 2 ^ 64) (hi : i * 16 < size) :
    numZerosTwo size i + (consoleLog16 i + 1) = consoleLog16 size := by
  have hle : consoleLog16 i + 1 ≤ consoleLog16 size := by
    by_cases h0 : i = 0
    · rw [h0]
      have hone : 1 ≤ size := by omega
      exact log16Loop_le 16 hone
    · rw [← consoleLog16_mul h0 (hi.trans hsize)]
      exact log16Loop_le 16 (Nat.le_of_lt hi)
  have hbound : consoleLog16 size ≤ 16 := log16Loop_bound 16 size
  unfold numZerosTwo
  omega

/-! ## 6. What is written -/

theorem outputs_eq {f : Nat → Output} {g : Nat → List UInt8} {l : List Nat}
    (hf : ∀ i ∈ l, f i = (g i, true)) : outputs f l = (l.flatMap g, true) := by
  induction l with
  | nil => rfl
  | cons i l ih =>
    rw [outputs, hf i List.mem_cons_self, ih fun j hj => hf j (List.mem_cons_of_mem i hj)]
    rfl

theorem consolePuts_eq (s : List Char) :
    consolePuts s = (s.map fun c => .ofNat c.toNat, true) := by
  induction s with
  | nil => rfl
  | cons c s ih =>
    rw [consolePuts, ih]
    rfl

theorem printf_x (x : Nat) :
    consolePrintf "%x".toList [.word x] = (numeral (x % 2 ^ 32), true) := by
  show Output.andThen (putHex (x % 2 ^ 32)) ([], true) = _
  rw [putHex_eq, Output.andThen_complete rfl, List.append_nil]

theorem printf_x_blank (x : Nat) :
    consolePrintf "%x ".toList [.word x] = (numeral (x % 2 ^ 32) ++ [32], true) := by
  show Output.andThen (putHex (x % 2 ^ 32)) ([32], true) = _
  rw [putHex_eq, Output.andThen_complete rfl]

theorem printf_llx (x : Nat) :
    consolePrintf "%llx    ".toList [.word x] = (numeral x ++ [32, 32, 32, 32], true) := by
  show Output.andThen (putHex x) ([32, 32, 32, 32], true) = _
  rw [putHex_eq, Output.andThen_complete rfl]

/-- A byte in two digits. -/
def twoDigits (b : UInt8) : List UInt8 := [hexDigit (b.toNat / 16), hexDigit (b.toNat % 16)]

/-- A small number has one digit, and any other byte has two. -/
theorem numeral_byte (b : UInt8) :
    (if b.toNat < 16 then numeral 0 else []) ++ numeral b.toNat = twoDigits b := by
  have hb : b.toNat < 256 := b.toNat_lt
  have hdiv : b.toNat / 16 < 16 := by omega
  unfold twoDigits
  by_cases hsmall : b.toNat < 16
  · have hall : ∀ x ∈ List.range 16,
        numeral 0 ++ numeral x = [hexDigit (x / 16), hexDigit (x % 16)] := by decide
    rw [if_pos hsmall]
    exact hall _ (List.mem_range.mpr hsmall)
  · have hhigh : b.toNat / 16 ≠ 0 := by omega
    have hnone : b.toNat / 16 / 16 = 0 := Nat.div_eq_of_lt hdiv
    rw [if_neg hsmall, List.nil_append, numeral, putHex, if_neg (by omega)]
    show hexLoop 16 b.toNat [] = _
    rw [hexLoop_succ (by omega), hexLoop_succ hhigh, hnone, Nat.mod_eq_of_lt hdiv]
    rfl

/-- The two digits are read back. -/
theorem bytesOf_twoDigits (b : UInt8) (s : List UInt8) :
    bytesOf (twoDigits b ++ s) = b :: bytesOf s := by
  have hb : b.toNat < 256 := b.toNat_lt
  have hhigh : b.toNat / 16 < 16 := by omega
  have hlow : b.toNat % 16 < 16 := Nat.mod_lt _ (by decide)
  show UInt8.ofNat _ :: bytesOf s = _
  rw [digitValue_hexDigit hhigh, digitValue_hexDigit hlow, Nat.div_add_mod, UInt8.ofNat_toNat]

/-- One field of a line. -/
def field (data : Nat → UInt8) (size i j : Nat) : List UInt8 :=
  if dumpIndex i j ≥ size then [32, 32, 32] else twoDigits (data (dumpIndex i j)) ++ [32]

theorem dumpValue_eq (data : Nat → UInt8) (size i j : Nat) :
    dumpValue data size i j = (field data size i j, true) := by
  unfold dumpValue field
  by_cases hend : dumpIndex i j ≥ size
  · rw [if_pos hend, if_pos hend]
    rfl
  · have hb : (data (dumpIndex i j)).toNat < 2 ^ 32 :=
      (data (dumpIndex i j)).toNat_lt.trans (by decide)
    rw [if_neg hend, if_neg hend, ← numeral_byte, printf_x, printf_x_blank, Nat.mod_eq_of_lt hb]
    split
    · rw [Output.andThen_complete rfl, List.append_assoc]
      rfl
    · rw [Output.andThen_complete rfl, List.append_assoc]

/-- One character of a line. -/
def shown (data : Nat → UInt8) (size i j : Nat) : UInt8 :=
  if dumpIndex i j ≥ size then 46
  else if 32 ≤ (data (dumpIndex i j)).toNat ∧ (data (dumpIndex i j)).toNat < 127 then
    data (dumpIndex i j)
  else 46

theorem dumpChar_eq (data : Nat → UInt8) (size i j : Nat) :
    dumpChar data size i j = ([shown data size i j], true) := by
  unfold dumpChar shown
  split
  · rfl
  · split
    · rfl
    · rfl

def labelText (size i : Nat) : List UInt8 :=
  List.replicate (numZerosTwo size i) 48 ++ numeral (i * 16)

/-- What is behind the values of a line. -/
def lineTail (data : Nat → UInt8) (size i : Nat) : List UInt8 :=
  [32, 32, 32, 32, 124] ++ ((List.range 16).flatMap (fun j => [shown data size i j]) ++ [124])

/-- A line without its end. -/
def lineText (data : Nat → UInt8) (size i : Nat) : List UInt8 :=
  labelText size i ++ ([32, 32, 32, 32] ++
    ((List.range 16).flatMap (field data size i) ++ lineTail data size i))

theorem dumpLine_eq (data : Nat → UInt8) {size i : Nat} (hi : i * 16 < 2 ^ 64) :
    dumpLine data size i = (lineText data size i ++ [10], true) := by
  have hzero : consolePrintf "%x".toList [.word 0] = ([48], true) := by
    rw [printf_x, Nat.zero_mod]
    rfl
  have hzeros : ∀ n, outputs (fun _ => consolePrintf "%x".toList [.word 0]) (List.range n) =
      (List.replicate n 48, true) := by
    intro n
    rw [@outputs_eq _ (fun _ => [48]) _ fun _ _ => hzero, ← List.map_eq_flatMap]
    simp
  have hvalues : outputs (dumpValue data size i) (List.range 16) = _ :=
    outputs_eq fun j _ => dumpValue_eq data size i j
  have hchars : outputs (dumpChar data size i) (List.range 16) = _ :=
    outputs_eq fun j _ => dumpChar_eq data size i j
  unfold dumpLine lineText labelText lineTail
  rw [hzeros, printf_llx, hvalues, hchars, consolePuts_eq, consolePuts_eq, Nat.mod_eq_of_lt hi]
  simp only [Output.andThen_complete, List.append_assoc]
  rfl

/-! ## 7. Reading a line -/

section

variable (data : Nat → UInt8) {size i : Nat} (hsize : size < 2 ^ 64 - 15) (hi : i * 16 < size)
include hsize hi

omit hsize in
theorem dumpIndex_eq (hsize : size < 2 ^ 64 - 15) {j : Nat} (hj : j < 16) :
    dumpIndex i j = i * 16 + j :=
  Nat.mod_eq_of_lt (by omega)

theorem length_labelText : (labelText size i).length = consoleLog16 size := by
  rw [labelText, List.length_append, List.length_replicate, length_label (by omega)]
  exact numZerosTwo_add (by omega) hi

omit hsize hi in
theorem digits_labelText : ∀ c ∈ labelText size i, ∃ d < 16, c = hexDigit d := by
  intro c hc
  rcases List.mem_append.mp hc with hc | hc
  · exact ⟨0, by decide, (List.mem_replicate.mp hc).2⟩
  · exact digits_numeral _ c hc

theorem hexValue_labelText : hexValue (labelText size i) = 16 * i := by
  have hzeros : ∀ (n : Nat) (s : List UInt8), hexValue (List.replicate n 48 ++ s) = hexValue s := by
    intro n s
    induction n with
    | zero => rfl
    | succ n ih => exact ih
  rw [labelText, hzeros, hexValue_numeral (by omega), Nat.mul_comm]

omit hsize hi in
theorem field_digits {j : Nat} (c : UInt8) (hc : c ∈ field data size i j) :
    c = 32 ∨ ∃ d < 16, c = hexDigit d := by
  unfold field twoDigits at hc
  have hb : (data (dumpIndex i j)).toNat < 256 := (data (dumpIndex i j)).toNat_lt
  split at hc
  · simp only [List.mem_cons, List.not_mem_nil, or_false, or_self] at hc
    exact Or.inl hc
  · simp only [List.cons_append, List.nil_append, List.mem_cons, List.not_mem_nil, or_false] at hc
    rcases hc with rfl | rfl | rfl
    · exact Or.inr ⟨_, by omega, rfl⟩
    · exact Or.inr ⟨_, Nat.mod_lt _ (by decide), rfl⟩
    · exact Or.inl rfl

omit hsize hi in
theorem filter_field (j : Nat) : (field data size i j).filter (· ≠ 32) =
    if dumpIndex i j < size then twoDigits (data (dumpIndex i j)) else [] := by
  have hb : (data (dumpIndex i j)).toNat < 256 := (data (dumpIndex i j)).toNat_lt
  have hhigh : (data (dumpIndex i j)).toNat / 16 < 16 := by omega
  have hlow : (data (dumpIndex i j)).toNat % 16 < 16 := Nat.mod_lt _ (by decide)
  unfold field
  by_cases hend : dumpIndex i j < size
  · rw [if_neg (Nat.not_le.mpr hend), if_pos hend]
    simp [twoDigits, (hexDigit_ne hhigh).1, (hexDigit_ne hlow).1]
  · rw [if_pos (Nat.le_of_not_lt hend), if_neg hend]
    rfl

omit hsize hi in
theorem shown_ne (j : Nat) : shown data size i j ≠ 10 := by
  unfold shown
  split
  · decide
  · split
    · rename_i hprint
      intro hcon
      rw [hcon] at hprint
      exact absurd hprint.1 (by decide)
    · decide

theorem labelled_lineText : Labelled (consoleLog16 size) (16 * i) (lineText data size i) := by
  have hlabel := length_labelText hsize hi
  have htake : (lineText data size i).take (consoleLog16 size) = labelText size i :=
    List.take_left' hlabel
  have hdrop : (lineText data size i).drop (consoleLog16 size) = _ := List.drop_left' hlabel
  constructor
  case digits =>
    rw [htake]
    exact digits_labelText
  case value =>
    rw [htake]
    exact hexValue_labelText hsize hi
  case blanks =>
    rw [hdrop]
    rfl
  case newline =>
    intro hmem
    unfold lineText lineTail at hmem
    rcases List.mem_append.mp hmem with hmem | hmem
    · obtain ⟨d, hd, heq⟩ := digits_labelText 10 hmem
      exact (hexDigit_ne hd).2 heq.symm
    · simp only [List.mem_append, List.mem_flatMap, List.mem_singleton] at hmem
      rcases hmem with hmem | ⟨j, _, hmem⟩ | hmem | ⟨j, _, hmem⟩ | hmem
      · exact absurd hmem (by decide)
      · rcases field_digits data 10 hmem with hcon | ⟨d, hd, heq⟩
        · exact absurd hcon (by decide)
        · exact (hexDigit_ne hd).2 heq.symm
      · exact absurd hmem (by decide)
      · exact shown_ne data j hmem.symm
      · exact absurd hmem (by decide)

theorem readValues_lineText : readValues (consoleLog16 size) (lineText data size i) =
    ((List.range 16).filter fun j => i * 16 + j < size).map fun j => data (i * 16 + j) := by
  have hlabel := length_labelText hsize hi
  have hfields : ((List.range 16).flatMap (field data size i)).length = 48 := by
    have hlen : ∀ j, (field data size i j).length = 3 := by
      intro j
      unfold field
      split
      · rfl
      · rfl
    simp [List.length_flatMap, hlen]
  have hdrop : (lineText data size i).drop (consoleLog16 size + 4) =
      (List.range 16).flatMap (field data size i) ++ lineTail data size i := by
    rw [← List.drop_drop]
    exact congrArg (List.drop 4) (List.drop_left' hlabel)
  have hcolumns : ((lineText data size i).drop (consoleLog16 size + 4)).take 48 =
      (List.range 16).flatMap (field data size i) := by
    rw [hdrop]
    exact List.take_left' hfields
  unfold readValues
  rw [hcolumns]
  have hall : ∀ l : List Nat, (∀ j ∈ l, j < 16) →
      bytesOf ((l.flatMap (field data size i)).filter (· ≠ 32)) =
        (l.filter fun j => i * 16 + j < size).map fun j => data (i * 16 + j) := by
    intro l
    induction l with
    | nil => exact fun _ => rfl
    | cons j l ih =>
      intro hl
      have hrest := ih fun k hk => hl k (List.mem_cons_of_mem j hk)
      have hindex := dumpIndex_eq hi hsize (hl j List.mem_cons_self)
      rw [List.flatMap_cons, List.filter_append, filter_field, hindex]
      by_cases hend : i * 16 + j < size
      · rw [if_pos hend, bytesOf_twoDigits, hrest, List.filter_cons, if_pos (decide_eq_true hend),
          List.map_cons]
      · rw [if_neg hend, List.nil_append, hrest, List.filter_cons, if_neg (by simpa using hend)]
  exact hall (List.range 16) fun j hj => List.mem_range.mp hj

end

/-! ## 8. All lines -/

/-- The bytes of the lines are the bytes, one line after the other. -/
theorem indices_flatMap (n k : Nat) :
    ((List.range n).flatMap fun i => (List.range k).map fun j => i * k + j) =
      List.range (n * k) := by
  induction n with
  | zero => simp
  | succ n ih =>
    rw [List.range_succ, List.flatMap_append, ih, List.flatMap_singleton, Nat.succ_mul,
      List.range_add]

theorem filter_lt_range {s n : Nat} (hs : s ≤ n) :
    (List.range n).filter (fun x => x < s) = List.range s := by
  obtain ⟨k, rfl⟩ := Nat.exists_eq_add_of_le hs
  have hin : (List.range s).filter (fun x => x < s) = List.range s :=
    List.filter_eq_self.mpr fun x hx => decide_eq_true (List.mem_range.mp hx)
  have hout : ((List.range k).map (s + ·)).filter (fun x => x < s) = [] := by
    apply List.filter_eq_nil_iff.mpr
    intro x hx
    obtain ⟨j, _, rfl⟩ := List.mem_map.mp hx
    simp
  rw [List.range_add, List.filter_append, hin, hout, List.append_nil]

/-- **The hexdump is faithful.**  It has one line for each sixteen bytes, labelled with their
    address, and the values on the lines read back as the bytes; and the digit buffer behind it is
    written and read inside its sixteen characters. -/
theorem hexdump_faithful (data : Nat → UInt8) {size : Nat} (hsize : size < 2 ^ 64 - 15) :
    (∃ lines : List (List UInt8),
      consolePutHexdump data size = (lines.flatMap (· ++ [10]), true) ∧
      lines.length = (size + 15) / 16 ∧
      (∀ i line, lines[i]? = some line →
        Labelled (consoleLog16 size) (16 * i) line ∧
          numZerosTwo size i + (consoleLog16 i + 1) = consoleLog16 size) ∧
      lines.flatMap (readValues (consoleLog16 size)) = (List.range size).map data) ∧
    ∀ x < 2 ^ 64, ∀ n buffer, (∀ i ∈ (fillBuffer n x 0 buffer).2.2, i < 16) ∧
      (∀ i ∈ readIndices (fillBuffer n x 0 buffer).1, i < 16) ∧
      (16 ≤ n → (readIndices (fillBuffer n x 0 buffer).1).map (fillBuffer n x 0 buffer).2.1 =
        hexLoop 16 x []) := by
  constructor
  · have hcount : (size + 15) % 2 ^ 64 / 16 = (size + 15) / 16 := by omega
    have hline : ∀ i ∈ List.range ((size + 15) / 16), i * 16 < size := by
      intro i hi
      have hlt := List.mem_range.mp hi
      omega
    refine ⟨(List.range ((size + 15) / 16)).map (lineText data size), ?_, by simp, ?_, ?_⟩
    · rw [consolePutHexdump, hcount, List.flatMap_map]
      exact outputs_eq fun i hi => dumpLine_eq data ((hline i hi).trans (by omega))
    · intro i line hi
      obtain ⟨hlt, rfl⟩ := List.getElem?_eq_some_iff.mp hi
      rw [List.length_map, List.length_range] at hlt
      have hin := hline i (List.mem_range.mpr hlt)
      rw [List.getElem_map, List.getElem_range]
      exact ⟨labelled_lineText data hsize hin, numZerosTwo_add (by omega) hin⟩
    · calc ((List.range ((size + 15) / 16)).map (lineText data size)).flatMap
            (readValues (consoleLog16 size))
          = (List.range ((size + 15) / 16)).flatMap fun i =>
              ((List.range 16).filter fun j => i * 16 + j < size).map
                fun j => data (i * 16 + j) := by
            rw [List.flatMap_map]
            apply List.flatMap_congr
            intro i hi
            exact readValues_lineText data hsize (hline i hi)
        _ = (((List.range ((size + 15) / 16)).flatMap fun i =>
              (List.range 16).map fun j => i * 16 + j).filter (· < size)).map data := by
            rw [List.filter_flatMap, List.map_flatMap]
            apply List.flatMap_congr
            intro i _
            rw [List.filter_map, List.map_map]
            rfl
        _ = (List.range size).map data := by
            rw [indices_flatMap, filter_lt_range (by omega)]
  · intro x hx n buffer
    have hx' : x < 16 ^ (16 - 0) := by simpa using hx
    obtain ⟨hlen, hwritten⟩ := fillBuffer_inside n buffer (Nat.zero_le 16) hx'
    refine ⟨hwritten, ?_, ?_⟩
    · intro i hi
      rw [readIndices_eq hlen] at hi
      have hlt := (List.mem_range'_1.mp hi).2
      omega
    · intro hn
      rw [fillBuffer_reads n buffer (Nat.zero_le 16) hx', hexLoop_stable hn hx']
      rfl

/-- Three bytes, on one line. -/
theorem hexdump_faithful_three : ∃ lines : List (List UInt8),
    consolePutHexdump (fun i => [72, 105, 0][i]?.getD 0) 3 =
      (lines.flatMap (· ++ [10]), true) ∧
    lines.length = 1 ∧ lines.flatMap (readValues 1) = [72, 105, 0] := by
  obtain ⟨⟨lines, hdump, hlen, _, hvalues⟩, _⟩ :=
    hexdump_faithful (fun i => [72, 105, 0][i]?.getD 0) (show 3 < 2 ^ 64 - 15 by decide)
  exact ⟨lines, hdump, hlen, hvalues⟩

end IloPali
