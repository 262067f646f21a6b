import IloPali.ConsoleCall
import IloPali.Hexdump

/-!
# Format strings (`console.c`)

A format string is a list of pieces: text, and conversions that take an argument each.
`console_vprintf` goes through the characters with a cursor; what it writes is what the
pieces stand for, one behind the other.
-/

namespace IloPali

/-! ## 1. Pieces -/

/-- `load` runs through the string `s`, and then ends. -/
structure Spells (load : Nat → Option UInt8) (s : List UInt8) : Prop where
  string : ∀ b ∈ s, b ≠ 0
  chars : ∀ i, i < s.length → load i = s[i]?
  ends : load s.length = some 0

/-- A piece of a format string, with its argument. -/
inductive Piece where
  | text (s : List Char)
  | percent
  | char (c : Nat)
  | hex (x : Nat)
  | long (x : Nat)
  | longLong (x : Nat)
  | pointer (p : Nat)
  | string (load : Nat → Option UInt8) (s : List UInt8)

namespace Piece

/-- How the piece is written in a format. -/
def format : Piece → List Char
  | .text s => s
  | .percent => "%%".toList
  | .char _ => "%c".toList
  | .hex _ => "%x".toList
  | .long _ => "%lx".toList
  | .longLong _ => "%llx".toList
  | .pointer _ => "%p".toList
  | .string _ _ => "%s".toList

/-- The argument of the piece. -/
def args : Piece → List Arg
  | .text _ => []
  | .percent => []
  | .char c => [.word c]
  | .hex x => [.word x]
  | .long x => [.word x]
  | .longLong x => [.word x]
  | .pointer p => [.word p]
  | .string load _ => [.string load]

/-- What the piece stands for.  Only `%x` cuts its argument off. -/
def writes : Piece → List UInt8
  | .text s => s.map fun c => .ofNat c.toNat
  | .percent => [37]
  | .char c => [.ofNat c]
  | .hex x => numeral (x % 2 ^ 32)
  | .long x => numeral x
  | .longLong x => numeral x
  | .pointer p => [48, 120] ++ numeral p
  | .string _ s => s

/-- Text has no `%`, and a string ends among the first `n` characters. -/
def Valid (n : Nat) : Piece → Prop
  | .text s => '%' ∉ s
  | .string load s => Spells load s ∧ s.length < n
  | _ => True

theorem Valid.mono {n m : Nat} {p : Piece} (h : p.Valid n) (hnm : n ≤ m) : p.Valid m := by
  cases p with
  | string load s => exact ⟨h.1, Nat.lt_of_lt_of_le h.2 hnm⟩
  | text s => exact h
  | _ => trivial

end Piece

/-! ## 2. What is written -/

/-- The loop of `%s` writes the string. -/
theorem putString_spells {load : Nat → Option UInt8} {s : List UInt8} (h : Spells load s) {n i : Nat}
    (hi : i ≤ s.length) (hn : s.length - i < n) : putString load n i = (s.drop i, true) := by
  induction n generalizing i with
  | zero => exact absurd hn (Nat.not_lt_zero _)
  | succ n ih =>
    rw [putString]
    rcases Nat.lt_or_eq_of_le hi with hlt | rfl
    · rw [h.chars i hlt, List.getElem?_eq_getElem hlt]
      dsimp only
      rw [if_neg (h.string _ (List.getElem_mem hlt)), ih hlt (by omega), Output.andThen_complete rfl,
        List.drop_eq_getElem_cons hlt]
      rfl
    · rw [h.ends, List.drop_length]
      exact if_pos rfl

theorem Piece.vprintf {n : Nat} {p : Piece} (hp : p.Valid n) (format : List Char) (va : List Arg) :
    consoleVprintf n (p.format ++ format) (p.args ++ va) =
      Output.andThen (p.writes, true) (consoleVprintf n format va) := by
  cases p with
  | text s => exact consoleVprintf_text hp n format va
  | percent => rfl
  | char c => rfl
  | hex x =>
    show Output.andThen (putHex (x % 2 ^ 32)) _ = _
    rw [putHex_eq]
    rfl
  | long x =>
    show Output.andThen (putHex x) _ = _
    rw [putHex_eq]
    rfl
  | longLong x =>
    show Output.andThen (putHex x) _ = _
    rw [putHex_eq]
    rfl
  | pointer p =>
    show Output.andThen (Output.andThen (Output.andThen (putchar 48) (putchar 120)) (putHex p)) _ = _
    rw [putHex_eq]
    rfl
  | string load s =>
    show Output.andThen (putString load n 0) _ = _
    rw [putString_spells hp.1 (Nat.zero_le _) (by simpa using hp.2)]
    rfl

/-- Pieces at the beginning of a format. -/
theorem vprintf_append {n : Nat} {ps : List Piece} (hps : ∀ p ∈ ps, p.Valid n) (format : List Char)
    (va : List Arg) :
    consoleVprintf n (ps.flatMap Piece.format ++ format) (ps.flatMap Piece.args ++ va) =
      Output.andThen (ps.flatMap Piece.writes, true) (consoleVprintf n format va) := by
  induction ps with
  | nil => rfl
  | cons p ps ih =>
    rw [List.flatMap_cons, List.flatMap_cons, List.append_assoc, List.append_assoc,
      Piece.vprintf (hps p List.mem_cons_self), ih fun q hq => hps q (List.mem_cons_of_mem p hq),
      ← Output.andThen_assoc]
    rfl

/-- **What a format says** is what is written, whatever arguments are left over. -/
theorem vprintf_pieces {n : Nat} {ps : List Piece} (hps : ∀ p ∈ ps, p.Valid n) (va : List Arg) :
    consoleVprintf n (ps.flatMap Piece.format) (ps.flatMap Piece.args ++ va) =
      (ps.flatMap Piece.writes, true) := by
  have hall := vprintf_append hps [] va
  rwa [List.append_nil, consoleVprintf, Output.andThen_complete rfl, List.append_nil] at hall

end IloPali
