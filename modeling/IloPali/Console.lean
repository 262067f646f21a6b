import Mathlib.Tactic.Ring

/-!
# The console (`console.c`)

`console_vprintf` reads its format string once, takes its arguments in order, and writes
characters one at a time.  A `char*` among the arguments is the function that loads its
characters, which may fail: the string can run into a page that is not mapped.
-/

namespace IloPali

/-! ## 1. Output -/

/-- The characters that were written, in order, and whether the run goes on: it ends early at a
    load that fails, or when the steps that were given to it are used up. -/
abbrev Output := List UInt8 × Bool

/-- Write what `a` writes and then, if the run goes on, what `b` writes. -/
def Output.andThen (a b : Output) : Output := if a.2 = true then (a.1 ++ b.1, b.2) else a

theorem Output.andThen_assoc (a b c : Output) :
    Output.andThen (Output.andThen a b) c = Output.andThen a (Output.andThen b c) := by
  unfold Output.andThen
  by_cases ha : a.2 = true
  · by_cases hb : b.2 = true
    · simp [ha, hb]
    · simp [ha, hb]
  · simp [ha]

theorem Output.andThen_complete {a : Output} (ha : a.2 = true) (b : Output) :
    Output.andThen a b = (a.1 ++ b.1, b.2) := if_pos ha

/-- `sbi_console_putchar`. -/
def putchar (c : UInt8) : Output := ([c], true)

/-- A variadic argument. -/
inductive Arg where
  | word (w : Nat)
  | string (load : Nat → Option UInt8)

/-! ## 2. The conversions -/

/-- The loop of `%s`, `n` characters of the string from the `i`-th. -/
def putString (load : Nat → Option UInt8) : Nat → Nat → Output
  | 0, _ => ([], false)
  | n + 1, i =>
    match load i with
    | none => ([], false)
    | some c => if c = 0 then ([], true) else (putchar c).andThen (putString load n (i + 1))

/-- `"0123456789abcdef"[d]`. -/
def hexDigit (d : Nat) : UInt8 := .ofNat (if d < 10 then 48 + d else 87 + d)

/-- The loop that fills the buffer from its end, `n` steps. -/
def hexLoop : Nat → Nat → List UInt8 → List UInt8
  | 0, _, buffer => buffer
  | n + 1, x, buffer => if x = 0 then buffer else hexLoop n (x / 16) (hexDigit (x % 16) :: buffer)

/-- A number below `2 ^ 64` in hexadecimal. -/
def putHex (x : Nat) : Output := if x = 0 then putchar 48 else (hexLoop 16 x [], true)

/-- `va_arg` of an integer. -/
def vaWord : List Arg → Nat
  | .word w :: _ => w
  | _ => 0

/-- `va_arg` of a `char*`. -/
def vaString : List Arg → Nat → Option UInt8
  | .string load :: _ => load
  | _ => fun _ => none

/-- `console_vprintf`; at most `n` characters of each string. -/
def consoleVprintf (n : Nat) : List Char → List Arg → Output
  | [], _ => ([], true)
  -- a lone `%` at the end: the source goes on past the end of the format
  | ['%'], _ => ([], true)
  | '%' :: 'c' :: format, va =>
    (putchar (.ofNat (vaWord va))).andThen (consoleVprintf n format va.tail)
  | '%' :: 'p' :: format, va =>
    (((putchar 48).andThen (putchar 120)).andThen (putHex (vaWord va))).andThen
      (consoleVprintf n format va.tail)
  | '%' :: 's' :: format, va =>
    (putString (vaString va) n 0).andThen (consoleVprintf n format va.tail)
  | '%' :: 'l' :: 'l' :: 'x' :: format, va =>
    (putHex (vaWord va)).andThen (consoleVprintf n format va.tail)
  | '%' :: 'l' :: 'x' :: format, va =>
    (putHex (vaWord va)).andThen (consoleVprintf n format va.tail)
  -- the argument is taken, and the character after the size is written as it stands
  | '%' :: 'l' :: 'l' :: format, va => consoleVprintf n format va.tail
  | '%' :: 'l' :: format, va => consoleVprintf n format va.tail
  | '%' :: 'x' :: format, va =>
    (putHex (vaWord va % 2 ^ 32)).andThen (consoleVprintf n format va.tail)
  | '%' :: '%' :: format, va => (putchar 37).andThen (consoleVprintf n format va)
  | '%' :: _ :: format, va => consoleVprintf n format va
  | c :: format, va => (putchar (.ofNat c.toNat)).andThen (consoleVprintf n format va)

example : consoleVprintf 8 "a%lx%s\n".toList [.word 0x1f, .string fun i => [98, 0][i]?] =
    ([97, 49, 102, 98, 10], true) := by decide

end IloPali
