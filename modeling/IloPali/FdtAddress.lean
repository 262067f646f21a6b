import IloPali.Fdt
import IloPali.Hexdump

/-!
# Unit addresses (`fdt_get_node_addr`)

The name of a node can end in `@` and the address of its device, in hexadecimal.  This module
proves which number `fdt_get_node_addr` reads there, and that it is the one `%lx` prints.
-/

namespace IloPali

open ByteMemory

/-! ## 1. The code -/

/-- `while (*c && *c++ != '@');` -/
def seekAt (m : Mem) : Nat → Nat → Option Nat
  | 0, _ => none
  | fuel + 1, c =>
    if m c = 0 then some c
    else if m c = atSign then some (c + 1)
    else seekAt m fuel (c + 1)

/-- The `switch` over a character; one that is no digit stays what it is. -/
def addrDigit (v : UInt8) : Nat :=
  if 48 ≤ v ∧ v ≤ 57 then v.toNat - 48
  else if 97 ≤ v ∧ v ≤ 102 then v.toNat - 97 + 0xa
  else if 65 ≤ v ∧ v ≤ 70 then v.toNat - 65 + 0xA
  else v.toNat

/-- `while (*c)`. -/
def addrLoop (m : Mem) : Nat → Nat → Nat → Option Nat
  | 0, _, _ => none
  | fuel + 1, c, result =>
    if m c = 0 then some result
    else addrLoop m fuel (c + 1) (result <<< 4 % 2 ^ 64 ||| addrDigit (m c))

/-- `fdt_get_node_addr`. -/
def fdtGetNodeAddr (fuel : Nat) (m : Mem) (node : Nat) : Option Nat :=
  if beToLe 32 m node ≠ FDT_BEGIN_NODE then some 0
  else (seekAt m fuel (node + 4)).bind fun c => if m c = 0 then some 0 else addrLoop m fuel c 0

/-! ## 2. Names with an address -/

/-- The number that the digits stand for. -/
def addrValue (digits : List UInt8) : Nat := digits.foldl (fun v b => 16 * v + addrDigit b) 0

/-- `fdt_get_node_addr` returns `result`. -/
def NodeAddr (m : Mem) (node result : Nat) : Prop :=
  ∃ n, ∀ fuel, n ≤ fuel → fdtGetNodeAddr fuel m node = some result

section Scan

variable {m : Mem}

theorem seekAt_base {c fuel : Nat} {base rest : List UInt8} (hbase : ∀ b ∈ base, b ≠ 0 ∧ b ≠ atSign)
    (h : HoldsBytes m c (base ++ rest)) :
    seekAt m (base.length + fuel) c = seekAt m fuel (c + base.length) := by
  induction base generalizing c with
  | nil => simp
  | cons b base ih =>
    obtain ⟨hzero, hat⟩ := hbase b List.mem_cons_self
    have hb : m c = b := h.1
    rw [List.length_cons, Nat.succ_add, seekAt, hb, if_neg hzero, if_neg hat,
      ih (fun b' hb' => hbase b' (List.mem_cons_of_mem b hb')) h.2, Nat.add_assoc, Nat.add_comm 1]

/-- One digit more. -/
theorem addr_shift {v d : Nat} (hd : d < 16) :
    (v % 2 ^ 64) <<< 4 % 2 ^ 64 ||| d = (16 * v + d) % 2 ^ 64 := by
  have hshift : (v % 2 ^ 64) <<< 4 % 2 ^ 64 = v % 2 ^ 60 * 2 ^ 4 := by
    rw [Nat.shiftLeft_eq]
    omega
  rw [hshift, or_digit hd]
  omega

theorem addrLoop_spec {c fuel : Nat} {digits : List UInt8}
    (hdigits : ∀ b ∈ digits, b ≠ 0 ∧ addrDigit b < 16) (h : HoldsBytes m c (digits ++ [0]))
    (hfuel : digits.length < fuel) (v : Nat) :
    addrLoop m fuel c (v % 2 ^ 64) =
      some (digits.foldl (fun v b => 16 * v + addrDigit b) v % 2 ^ 64) := by
  induction digits generalizing c fuel v with
  | nil =>
    obtain ⟨fuel, rfl⟩ := Nat.exists_eq_succ_of_ne_zero (Nat.ne_of_gt hfuel)
    rw [addrLoop, if_pos h.1]
    rfl
  | cons b digits ih =>
    obtain ⟨fuel, rfl⟩ := Nat.exists_eq_succ_of_ne_zero (Nat.ne_of_gt (Nat.zero_lt_of_lt hfuel))
    obtain ⟨hzero, hdigit⟩ := hdigits b List.mem_cons_self
    have hb : m c = b := h.1
    rw [addrLoop, hb, if_neg hzero, addr_shift hdigit,
      ih (fun b' hb' => hdigits b' (List.mem_cons_of_mem b hb')) h.2 (Nat.lt_of_succ_lt_succ hfuel)]
    rfl

/-- The address in a name, or 0 where there is no `@`. -/
theorem nodeAddr_name {a : Nat} {name : List UInt8} (hname : ∀ b ∈ name, b ≠ 0)
    (h : HoldsBytes m a (Token.beginNode name).bytes) :
    (atSign ∉ name → NodeAddr m a 0) ∧
    ∀ base digits, name = base ++ atSign :: digits → atSign ∉ base →
      (∀ b ∈ digits, addrDigit b < 16) → NodeAddr m a (addrValue digits % 2 ^ 64) := by
  obtain ⟨hword, hholds⟩ := holds_beginNode h
  constructor
  · intro hat
    refine ⟨name.length + 1, fun fuel hfuel => ?_⟩
    obtain ⟨n, rfl⟩ := Nat.exists_eq_add_of_le hfuel
    have hseek := @seekAt_base m (a + 4) (1 + n) name [0]
      (fun b hb => ⟨hname b hb, fun heq => hat (heq ▸ hb)⟩) hholds
    have hend : m (a + 4 + name.length) = 0 := (holdsBytes_append.mp hholds).2.1
    rw [fdtGetNodeAddr, if_neg (not_not.mpr hword), Nat.add_assoc name.length, hseek,
      Nat.add_comm 1 n, seekAt, if_pos hend, Option.bind_some, if_pos hend]
  · rintro base digits rfl hat hdigits
    refine ⟨base.length + digits.length + 2, fun fuel hfuel => ?_⟩
    obtain ⟨n, rfl⟩ : ∃ n, fuel = base.length + (n + 1) :=
      ⟨fuel - base.length - 1, by omega⟩
    rw [List.append_assoc, List.cons_append] at hholds
    have hseek := @seekAt_base m (a + 4) (n + 1) base (atSign :: (digits ++ [0]))
      (fun b hb => ⟨hname b (List.mem_append_left _ hb), fun heq => hat (heq ▸ hb)⟩) hholds
    obtain ⟨hsign, hrest⟩ := (holdsBytes_append.mp hholds).2
    have hnonzero : m (a + 4 + base.length) ≠ 0 := by
      rw [hsign]
      decide
    rw [fdtGetNodeAddr, if_neg (not_not.mpr hword), hseek, seekAt, if_neg hnonzero, if_pos hsign,
      Option.bind_some]
    have hloop := @addrLoop_spec m _ (base.length + (n + 1)) digits
      (fun b hb => ⟨hname b (by simp [hb]), hdigits b hb⟩) hrest (by omega) 0
    rw [Nat.zero_mod] at hloop
    split
    · rename_i hzero
      -- nothing behind the sign
      cases digits with
      | nil => rfl
      | cons b digits =>
        have hb : m (a + 4 + base.length + 1) = b := hrest.1
        exact absurd (hb.symm.trans hzero) (hname b (by simp))
    · exact hloop

/-- Each token is in memory where its place is. -/
theorem place_holds {b : Nat} {ts : List Token} (h : HoldsBytes m b (ts.flatMap Token.bytes)) :
    ∀ q ∈ place b ts, HoldsBytes m q.1 q.2.bytes ∧ q.2 ∈ ts := by
  induction ts generalizing b with
  | nil =>
    intro q hq
    cases hq
  | cons t ts ih =>
    rw [List.flatMap_cons, holdsBytes_append] at h
    intro q hq
    rcases List.mem_cons.mp hq with rfl | hq
    · exact ⟨h.1, List.mem_cons_self⟩
    · obtain ⟨hholds, hmem⟩ := ih h.2 q hq
      exact ⟨hholds, List.mem_cons_of_mem t hmem⟩

end Scan

theorem addrDigit_hexDigit {d : Nat} (hd : d < 16) : addrDigit (hexDigit d) = d := by
  have hall : ∀ d ∈ List.range 16, addrDigit (hexDigit d) = d := by decide
  exact hall d (List.mem_range.mpr hd)

/-- What `%lx` prints is read back. -/
theorem addrValue_numeral {x : Nat} (hx : x < 2 ^ 64) :
    (∀ b ∈ numeral x, addrDigit b < 16) ∧ addrValue (numeral x) % 2 ^ 64 = x := by
  have hdigits := digits_numeral x
  have hvalue : addrValue (numeral x) = hexValue (numeral x) := by
    unfold addrValue hexValue
    generalize numeral x = s at hdigits
    suffices ∀ v, s.foldl (fun v b => 16 * v + addrDigit b) v =
        s.foldl (fun v c => 16 * v + digitValue c) v from this 0
    induction s with
    | nil => exact fun _ => rfl
    | cons c s ih =>
      intro v
      obtain ⟨d, hd, rfl⟩ := hdigits c List.mem_cons_self
      rw [List.foldl_cons, List.foldl_cons, addrDigit_hexDigit hd, digitValue_hexDigit hd]
      exact ih (fun c hc => hdigits c (List.mem_cons_of_mem _ hc)) _
  constructor
  · intro b hb
    obtain ⟨d, hd, rfl⟩ := hdigits b hb
    rwa [addrDigit_hexDigit hd]
  · rw [hvalue, hexValue_numeral hx, Nat.mod_eq_of_lt hx]

/-- **Unit addresses.**  For every node of a tree in memory, `fdt_get_node_addr` returns the number
    behind `@`, modulo `2 ^ 64`, and 0 where there is no `@`; a number that `%lx` printed into the
    name is read back. -/
theorem fdt_node_addresses (d : DeviceTree) (m : Mem) (structureBlock : Nat)
    (hvalid : ∀ t ∈ d.tokens, t.Valid) (hblock : HoldsBytes m structureBlock (blockBytes d.tokens))
    (a : Nat) (name : List UInt8) (hnode : (a, .beginNode name) ∈ place structureBlock d.tokens) :
    (atSign ∉ name → NodeAddr m a 0) ∧
    (∀ base digits, name = base ++ atSign :: digits → atSign ∉ base →
      (∀ b ∈ digits, addrDigit b < 16) → NodeAddr m a (addrValue digits % 2 ^ 64)) ∧
    ∀ base x, name = base ++ atSign :: numeral x → atSign ∉ base → x < 2 ^ 64 → NodeAddr m a x := by
  rw [blockBytes, holdsBytes_append] at hblock
  obtain ⟨hholds, hmem⟩ := place_holds hblock.1 _ hnode
  obtain ⟨hnone, haddr⟩ := nodeAddr_name (hvalid _ hmem) hholds
  refine ⟨hnone, haddr, fun base x hname hat hx => ?_⟩
  obtain ⟨hdigits, hvalue⟩ := addrValue_numeral hx
  have hread := haddr base (numeral x) hname hat hdigits
  rwa [hvalue] at hread

theorem fdt_node_addresses_cpus :
    NodeAddr (ofBytes 64 (blockBytes cpusTree.tokens)) 116 0x100 := by
  have hvalid : ∀ t ∈ cpusTree.tokens, t.Valid := by
    simp [cpusTree, DeviceTree.tokens, Items.tokens, Token.Valid]
  have hplace : (116, .beginNode [99, 112, 117, 64, 49, 48, 48]) ∈ place 64 cpusTree.tokens := by
    decide
  exact (fdt_node_addresses cpusTree _ 64 hvalid (ofBytes_holds _ _) 116 _ hplace).2.1
    [99, 112, 117] [49, 48, 48] rfl (by decide) (by simp [addrDigit])

end IloPali
