import Mathlib.Tactic.Ring
import Mathlib.Tactic.NormNum

/-!
# Byte-addressed memory

A memory maps addresses to bytes.  Words of any width are read and written
little-endian; every write (a word store, a fill, a copy) is one instance of
`patch`, so a single pair of lemmas says what a write leaves alone.
-/

namespace ByteMemory

/-- A total byte-addressed memory. -/
abbrev Mem := Nat → UInt8

/-! ## 1. Writes -/

/-- Overwrite the `n` bytes from address `a` with `f 0`, `f 1`, …. -/
def patch (m : Mem) (a n : Nat) (f : Nat → UInt8) : Mem :=
  fun x => if a ≤ x ∧ x < a + n then f (x - a) else m x

/-- Store the `n` low bytes of `v` at address `a`, little-endian. -/
def store (m : Mem) (n a v : Nat) : Mem :=
  patch m a n (fun i => UInt8.ofNat (v / 256 ^ i))

/-- Set the `n` bytes from address `a` to zero. -/
def zeroFill (m : Mem) (a n : Nat) : Mem := patch m a n (fun _ => 0)

theorem patch_inside (m : Mem) {a n x : Nat} (f : Nat → UInt8)
    (h1 : a ≤ x) (h2 : x < a + n) : patch m a n f x = f (x - a) :=
  if_pos ⟨h1, h2⟩

theorem patch_outside (m : Mem) {a n x : Nat} (f : Nat → UInt8)
    (h : x < a ∨ a + n ≤ x) : patch m a n f x = m x :=
  if_neg (by omega)

theorem zeroFill_inside (m : Mem) {a n x : Nat} (h1 : a ≤ x) (h2 : x < a + n) :
    zeroFill m a n x = 0 :=
  patch_inside m _ h1 h2

theorem zeroFill_outside (m : Mem) {a n x : Nat} (h : x < a ∨ a + n ≤ x) :
    zeroFill m a n x = m x :=
  patch_outside m _ h

@[simp] theorem patch_zero (m : Mem) (a : Nat) (f : Nat → UInt8) : patch m a 0 f = m := by
  funext x
  exact patch_outside m f (by omega)

/-! ## 2. Loads -/

/-- Little-endian load of `n` bytes from address `a`. -/
def load (m : Mem) : Nat → Nat → Nat
  | 0, _ => 0
  | n + 1, a => (m a).toNat + 256 * load m n (a + 1)

/-- A load reads only the bytes of its word. -/
theorem load_congr {m m' : Mem} {n a : Nat}
    (h : ∀ x, a ≤ x → x < a + n → m x = m' x) : load m n a = load m' n a := by
  induction n generalizing a with
  | zero => rfl
  | succ n ih =>
    have hhead : m a = m' a := h a (le_refl a) (by omega)
    have htail : load m n (a + 1) = load m' n (a + 1) :=
      ih fun x hx hlt => h x (by omega) (by omega)
    simp only [load, hhead, htail]

theorem load_lt (m : Mem) (n a : Nat) : load m n a < 256 ^ n := by
  induction n generalizing a with
  | zero => simp [load]
  | succ n ih =>
    have hbyte : (m a).toNat < 256 := (m a).toNat_lt
    have htail := ih (a + 1)
    simp only [load, pow_succ]
    omega

/-- A word whose bytes are the little-endian digits of `v` reads as `v`. -/
theorem load_digits {m : Mem} {n a v : Nat}
    (h : ∀ i, i < n → m (a + i) = UInt8.ofNat (v / 256 ^ i)) :
    load m n a = v % 256 ^ n := by
  induction n generalizing a v with
  | zero => simp [load, Nat.mod_one]
  | succ n ih =>
    have hhead : (m a).toNat = v % 256 := by
      have := h 0 (by omega)
      simp only [Nat.add_zero, pow_zero, Nat.div_one] at this
      rw [this, UInt8.toNat_ofNat']
    have htail : load m n (a + 1) = v / 256 % 256 ^ n := by
      apply ih
      intro i hi
      have := h (i + 1) (by omega)
      rw [Nat.div_div_eq_div_mul, show 256 * 256 ^ i = 256 ^ (i + 1) by ring,
        show a + 1 + i = a + (i + 1) by omega]
      exact this
    rw [load, hhead, htail, pow_succ, Nat.mul_comm (256 ^ n) 256, Nat.mod_mul]

/-! ## 3. Loads after writes -/

theorem load_patch_disjoint (m : Mem) {a n b k : Nat} (f : Nat → UInt8)
    (h : b + k ≤ a ∨ a + n ≤ b) : load (patch m a n f) k b = load m k b :=
  load_congr fun _ _ _ => patch_outside m f (by omega)

theorem load_store_same (m : Mem) (n a v : Nat) :
    load (store m n a v) n a = v % 256 ^ n := by
  apply load_digits
  intro i hi
  rw [store, patch_inside m _ (by omega) (by omega), Nat.add_sub_cancel_left]

theorem load_store_disjoint (m : Mem) {n a b k : Nat} (v : Nat)
    (h : b + k ≤ a ∨ a + n ≤ b) : load (store m n a v) k b = load m k b :=
  load_patch_disjoint m _ h

/-- A word of zero bytes reads as zero. -/
theorem load_of_zero {m : Mem} {k b : Nat} (h : ∀ x, b ≤ x → x < b + k → m x = 0) :
    load m k b = 0 := by
  have := load_digits (m := m) (n := k) (a := b) (v := 0) fun i hi => by
    simpa using h (b + i) (by omega) (by omega)
  simpa using this

theorem load_zeroFill (m : Mem) {a n b k : Nat} (h1 : a ≤ b) (h2 : b + k ≤ a + n) :
    load (zeroFill m a n) k b = 0 :=
  load_of_zero fun _ _ _ => patch_inside m _ (by omega) (by omega)

/-- The `n` bytes from address `a`. -/
def slice (m : Mem) (a n : Nat) : List UInt8 := (List.range n).map fun i => m (a + i)

/-- Blocks of `n` bytes, numbered from zero, lie one behind the other. -/
theorem block_apart {n i j : Nat} (h : i < j) : i * n + n ≤ j * n := by
  have hle : (i + 1) * n ≤ j * n := Nat.mul_le_mul_right n h
  rwa [Nat.add_mul, Nat.one_mul] at hle

theorem slice_patch_same (m : Mem) (a n : Nat) (f : Nat → UInt8) :
    slice (patch m a n f) a n = (List.range n).map f := by
  apply List.map_congr_left
  intro i hi
  rw [patch_inside m f (Nat.le_add_right a i) (Nat.add_lt_add_left (List.mem_range.mp hi) a),
    Nat.add_sub_cancel_left]

theorem slice_patch_apart (m : Mem) {a n b k : Nat} (f : Nat → UInt8)
    (h : b + k ≤ a ∨ a + n ≤ b) : slice (patch m a n f) b k = slice m b k := by
  apply List.map_congr_left
  intro i hi
  have hi' : i < k := List.mem_range.mp hi
  exact patch_outside m f (by omega)

/-- Writing one block leaves the others alone. -/
theorem slice_patch_block (m : Mem) {n i j : Nat} (f : Nat → UInt8) (h : j ≠ i) :
    slice (patch m (i * n) n f) (j * n) n = slice m (j * n) n := by
  apply slice_patch_apart
  rcases Nat.lt_or_gt_of_ne h with hlt | hgt
  · exact Or.inl (block_apart hlt)
  · exact Or.inr (block_apart hgt)

/-- The bytes of a list, read off by index. -/
theorem map_getD_range {l : List UInt8} {n : Nat} (h : l.length = n) :
    ((List.range n).map fun i => l.getD i 0) = l := by
  subst h
  apply List.ext_getElem
  · rw [List.length_map, List.length_range]
  · intro i h1 h2
    rw [List.getElem_map, List.getElem_range]
    exact (List.getElem_eq_getD 0).symm

/-! ## 5. Known bytes -/

/-- The bytes from address `a` on are `bytes`. -/
def HoldsBytes (m : Mem) (a : Nat) : List UInt8 → Prop
  | [] => True
  | b :: bytes => m a = b ∧ HoldsBytes m (a + 1) bytes

theorem holdsBytes_append {m : Mem} {a : Nat} {xs ys : List UInt8} :
    HoldsBytes m a (xs ++ ys) ↔ HoldsBytes m a xs ∧ HoldsBytes m (a + xs.length) ys := by
  induction xs generalizing a with
  | nil => simp [HoldsBytes]
  | cons x xs ih =>
    rw [List.cons_append, HoldsBytes, HoldsBytes, ih, List.length_cons, and_assoc,
      Nat.add_comm xs.length 1, Nat.add_assoc]

instance decidableHoldsBytes (m : Mem) : (a : Nat) → (bytes : List UInt8) →
    Decidable (HoldsBytes m a bytes)
  | _, [] => isTrue trivial
  | a, b :: bytes =>
    have := decidableHoldsBytes m (a + 1) bytes
    inferInstanceAs (Decidable (m a = b ∧ HoldsBytes m (a + 1) bytes))

/-- A memory that holds the bytes of a list, and zeros elsewhere. -/
def ofBytes (a : Nat) (bytes : List UInt8) : Mem :=
  patch (fun _ => 0) a bytes.length fun i => bytes.getD i 0

theorem ofBytes_holds (a : Nat) (bytes : List UInt8) : HoldsBytes (ofBytes a bytes) a bytes := by
  have hall : ∀ (n : Nat) (xs : List UInt8), (∀ i, i < xs.length → bytes[n + i]? = xs[i]?) →
      HoldsBytes (ofBytes a bytes) (a + n) xs := by
    intro n xs
    induction xs generalizing n with
    | nil => exact fun _ => trivial
    | cons x xs ih =>
      intro h
      have hx : bytes[n]? = some x := h 0 (Nat.zero_lt_succ _)
      obtain ⟨hn, hget⟩ := List.getElem?_eq_some_iff.mp hx
      refine ⟨?_, ih (n + 1) fun i hi => ?_⟩
      · rw [ofBytes, patch_inside _ _ (Nat.le_add_right a n) (Nat.add_lt_add_left hn a),
          Nat.add_sub_cancel_left, List.getD_eq_getElem?_getD, hx, Option.getD_some]
      · have hnext := h (i + 1) (Nat.succ_lt_succ hi)
        rw [List.getElem?_cons_succ] at hnext
        rw [← hnext, Nat.add_assoc, Nat.add_comm 1 i]
  have hzero := hall 0 bytes fun i _ => by rw [Nat.zero_add]
  rwa [Nat.add_zero] at hzero

end ByteMemory
