import IloPali.Lib.Fifo
import IloPali.Lib.ByteMemory

/-!
# The queue (`queue.c`)

A ring of items in one block of bytes, with the indices of its first item and of
the next free place.  When the ring is full `queue_enqueue` doubles the block, but
it moves no item, and the next free place of a full ring is that of its first item.
This module proves that the queue is first in, first out as long as it never has
to grow.
-/

namespace IloPali

open ByteMemory Transition

/-! ## 1. The code -/

/-- `struct s_queue`, with the flexible array as a memory of its own. -/
structure Queue where
  itemSize : Nat
  len : Nat
  cap : Nat
  start : Nat
  end_ : Nat
  bytes : Mem

def QUEUE_INIT_SIZE : Nat := 128

/-- `create_queue`; `bytes` is what the new block holds. -/
def createQueue (itemSize : Nat) (bytes : Mem) : Queue :=
  ⟨itemSize, 0, QUEUE_INIT_SIZE, 0, 0, bytes⟩

/-- `grow_queue`.  `realloc` keeps the bytes of the old block; `junk` is what the new one
    holds behind them. -/
def growQueue (junk : Mem) (q : Queue) : Queue :=
  { q with
    cap := q.cap * 2 % 2 ^ 64
    bytes := fun x => if x < q.cap * q.itemSize then q.bytes x else junk x }

/-- The address of a place of the ring, from `bytes`. -/
def Queue.place (q : Queue) (slot : Nat) : Nat := slot * q.itemSize % 2 ^ 64

/-- An index of the ring counted up, `if (++i >= cap) i = 0`. -/
def Queue.advance (q : Queue) (i : Nat) : Nat :=
  if (i + 1) % 2 ^ 64 ≥ q.cap then 0 else (i + 1) % 2 ^ 64

/-- `queue_enqueue`. -/
def queueEnqueue (junk : Mem) (data : List UInt8) (q : Queue) : Queue :=
  let q := if q.len ≥ q.cap then growQueue junk q else q
  { q with
    bytes := patch q.bytes (q.place q.end_) q.itemSize fun i => data.getD i 0
    end_ := q.advance q.end_
    len := (q.len + 1) % 2 ^ 64 }

/-- The bytes of a place of the ring. -/
def Queue.item (q : Queue) (slot : Nat) : List UInt8 := slice q.bytes (q.place slot) q.itemSize

/-- `queue_dequeue`: its result, what it copies to `data` (nothing, where `data` is `NULL`),
    and the queue it leaves. -/
def queueDequeue (data : Bool) (q : Queue) : Bool × Option (List UInt8) × Queue :=
  if q.len = 0 then (false, none, q)
  else (true, if data then some (q.item q.start) else none,
    { q with start := q.advance q.start, len := q.len - 1 })

/-! ## 2. Runs -/

/-- One call, and what its caller sees of it. -/
inductive QueueStep : Queue → Fifo.Event (List UInt8) → Queue → Prop
  | enqueue {q : Queue} {data : List UInt8} (junk : Mem) (hsize : data.length = q.itemSize) :
      QueueStep q (.enqueue data) (queueEnqueue junk data q)
  | dequeue {q q' : Queue} {data : Bool} {seen : Option (List UInt8)}
      (hcall : queueDequeue data q = (true, seen, q')) : QueueStep q (.dequeue seen) q'
  | empty {q q' : Queue} {data : Bool} {seen : Option (List UInt8)}
      (hcall : queueDequeue data q = (false, seen, q')) : QueueStep q .empty q'

/-- The ring need not grow for the next item, and its block is as large as its places
    say, or there is nothing to store; and the count does not overflow. -/
def Roomy (q : Queue) : Fifo.Event (List UInt8) → Prop
  | .enqueue _ => q.len + 1 < 2 ^ 64 ∧
      (q.itemSize = 0 ∨ (q.len < q.cap ∧ q.cap * q.itemSize < 2 ^ 64))
  | _ => True

/-! ## 3. The ring -/

/-- The place of the item `i` places behind the first one. -/
def Queue.slot (q : Queue) (i : Nat) : Nat := (q.start + i) % q.cap

/-- The ring holds the items `xs`. -/
structure Holds (q : Queue) (xs : List (List UInt8)) : Prop where
  len : q.len = xs.length
  sizes : ∀ x ∈ xs, x.length = q.itemSize
  /-- Unless the items are empty, the places that are used follow one another. -/
  ring : q.itemSize ≠ 0 → q.cap = QUEUE_INIT_SIZE ∧ q.start < q.cap ∧ q.len ≤ q.cap ∧
    q.end_ = q.slot q.len ∧ (q.len ≠ 0 → q.cap * q.itemSize < 2 ^ 64) ∧
    ∀ i (h : i < xs.length), q.item (q.slot i) = xs[i]

/-- Places of a block without overflow lie one behind the other. -/
theorem place_eq {q : Queue} {slot : Nat} (hslot : slot < q.cap)
    (hfits : q.cap * q.itemSize < 2 ^ 64) : q.place slot = slot * q.itemSize := by
  have hle : slot * q.itemSize ≤ q.cap * q.itemSize := Nat.mul_le_mul_right _ hslot.le
  exact Nat.mod_eq_of_lt (by omega)

theorem slot_apart {q : Queue} (hcap : q.cap = QUEUE_INIT_SIZE) {i j : Nat} (hij : i < j)
    (hj : j < q.cap) : q.slot i ≠ q.slot j := by
  rw [Queue.slot, Queue.slot]
  rw [hcap, QUEUE_INIT_SIZE] at hj ⊢
  omega

/-- Storing an item at a place and reading it back. -/
theorem item_patch_same (q : Queue) {data : List UInt8} (hsize : data.length = q.itemSize)
    (slot : Nat) :
    { q with bytes := patch q.bytes (q.place slot) q.itemSize fun i => data.getD i 0 }.item slot =
      data :=
  (slice_patch_same _ _ _ _).trans (map_getD_range hsize)

/-- It leaves the other places alone. -/
theorem item_patch_other {q : Queue} (data : List UInt8) {slot slot' : Nat} (hne : slot' ≠ slot)
    (hslot : slot < q.cap) (hslot' : slot' < q.cap) (hfits : q.cap * q.itemSize < 2 ^ 64) :
    { q with bytes := patch q.bytes (q.place slot) q.itemSize fun i => data.getD i 0 }.item slot' =
      q.item slot' := by
  show slice (patch q.bytes (q.place slot) q.itemSize fun i => data.getD i 0) (q.place slot')
    q.itemSize = slice q.bytes (q.place slot') q.itemSize
  rw [place_eq hslot hfits, place_eq hslot' hfits]
  exact slice_patch_block _ _ hne

theorem Holds.create (itemSize : Nat) (bytes : Mem) : Holds (createQueue itemSize bytes) [] :=
  ⟨rfl, fun _ hx => (nomatch hx), fun _ => ⟨rfl, Nat.zero_lt_succ 127, Nat.zero_le _, rfl,
    fun h => absurd rfl h, fun _ hi => absurd hi (Nat.not_lt_zero _)⟩⟩

@[simp] theorem queueEnqueue_itemSize (junk : Mem) (data : List UInt8) (q : Queue) :
    (queueEnqueue junk data q).itemSize = q.itemSize := by
  unfold queueEnqueue
  dsimp only
  split
  · rfl
  · rfl

theorem Holds.enqueue {q : Queue} {xs : List (List UInt8)} (h : Holds q xs) (junk : Mem)
    {data : List UInt8} (hsize : data.length = q.itemSize) (hroom : Roomy q (.enqueue data)) :
    Holds (queueEnqueue junk data q) (xs ++ [data]) := by
  obtain ⟨hlen, hroom⟩ := hroom
  have hitem := queueEnqueue_itemSize junk data q
  have hcount : (queueEnqueue junk data q).len = q.len + 1 := by
    unfold queueEnqueue
    dsimp only
    split
    · exact Nat.mod_eq_of_lt hlen
    · exact Nat.mod_eq_of_lt hlen
  refine ⟨?_, fun x hx => ?_, fun hne => ?_⟩
  · rw [hcount, h.len, List.length_append, List.length_singleton]
  · rw [hitem]
    rcases List.mem_append.mp hx with hx | hx
    · exact h.sizes x hx
    · rwa [List.mem_singleton.mp hx]
  · rw [hitem] at hne
    obtain ⟨hlt, hfits⟩ := hroom.resolve_left hne
    obtain ⟨hcap, hstart, hle, hend, _, hitems⟩ := h.ring hne
    have hq : queueEnqueue junk data q =
        { q with
          bytes := patch q.bytes (q.place q.end_) q.itemSize fun i => data.getD i 0
          end_ := q.advance q.end_
          len := (q.len + 1) % 2 ^ 64 } := by
      rw [queueEnqueue, if_neg (Nat.not_le.mpr hlt)]
    have hendlt : q.end_ < q.cap := by
      rw [hend]
      exact Nat.mod_lt _ (Nat.zero_lt_of_lt hstart)
    refine ⟨by rw [hq]; exact hcap, by rw [hq]; exact hstart, ?_, ?_, fun _ => by rw [hq]; exact hfits,
      fun i hi => ?_⟩
    · rw [hcount, hq]
      exact hlt
    · -- the next free place, one further on
      rw [hcount, hq]
      show q.advance q.end_ = (q.start + (q.len + 1)) % q.cap
      rw [Queue.advance, hend, Queue.slot]
      rw [hcap, QUEUE_INIT_SIZE] at *
      split
      · omega
      · omega
    · rw [hq]
      show Queue.item { q with
        bytes := patch q.bytes (q.place q.end_) q.itemSize fun i => data.getD i 0 } (q.slot i) = _
      rcases Nat.lt_or_ge i xs.length with hold | hnew
      · have hslot : q.slot i < q.cap := Nat.mod_lt _ (Nat.zero_lt_of_lt hstart)
        have hapart : q.slot i ≠ q.end_ := by
          rw [hend, h.len]
          exact slot_apart hcap hold (by rw [← h.len]; exact hlt)
        rw [item_patch_other data hapart hendlt hslot hfits, hitems i hold,
          List.getElem_append_left hold]
      · have hi' : i = xs.length := by
          rw [List.length_append, List.length_singleton] at hi
          omega
        subst hi'
        have hslot : q.slot xs.length = q.end_ := by rw [hend, h.len]
        rw [hslot, item_patch_same q hsize]
        exact (List.getElem_concat_length rfl _).symm

theorem Holds.dequeue {q q' : Queue} {xs : List (List UInt8)} (h : Holds q xs) {data : Bool}
    {seen : Option (List UInt8)} (hcall : queueDequeue data q = (true, seen, q')) :
    ∃ x ys, xs = x :: ys ∧ Fifo.Shows seen x ∧ Holds q' ys := by
  unfold queueDequeue at hcall
  by_cases h0 : q.len = 0
  · rw [if_pos h0] at hcall
    exact absurd (congrArg Prod.fst hcall) Bool.false_ne_true
  · rw [if_neg h0] at hcall
    obtain ⟨hseen, hq⟩ := Prod.mk.inj (Prod.mk.inj hcall).2
    have hlen := h.len
    cases xs with
    | nil => exact absurd hlen h0
    | cons x ys =>
      rw [List.length_cons] at hlen
      refine ⟨x, ys, rfl, ?_, ?_, ?_, fun hne => ?_⟩
      · intro y hy
        cases data with
        | false =>
          rw [← hseen] at hy
          exact absurd hy (Option.not_mem_none y)
        | true =>
          rw [← hseen, if_pos rfl, Option.mem_some] at hy
          rw [← hy]
          by_cases hsize : q.itemSize = 0
          · have hx := h.sizes x List.mem_cons_self
            rw [hsize] at hx
            rw [List.eq_nil_of_length_eq_zero hx, Queue.item, slice, hsize, List.range_zero, List.map_nil]
          · obtain ⟨_, hstart, _, _, _, hitems⟩ := h.ring hsize
            have hfirst := hitems 0 (Nat.zero_lt_succ _)
            rwa [Queue.slot, Nat.add_zero, Nat.mod_eq_of_lt hstart] at hfirst
      · rw [← hq]
        show q.len - 1 = ys.length
        omega
      · rw [← hq]
        exact fun y hy => h.sizes y (List.mem_cons_of_mem x hy)
      · have hitem : q'.itemSize = q.itemSize := by rw [← hq]
        rw [hitem] at hne
        obtain ⟨hcap, hstart, hle, hend, hfits, hitems⟩ := h.ring hne
        -- the indices count the same places from one further on
        have hslot : ∀ i, q'.slot i = q.slot (i + 1) := by
          intro i
          rw [← hq]
          show (q.advance q.start + i) % q.cap = (q.start + (i + 1)) % q.cap
          rw [Queue.advance]
          rw [hcap, QUEUE_INIT_SIZE] at hstart ⊢
          split
          · omega
          · omega
        have hlen' : q'.len + 1 = q.len := by
          rw [← hq]
          exact Nat.sub_add_cancel (Nat.pos_of_ne_zero h0)
        refine ⟨by rw [← hq]; exact hcap, ?_, ?_, ?_, fun _ => ?_, fun i hi => ?_⟩
        · rw [← hq]
          show q.advance q.start < q.cap
          rw [Queue.advance]
          split
          · exact Nat.zero_lt_of_lt hstart
          · omega
        · have hcap' : q'.cap = q.cap := by rw [← hq]
          omega
        · rw [hslot, hlen', ← hend, ← hq]
        · rw [← hq]
          exact hfits h0
        · have hnext := hitems (i + 1) (Nat.succ_lt_succ hi)
          rw [hslot, ← hq]
          exact hnext

/-! ## 4. First in, first out -/

theorem Holds.step {q q' : Queue} {e : Fifo.Event (List UInt8)} {xs : List (List UInt8)}
    (h : Holds q xs) (hstep : guarded Roomy QueueStep q e q') :
    ∃ ys, Fifo.Step xs e ys ∧ Holds q' ys := by
  obtain ⟨hroom, hstep⟩ := hstep
  cases hstep with
  | enqueue junk hsize => exact ⟨_, .enqueue xs _, h.enqueue junk hsize hroom⟩
  | dequeue hcall =>
    obtain ⟨x, ys, rfl, hseen, hys⟩ := h.dequeue hcall
    exact ⟨ys, .dequeue x ys hseen, hys⟩
  | empty hcall =>
    unfold queueDequeue at hcall
    by_cases h0 : q.len = 0
    · rw [if_pos h0] at hcall
      have hxs : xs = [] := by
        rw [← List.length_eq_zero_iff, ← h.len]
        exact h0
      have hq := (Prod.mk.inj (Prod.mk.inj hcall).2).2
      subst hxs
      exact ⟨[], .empty, hq ▸ h⟩
    · rw [if_neg h0] at hcall
      exact absurd (congrArg Prod.fst hcall).symm Bool.false_ne_true

end IloPali
