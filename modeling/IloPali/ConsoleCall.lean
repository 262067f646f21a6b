import IloPali.AddressSpace
import IloPali.Console

/-!
# Environment call 0 (`interrupt.c`)

The call writes a message to the console.  The kernel follows the pointer it was given without
looking at the page table, with the rights of the kernel: whatever is mapped for reading, user
page or not, is written out.  So the call is a way to read kernel memory, except for strings
that consist of bytes the task can see anyway.
-/

namespace IloPali

open ByteMemory

/-! ## 1. The call -/

def TASK_NAME_SIZE : Nat := 255

/-- Where the fields of `struct s_task` lie, `name` first. -/
def TASK_TRAP : Nat := 312
def TASK_A1 : Nat := TASK_TRAP + 8 * 11
def TASK_HARTID : Nat := TASK_TRAP + 528
def TASK_TRAP_PID : Nat := TASK_TRAP + 536

/-- What the call reads: memory, the table at page `root` that is installed while the task runs,
    and the task's record, which the kernel reaches through the direct map at physical address
    `task`. -/
structure CallState where
  mem : Mem
  root : Nat
  task : Nat

namespace CallState

/-- The byte that a load by the kernel reaches: any page that is mapped for reading, since
    `sstatus.SUM` is set. -/
def reach (σ : CallState) (addr : Nat) : Option Nat :=
  match translation σ.mem σ.root addr with
  | some (x, perm) => if mmuEntryRead perm = true then some x else none
  | none => none

/-- The user's pointer, `trap->xs[REGISTER_A1]`. -/
def message (σ : CallState) : Nat := load σ.mem 8 (σ.task + TASK_A1)

/-- The load of the `i`-th character of the message. -/
def messageChar (σ : CallState) (i : Nat) : Option UInt8 :=
  (σ.reach ((σ.message + i) % 2 ^ 64)).map σ.mem

/-- The load of the `i`-th character of `task->name`. -/
def nameChar (σ : CallState) (i : Nat) : Option UInt8 := some (σ.mem (σ.task + i))

/-- **Environment call 0**, with at most `n` characters of each string. -/
def writes (σ : CallState) (n : Nat) : Output :=
  consoleVprintf n "[PID 0x%lx (%s) @ hartid 0x%lx] %s\n".toList
    [.word (load σ.mem 8 (σ.task + TASK_TRAP_PID)), .string σ.nameChar,
      .word (load σ.mem 8 (σ.task + TASK_HARTID)), .string σ.messageChar]

/-! ## 2. What the task may see -/

/-- The user mappings of the table. -/
def userMap (σ : CallState) (v : PageNumber) : Option Mapping :=
  (denote σ.mem σ.root v).filter fun x => mmuEntryUser x.flags

/-- The task can read the byte at physical address `x`. -/
def UserByte (σ : CallState) (x : Nat) : Prop :=
  ∃ v y, σ.userMap v = some y ∧ mmuEntryRead y.flags = true ∧ x / 4096 = y.page

/-- The byte belongs to what the call is told of the task: its name, pid, hart id and pointer. -/
def RecordByte (σ : CallState) (x : Nat) : Prop :=
  (σ.task ≤ x ∧ x < σ.task + TASK_NAME_SIZE) ∨
  (σ.task + TASK_TRAP_PID ≤ x ∧ x < σ.task + TASK_TRAP_PID + 8) ∨
  (σ.task + TASK_HARTID ≤ x ∧ x < σ.task + TASK_HARTID + 8) ∨
  (σ.task + TASK_A1 ≤ x ∧ x < σ.task + TASK_A1 + 8)

theorem RecordByte.lt {σ : CallState} {x : Nat} (h : σ.RecordByte x) : x < σ.task + 2048 := by
  have hname : TASK_NAME_SIZE = 255 := rfl
  have hpid : TASK_TRAP_PID = 848 := rfl
  have hhartid : TASK_HARTID = 840 := rfl
  have hmessage : TASK_A1 = 400 := rfl
  unfold RecordByte at h
  omega

/-- The kernel's part of the address space is that of every table, and the name ends. -/
structure Valid (L : Layout) (σ : CallState) : Prop where
  kernel : ∀ v, σ.userMap v = none → denote σ.mem σ.root v = PageMap.kernel L v
  name : ∃ i, i < TASK_NAME_SIZE ∧ σ.mem (σ.task + i) = 0

/-- Two states that look the same to the task: the user mappings, the contents of the pages it
    can read, and its record. -/
structure Agrees (σ σ' : CallState) : Prop where
  userMap : ∀ v, σ'.userMap v = σ.userMap v
  contents : ∀ x, σ.UserByte x → σ'.mem x = σ.mem x
  task : σ'.task = σ.task
  record : ∀ x, σ.RecordByte x → σ'.mem x = σ.mem x

/-- The call tells nothing that the task cannot see: in every state that looks the same it
    writes the same. -/
def LeaksNothing (L : Layout) (σ : CallState) : Prop :=
  ∀ σ', Valid L σ' → Agrees σ σ' → ∀ n, σ'.writes n = σ.writes n

/-- The loop of `%s` gets to the `i`-th character. -/
def ReadsTo (σ : CallState) (i : Nat) : Prop :=
  ∀ j, j < i → ∃ c, σ.messageChar j = some c ∧ c ≠ 0

/-- Every byte of the message that is read is one the task can see. -/
def MessageVisible (σ : CallState) : Prop :=
  ∀ i x, σ.ReadsTo i → σ.reach ((σ.message + i) % 2 ^ 64) = some x → σ.UserByte x ∨ σ.RecordByte x

end CallState

/-! ## 3. Output -/

/-- The characters of the format itself. -/
def text (s : List Char) : Output := (s.map fun c => .ofNat c.toNat, true)

/-- Up to the next `%`, the format is written as it stands. -/
theorem consoleVprintf_text {s : List Char} (hs : '%' ∉ s) (n : Nat) (format : List Char)
    (va : List Arg) :
    consoleVprintf n (s ++ format) va = Output.andThen (text s) (consoleVprintf n format va) := by
  induction s with
  | nil => rfl
  | cons c s ih =>
    rw [List.mem_cons, not_or] at hs
    have hc : consoleVprintf n (c :: (s ++ format)) va =
        Output.andThen (putchar (.ofNat c.toNat)) (consoleVprintf n (s ++ format) va) := by
      simp [consoleVprintf, Ne.symm hs.1]
    rw [List.cons_append, hc, ih hs.2]
    rfl

/-- The loop of `%s` reads the string up to its end and no further. -/
theorem putString_congr {load load' : Nat → Option UInt8} (n : Nat) {i : Nat}
    (h : ∀ t, (∀ j, i ≤ j → j < t → ∃ c, load j = some c ∧ c ≠ 0) → i ≤ t → load' t = load t) :
    putString load' n i = putString load n i := by
  induction n generalizing i with
  | zero => rfl
  | succ n ih =>
    have hi := h i (fun j h1 h2 => absurd h2 (Nat.not_lt.mpr h1)) (le_refl i)
    rw [putString, putString, hi]
    cases hc : load i with
    | none => rfl
    | some c =>
      dsimp only
      by_cases hzero : c = 0
      · rw [if_pos hzero, if_pos hzero]
      · rw [if_neg hzero, if_neg hzero, ih]
        intro t hbefore ht
        refine h t (fun j h1 h2 => ?_) (Nat.le_of_succ_le ht)
        rcases Nat.eq_or_lt_of_le h1 with rfl | hlt
        · exact ⟨c, hc, hzero⟩
        · exact hbefore j hlt h2

/-- The loop of `%s` comes to the end of a string that has one. -/
theorem putString_complete {load : Nat → Option UInt8} {n j : Nat} {i : Nat}
    (hload : ∀ t, i ≤ t → t ≤ i + j → load t ≠ none) (hend : load (i + j) = some 0) (hn : j < n) :
    (putString load n i).2 = true := by
  induction n generalizing i j with
  | zero => exact absurd hn (Nat.not_lt_zero j)
  | succ n ih =>
    rw [putString]
    cases hc : load i with
    | none => exact absurd hc (hload i (le_refl i) (Nat.le_add_right i j))
    | some c =>
      dsimp only
      by_cases hzero : c = 0
      · rw [if_pos hzero]
      · rw [if_neg hzero, Output.andThen_complete rfl]
        cases j with
        | zero => exact absurd (Option.some.inj (hc.symm.trans hend)) hzero
        | succ j =>
          refine ih (j := j) (fun t h1 h2 => hload t (by omega) (by omega)) ?_ (by omega)
          rwa [show i + 1 + j = i + (j + 1) by omega]

/-- The character that `%s` writes for the `j`-th of the string, where the format writes `b`
    after the string. -/
theorem putString_get {load : Nat → Option UInt8} (n : Nat) {i j : Nat} (b : UInt8)
    (h : ∀ t, i ≤ t → t < i + j → ∃ c, load t = some c ∧ c ≠ 0) {c : UInt8}
    (hc : load (i + j) = some c) :
    (Output.andThen (putString load (j + (n + 1)) i) ([b], true)).1[j]? =
      some (if c = 0 then b else c) := by
  induction j generalizing i with
  | zero =>
    rw [Nat.zero_add, putString, show i = i + 0 from rfl, hc]
    dsimp only
    by_cases hzero : c = 0
    · rw [if_pos hzero, if_pos hzero]
      rfl
    · rw [if_neg hzero, if_neg hzero, Output.andThen_assoc, Output.andThen_complete rfl]
      rfl
  | succ j ih =>
    obtain ⟨d, hd, hne⟩ := h i (le_refl i) (by omega)
    rw [show j + 1 + (n + 1) = j + (n + 1) + 1 by omega, putString, hd]
    dsimp only
    rw [if_neg hne, Output.andThen_assoc, Output.andThen_complete rfl]
    refine ih (fun t h1 h2 => h t (by omega) (by omega)) ?_
    rwa [show i + 1 + j = i + (j + 1) by omega]

namespace CallState

/-- What the call writes before the message. -/
def header (σ : CallState) (n : Nat) : Output :=
  Output.andThen (text "[PID 0x".toList)
    (Output.andThen (putHex (load σ.mem 8 (σ.task + TASK_TRAP_PID)))
      (Output.andThen (text " (".toList)
        (Output.andThen (putString σ.nameChar n 0)
          (Output.andThen (text ") @ hartid 0x".toList)
            (Output.andThen (putHex (load σ.mem 8 (σ.task + TASK_HARTID))) (text "] ".toList))))))

/-- The format of the call, conversion by conversion. -/
theorem writes_eq (σ : CallState) (n : Nat) : σ.writes n =
    Output.andThen (σ.header n) (Output.andThen (putString σ.messageChar n 0) ([10], true)) := by
  have hformat : "[PID 0x%lx (%s) @ hartid 0x%lx] %s\n".toList = "[PID 0x".toList ++ '%' :: 'l' ::
      'x' :: (" (".toList ++ '%' :: 's' :: (") @ hartid 0x".toList ++ '%' :: 'l' :: 'x' ::
        ("] ".toList ++ '%' :: 's' :: "\n".toList))) := by decide
  rw [writes, hformat, consoleVprintf_text (by decide)]
  simp only [consoleVprintf, consoleVprintf_text (by decide : '%' ∉ " (".toList),
    consoleVprintf_text (by decide : '%' ∉ ") @ hartid 0x".toList),
    consoleVprintf_text (by decide : '%' ∉ "] ".toList), header, Output.andThen_assoc]
  rfl

/-! ## 4. A visible message leaks nothing -/

section Agree

variable {L : Layout} {σ σ' : CallState} (hσ : Valid L σ) (hσ' : Valid L σ') (hA : Agrees σ σ')
include hσ hσ' hA

theorem Agrees.denote_eq : denote σ'.mem σ'.root = denote σ.mem σ.root := by
  funext v
  have hmap := hA.userMap v
  cases hu : σ.userMap v with
  | none =>
    rw [hu] at hmap
    rw [hσ.kernel v hu, hσ'.kernel v hmap]
  | some y =>
    rw [hu] at hmap
    have hy := Option.eq_some_of_filter_eq_some hu
    exact (Option.eq_some_of_filter_eq_some hmap).trans hy.symm

/-- Both states translate every pointer alike. -/
theorem Agrees.reach_eq (addr : Nat) : σ'.reach addr = σ.reach addr := by
  rw [reach, reach, translation, translation, hA.denote_eq hσ hσ']

end Agree

section Header

variable {σ σ' : CallState} (htask : σ'.task = σ.task)
  (hrecord : ∀ x, σ.RecordByte x → σ'.mem x = σ.mem x)
include htask hrecord

theorem message_eq : σ'.message = σ.message := by
  rw [message, message, htask]
  refine load_congr fun x h1 h2 => hrecord x ?_
  exact Or.inr (Or.inr (Or.inr ⟨h1, h2⟩))

/-- What comes before the message depends on the record alone. -/
theorem header_eq {i : Nat} (hi : i < TASK_NAME_SIZE) (hend : σ.mem (σ.task + i) = 0) (n : Nat) :
    σ'.header n = σ.header n := by
  have hpid : load σ'.mem 8 (σ.task + TASK_TRAP_PID) = load σ.mem 8 (σ.task + TASK_TRAP_PID) :=
    load_congr fun x h1 h2 => hrecord x (Or.inr (Or.inl ⟨h1, h2⟩))
  have hhartid : load σ'.mem 8 (σ.task + TASK_HARTID) = load σ.mem 8 (σ.task + TASK_HARTID) :=
    load_congr fun x h1 h2 => hrecord x (Or.inr (Or.inr (Or.inl ⟨h1, h2⟩)))
  have hname : putString σ'.nameChar n 0 = putString σ.nameChar n 0 := by
    apply putString_congr
    intro t hbefore _
    -- the name ends before the record does
    have ht : t ≤ i := by
      by_contra hlt
      obtain ⟨c, hc, hne⟩ := hbefore i (Nat.zero_le i) (Nat.lt_of_not_le hlt)
      exact hne (Option.some.inj hc ▸ hend)
    rw [nameChar, nameChar, htask, hrecord]
    exact Or.inl ⟨Nat.le_add_right _ _, by omega⟩
  rw [header, header, htask, hpid, hhartid, hname]

omit htask hrecord in
theorem header_complete {i n : Nat} (hend : σ.mem (σ.task + i) = 0) (hn : i < n) :
    (σ.header n).2 = true := by
  have hhex : ∀ x, (putHex x).2 = true := by
    intro x
    unfold putHex
    split
    · rfl
    · rfl
  have hname : (putString σ.nameChar n 0).2 = true := by
    refine putString_complete (j := i) ?_ ?_ hn
    · intro t _ _
      simp [nameChar]
    · simp [nameChar, hend]
  simp [header, Output.andThen, text, hhex, hname]

end Header

/-- If every byte that is read is visible, the call leaks nothing. -/
theorem MessageVisible.leaksNothing {L : Layout} {σ : CallState} (hσ : Valid L σ)
    (h : σ.MessageVisible) : σ.LeaksNothing L := by
  intro σ' hσ' hA n
  obtain ⟨i, hi, hend⟩ := hσ.name
  have hmessage : putString σ'.messageChar n 0 = putString σ.messageChar n 0 := by
    apply putString_congr
    intro t hbefore _
    rw [messageChar, messageChar, message_eq hA.task hA.record, hA.reach_eq hσ hσ']
    cases hx : σ.reach ((σ.message + t) % 2 ^ 64) with
    | none => rfl
    | some x =>
      rw [Option.map_some, Option.map_some]
      have hsame : σ'.mem x = σ.mem x := by
        rcases h t x (fun j hj => hbefore j (Nat.zero_le j) hj) hx with huser | hrecord
        · exact hA.contents x huser
        · exact hA.record x hrecord
      rw [hsame]
  rw [writes_eq, writes_eq, hmessage, header_eq hA.task hA.record hi hend]

/-! ## 5. A message that is not visible -/

/-- The pages of the tables on the walk from page `n`. -/
def walkPages (m : Mem) : List (Fin 512) → Nat → List Nat
  | [], _ => []
  | i :: vpns, n => n :: if mmuEntryValid (cells m n i) = true ∧ mmuEntryFrame (cells m n i) = false
      then walkPages m vpns (entryPhys (cells m n i) / 4096) else []

/-- The byte belongs to the page table. -/
def TableByte (σ : CallState) (x : Nat) : Prop :=
  ∃ v : PageNumber, x / 4096 ∈ walkPages σ.mem [v.vpn0, v.vpn1, v.vpn2] σ.root

/-- The message does not run through the page table. -/
def AvoidsTable (σ : CallState) : Prop :=
  ∀ i x, σ.ReadsTo i → σ.reach ((σ.message + i) % 2 ^ 64) = some x → ¬ σ.TableByte x

theorem translate_congr {m m' : Mem} {vpns : List (Fin 512)} {n : Nat}
    (h : ∀ x, x / 4096 ∈ walkPages m vpns n → m' x = m x) :
    translate m' vpns n = translate m vpns n := by
  induction vpns generalizing n with
  | nil => rfl
  | cons i vpns ih =>
    have hcell : cells m' n i = cells m n i :=
      cells_congr (fun x hx => h x (by simp [walkPages, hx])) i
    rw [translate, translate, hcell]
    cases hv : mmuEntryValid (cells m n i) with
    | false => rfl
    | true =>
      cases hf : mmuEntryFrame (cells m n i) with
      | true => rfl
      | false =>
        rw [ih]
        intro x hx
        apply h
        simp [walkPages, hv, hf, hx]

/-- The state with another byte at `x`. -/
def withByte (σ : CallState) (x : Nat) (c : UInt8) : CallState :=
  { σ with mem := Function.update σ.mem x c }

section WithByte

variable {L : Layout} {σ : CallState} (hσ : Valid L σ) {x : Nat} {c : UInt8}
  (htable : ¬ σ.TableByte x) (huser : ¬ σ.UserByte x) (hrecord : ¬ σ.RecordByte x)

theorem withByte_mem {y : Nat} (hy : y ≠ x) : (σ.withByte x c).mem y = σ.mem y :=
  Function.update_of_ne hy _ _

include htable in
theorem withByte_denote : denote (σ.withByte x c).mem (σ.withByte x c).root = denote σ.mem σ.root := by
  funext v
  apply translate_congr
  intro y hy
  apply withByte_mem
  rintro rfl
  exact htable ⟨v, hy⟩

include hrecord in
theorem withByte_record {y : Nat} (hy : σ.RecordByte y) : (σ.withByte x c).mem y = σ.mem y := by
  apply withByte_mem
  rintro rfl
  exact hrecord hy

include hσ htable hrecord in
theorem withByte_valid : Valid L (σ.withByte x c) where
  kernel v hv := by
    rw [userMap, withByte_denote htable] at hv
    rw [withByte_denote htable]
    exact hσ.kernel v hv
  name := by
    obtain ⟨i, hi, hend⟩ := hσ.name
    refine ⟨i, hi, ?_⟩
    rw [← hend]
    exact withByte_record hrecord (Or.inl ⟨Nat.le_add_right _ _, Nat.add_lt_add_left hi _⟩)

include htable huser hrecord in
/-- The task cannot tell the two states apart. -/
theorem withByte_agrees : Agrees σ (σ.withByte x c) where
  userMap v := by
    rw [userMap, userMap, withByte_denote htable]
  contents y hy := by
    apply withByte_mem
    rintro rfl
    exact huser hy
  task := rfl
  record _ hy := withByte_record hrecord hy

end WithByte

/-- The first byte of the message that is not visible can be told from the output. -/
theorem LeaksNothing.messageVisible {L : Layout} {σ : CallState} (hσ : Valid L σ)
    (havoids : σ.AvoidsTable) (h : σ.LeaksNothing L) : σ.MessageVisible := by
  by_contra hnot
  have hex : ∃ i x, σ.ReadsTo i ∧ σ.reach ((σ.message + i) % 2 ^ 64) = some x ∧
      ¬ (σ.UserByte x ∨ σ.RecordByte x) := by
    simpa only [MessageVisible, not_forall, exists_prop] using hnot
  classical
  obtain ⟨x, hreads, hx, hhidden⟩ := Nat.find_spec hex
  have hfirst := fun j hj => Nat.find_min (m := j) hex hj
  generalize Nat.find hex = i at hreads hx hfirst
  rw [not_or] at hhidden
  obtain ⟨huser, hrecord⟩ := hhidden
  have htable := havoids i x hreads hx
  -- a character that is not the one at `x`, and neither ends the string nor follows it
  obtain ⟨c, hc, hzero, hnewline⟩ : ∃ c : UInt8, c ≠ σ.mem x ∧ c ≠ 0 ∧ c ≠ 10 := by
    by_cases hone : σ.mem x = 1
    · exact ⟨2, by simp [hone], by decide, by decide⟩
    · exact ⟨1, fun h => hone h.symm, by decide, by decide⟩
  have hA := withByte_agrees htable huser hrecord (c := c)
  have hσ' := withByte_valid (c := c) hσ htable hrecord
  obtain ⟨k, hk, hend⟩ := hσ.name
  have hchar : ∀ t, (σ.withByte x c).messageChar t =
      (σ.reach ((σ.message + t) % 2 ^ 64)).map (σ.withByte x c).mem := by
    intro t
    rw [messageChar, message_eq hA.task hA.record, hA.reach_eq hσ hσ']
  have hbefore : ∀ t, 0 ≤ t → t < 0 + i →
      ∃ d, (σ.withByte x c).messageChar t = some d ∧ d ≠ 0 := by
    intro t _ ht
    rw [Nat.zero_add] at ht
    obtain ⟨d, hd, hne⟩ := hreads t ht
    refine ⟨d, ?_, hne⟩
    rw [messageChar, Option.map_eq_some_iff] at hd
    obtain ⟨y, hy, rfl⟩ := hd
    rw [hchar, hy, Option.map_some, withByte_mem]
    rintro rfl
    exact hfirst t ht ⟨y, fun j hj => hreads j (hj.trans ht), hy, not_or.mpr ⟨huser, hrecord⟩⟩
  have hnext : (σ.withByte x c).messageChar (0 + i) = some c := by
    rw [Nat.zero_add, hchar, hx, Option.map_some, withByte]
    simp
  have hout := h _ hσ' hA (i + (k + 1))
  rw [writes_eq, writes_eq, header_eq hA.task hA.record hk hend,
    Output.andThen_complete (header_complete hend (by omega)),
    Output.andThen_complete (header_complete hend (by omega))] at hout
  have hget := congrArg (fun o : Output => o.1[(σ.header (i + (k + 1))).1.length + i]?) hout
  dsimp only at hget
  rw [List.getElem?_append_right (Nat.le_add_right _ _),
    List.getElem?_append_right (Nat.le_add_right _ _), Nat.add_sub_cancel_left,
    putString_get k 10 hbefore hnext, if_neg hzero,
    putString_get k 10 (fun t _ ht => hreads t (by omega))
      (c := σ.mem x) (by rw [Nat.zero_add, messageChar, hx, Option.map_some]),
    Option.some.injEq] at hget
  split at hget
  · exact hnewline hget
  · exact hc hget

/-- **When environment call 0 leaks nothing.**  If every byte of the message that is read, up
    to the end of the string or to an address that is not mapped, lies in a page that the task
    can read or belongs to what the call is told of the task, then any two states that look the
    same to the task give the same output.  For a message that does not run through the page
    table there is no other case. -/
theorem console_call_iff (L : Layout) (σ : CallState) (hσ : Valid L σ) :
    (σ.MessageVisible → σ.LeaksNothing L) ∧
    (σ.AvoidsTable → (σ.LeaksNothing L ↔ σ.MessageVisible)) :=
  ⟨MessageVisible.leaksNothing hσ, fun havoids =>
    ⟨LeaksNothing.messageVisible hσ havoids, MessageVisible.leaksNothing hσ⟩⟩

/-! ## 6. A machine with one task -/

section Created

variable {L : Layout} (hL : L.WellFormed) {k : Kernel}
  (hok : (createMmuTable L k).2.failed = k.failed)
include hL hok

/-- The state after `create_mmu_table`, before anything is mapped for the task. -/
theorem created_valid {task i : Nat} (hi : i < TASK_NAME_SIZE)
    (hend : (createMmuTable L k).2.mem (task + i) = 0) :
    Valid L ⟨(createMmuTable L k).2.mem, (createMmuTable L k).1 / PAGE_SIZE, task⟩ := by
  obtain ⟨ρ, hroot, hrefines, _⟩ := createMmuTable_refines hL hok
  refine ⟨fun v _ => ?_, i, hi, hend⟩
  dsimp only
  rw [hroot, root_page, hrefines.denotes]

theorem created_userMap {task : Nat} (v : PageNumber) :
    userMap ⟨(createMmuTable L k).2.mem, (createMmuTable L k).1 / PAGE_SIZE, task⟩ v = none := by
  obtain ⟨ρ, hroot, hC⟩ := createMmuTable_spec hL hok
  rw [userMap, hroot, root_page, Option.filter_eq_none_iff]
  intro x hx
  by_cases hlow : v.vpn0.val < 256
  · rw [denote_lower hC.tree hlow, mappingOf] at hx
    split at hx
    · have huser := hC.noUser v
      obtain rfl := Option.some.inj hx
      have hflags : leaf (createMmuTable L k).2.mem ρ v &&& MMU_ALL_BITS &&& MMU_ALL_BITS =
          leaf (createMmuTable L k).2.mem ρ v &&& MMU_ALL_BITS := by
        rw [BitVec.and_assoc, BitVec.and_self]
      simp [mmuEntryUser_congr hflags, huser]
    · cases hx
  · rw [denote_upper hC.tree (Nat.not_lt.mp hlow), PageMap.directMap] at hx
    split at hx
    · obtain rfl := Option.some.inj hx
      have huser : mmuEntryUser 0x27#64 = false := by decide
      simp [huser]
    · cases hx

/-- Memory that holds neither counts nor free pages stays as it is. -/
theorem created_mem {x : Nat} (hx : x < L.pagesBottom) : (createMmuTable L k).2.mem x = k.mem x := by
  obtain ⟨ρ, _, hC⟩ := createMmuTable_spec hL hok
  have hb := hL.bounds
  refine hC.frame.mem x (fun h => ?_) ?_ not_false
  · exact absurd h.1 (Nat.not_le.mpr hx)
  · rintro ⟨i, _, hi, _⟩
    rw [Layout.pageAddr] at hi
    omega

end Created

/-- A kernel with one page of data, in which the record of the only task lies. -/
def dataLayout : Layout where
  textStart := 0x80200000
  dataStart := 0x80200000
  roDataStart := 0x80200000
  sdataStart := 0x80200000
  sdataEnd := 0x80201000
  stackStart := 0x80201000
  stackTop := 0x80201000
  pagesBottom := 0x80201000
  heapBottom := 0x80202000

theorem dataLayout_wellFormed : dataLayout.WellFormed :=
  ⟨by decide, by decide, by decide, by decide, by decide, by decide⟩

/-- The task's record, with the pointer `message`, and the byte `c` of the kernel's data. -/
def dataMem (message : Nat) (c : UInt8) : Mem :=
  Function.update (store (fun _ => 0) 8 (0x80200000 + TASK_A1) message) 0x80200800 c

/-- The task runs on a new table. -/
def oneTask (message : Nat) (c : UInt8) : CallState :=
  let k := createMmuTable dataLayout ⟨dataMem message c, 0#64, 0⟩
  ⟨k.2.mem, k.1 / PAGE_SIZE, 0x80200000⟩

theorem oneTask_task (message : Nat) (c : UInt8) : (oneTask message c).task = 0x80200000 := rfl

theorem oneTask_userMap {message : Nat} {c : UInt8}
    (hok : (createMmuTable dataLayout ⟨dataMem message c, 0#64, 0⟩).2.failed = 0)
    (v : PageNumber) : (oneTask message c).userMap v = none :=
  created_userMap dataLayout_wellFormed hok v

theorem oneTask_mem {message : Nat} {c : UInt8}
    (hok : (createMmuTable dataLayout ⟨dataMem message c, 0#64, 0⟩).2.failed = 0)
    {x : Nat} (hx : x < dataLayout.pagesBottom) :
    (oneTask message c).mem x = dataMem message c x :=
  created_mem dataLayout_wellFormed hok hx

theorem oneTask_message {message : Nat} {c : UInt8}
    (hok : (createMmuTable dataLayout ⟨dataMem message c, 0#64, 0⟩).2.failed = 0) :
    (oneTask message c).message = message % 256 ^ 8 := by
  have hpointer : TASK_A1 = 400 := rfl
  have hbottom : dataLayout.pagesBottom = 0x80201000 := rfl
  rw [CallState.message, oneTask_task, ← load_store_same (fun _ => 0) 8 (0x80200000 + TASK_A1) message]
  refine load_congr fun x h1 h2 => ?_
  rw [oneTask_mem hok (by omega), dataMem, Function.update_of_ne (by omega)]

theorem oneTask_name {message : Nat} {c : UInt8}
    (hok : (createMmuTable dataLayout ⟨dataMem message c, 0#64, 0⟩).2.failed = 0) :
    (oneTask message c).mem 0x80200000 = 0 := by
  have hpointer : TASK_A1 = 400 := rfl
  have hbottom : dataLayout.pagesBottom = 0x80201000 := rfl
  rw [oneTask_mem hok (by omega), dataMem, Function.update_of_ne (by omega), store,
    patch_outside _ _ (by omega)]

theorem oneTask_valid {message : Nat} {c : UInt8}
    (hok : (createMmuTable dataLayout ⟨dataMem message c, 0#64, 0⟩).2.failed = 0) :
    Valid dataLayout (oneTask message c) :=
  created_valid (i := 0) dataLayout_wellFormed hok (by decide) (oneTask_name hok)

/-- A message that begins in the task's name, which is empty. -/
theorem console_call_name : (oneTask 0x80200000 65).LeaksNothing dataLayout := by
  have hok : (createMmuTable dataLayout ⟨dataMem 0x80200000 65, 0#64, 0⟩).2.failed = 0 := by
    decide +kernel
  have hmessage := oneTask_message hok
  rw [Nat.mod_eq_of_lt (by decide)] at hmessage
  have hreach : (oneTask 0x80200000 65).reach 0x80200000 = some 0x80200000 := by decide +kernel
  refine (console_call_iff dataLayout _ (oneTask_valid hok)).1 fun i x hreads hx => ?_
  cases i with
  | zero =>
    rw [hmessage, Nat.add_zero, Nat.mod_eq_of_lt (by decide), hreach] at hx
    obtain rfl := Option.some.inj hx
    right
    left
    exact ⟨le_refl _, Nat.lt_add_of_pos_right (by decide : 0 < TASK_NAME_SIZE)⟩
  | succ i =>
    obtain ⟨c, hc, hne⟩ := hreads 0 (Nat.succ_pos i)
    rw [messageChar, hmessage, Nat.add_zero, Nat.mod_eq_of_lt (by decide), hreach,
      Option.map_some] at hc
    exact absurd ((Option.some.inj hc).symm.trans (oneTask_name hok)) hne

/-- The call prints a byte of the kernel's data: two states that differ in that byte alone look
    the same to the task. -/
theorem console_call_leaks : Valid dataLayout (oneTask 0x80200800 65) ∧
    Valid dataLayout (oneTask 0x80200800 66) ∧
    Agrees (oneTask 0x80200800 65) (oneTask 0x80200800 66) ∧
    (oneTask 0x80200800 66).writes 2 ≠ (oneTask 0x80200800 65).writes 2 := by
  have hok : (createMmuTable dataLayout ⟨dataMem 0x80200800 65, 0#64, 0⟩).2.failed = 0 := by
    decide +kernel
  have hok' : (createMmuTable dataLayout ⟨dataMem 0x80200800 66, 0#64, 0⟩).2.failed = 0 := by
    decide +kernel
  refine ⟨oneTask_valid hok, oneTask_valid hok',
    ⟨fun v => ?_, fun x hx => ?_, rfl, fun x hx => ?_⟩, by decide +kernel⟩
  · rw [oneTask_userMap hok, oneTask_userMap hok']
  · obtain ⟨v, y, hv, _⟩ := hx
    rw [oneTask_userMap hok] at hv
    exact nomatch hv
  · have hlt := hx.lt
    have hbottom : dataLayout.pagesBottom = 0x80201000 := rfl
    rw [oneTask_task] at hlt
    rw [oneTask_mem hok (by omega), oneTask_mem hok' (by omega), dataMem, dataMem,
      Function.update_of_ne (by omega), Function.update_of_ne (by omega)]

end CallState

end IloPali
