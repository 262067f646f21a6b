import IloPali.ArgumentVector

/-!
# Arguments in one page

Where the strings and the pointers fit in the first page above the stack, the loops of the loader
ask for no other page, and what they do does not depend on the page table: they write that page
and the words of `args_new`.
-/

namespace IloPali

open ByteMemory

/-! ## 1. The window -/

/-- From `a` to `a'` the window has got `n` bytes, and nothing else has changed. -/
structure Args.Fills (a a' : Args) (n : Nat) : Prop where
  physical : a'.physical = a.physical
  virt : a'.virtAddr = a.virtAddr
  offset : a'.offset = a.offset + n
  satp : a'.load.kernel.satp = a.load.kernel.satp
  failed : a'.load.kernel.failed = a.load.kernel.failed
  frame : ∀ x, x < physOf a.load.kernel.mmu a.physical ∨
    physOf a.load.kernel.mmu a.physical + PAGE_SIZE ≤ x → a'.load.kernel.mem x = a.load.kernel.mem x

theorem Args.Fills.mmu {a a' : Args} {n : Nat} (h : a.Fills a' n) :
    a'.load.kernel.mmu = a.load.kernel.mmu := by
  rw [Kernel.mmu, h.satp, Kernel.mmu]

theorem Args.Fills.refl (a : Args) : a.Fills a 0 := ⟨rfl, rfl, rfl, rfl, rfl, fun _ _ => rfl⟩

theorem Args.Fills.trans {a b c : Args} {n m : Nat} (h1 : a.Fills b n) (h2 : b.Fills c m) :
    a.Fills c (n + m) := by
  refine ⟨h2.physical.trans h1.physical, h2.virt.trans h1.virt, ?_, h2.satp.trans h1.satp,
    h2.failed.trans h1.failed, fun x hx => ?_⟩
  · rw [h2.offset, h1.offset, Nat.add_assoc]
  · have hnext := h2.frame x
    rw [h1.mmu, h1.physical] at hnext
    exact (hnext hx).trans (h1.frame x hx)

section Window

variable {L : Layout} {top : Nat} {a : Args}

theorem nextPage_offset (L : Layout) (top : Nat) (a : Args) : (a.nextPage L top).offset = 0 := rfl

/-- There is room in the window. -/
theorem room_of_lt (h : a.offset < PAGE_SIZE) : a.room L top = a := if_neg (Nat.not_le.mpr h)

theorem fills_write (hdir : Direct a.load.kernel.mmu a.physical) {n : Nat} (v : Nat)
    (hfit : a.offset + n ≤ PAGE_SIZE) : a.Fills (a.write n v) n := by
  refine ⟨rfl, rfl, rfl, rfl, rfl, fun x hx => ?_⟩
  have hphys := hdir.physOf_add a.offset
  have hout : x < physOf a.load.kernel.mmu (a.physical + a.offset) ∨
      physOf a.load.kernel.mmu (a.physical + a.offset) + n ≤ x := by
    omega
  exact patch_outside a.load.kernel.mem (fun i => UInt8.ofNat (v / 256 ^ i)) hout

theorem fills_putChar (hdir : Direct a.load.kernel.mmu a.physical) (c : UInt8)
    (hfit : a.offset + 1 ≤ PAGE_SIZE) : a.Fills (a.putChar L top c) 1 := by
  rw [Args.putChar, room_of_lt hfit]
  exact fills_write hdir _ hfit

theorem fills_putChars (cs : List UInt8) (hdir : Direct a.load.kernel.mmu a.physical)
    (hfit : a.offset + cs.length ≤ PAGE_SIZE) :
    a.Fills (cs.foldl (Args.putChar L top) a) cs.length := by
  induction cs generalizing a with
  | nil => exact .refl a
  | cons c cs ih =>
    rw [List.length_cons] at hfit ⊢
    have hfirst := @fills_putChar L top a hdir c (by omega)
    have hrest := @ih (a.putChar L top c) (by rw [hfirst.mmu, hfirst.physical]; exact hdir)
      (by rw [hfirst.offset]; omega)
    rw [Nat.add_comm]
    exact hfirst.trans hrest

theorem fills_align (a : Args) : a.Fills a.align ((8 - a.offset % 8) % 8) :=
  ⟨rfl, rfl, rfl, rfl, rfl, fun _ _ => rfl⟩

theorem fills_copyPointers {argsNew : Nat} (n i : Nat) (hdir : Direct a.load.kernel.mmu a.physical)
    (hfit : a.offset + 8 * n ≤ PAGE_SIZE) : a.Fills (a.copyPointers L top argsNew n i) (8 * n) := by
  induction n generalizing a i with
  | zero => exact .refl a
  | succ n ih =>
    rw [Args.copyPointers, room_of_lt (by omega)]
    have hfirst := fills_write hdir (a.load.kernel.load 8 (argsNew + 8 * i))
      (n := 8) (by omega : a.offset + 8 ≤ PAGE_SIZE)
    have hrest := @ih (a.write 8 (a.load.kernel.load 8 (argsNew + 8 * i))) (i + 1)
      (by rw [hfirst.mmu, hfirst.physical]; exact hdir) (by rw [hfirst.offset]; omega)
    rw [Nat.mul_succ, Nat.add_comm (8 * n)]
    exact hfirst.trans hrest

end Window

/-! ## 2. The saved pointers -/

/-- The `n` words of `args_new` and the window are apart, and both in the direct map. -/
structure Args.Apart (a : Args) (argsNew n : Nat) : Prop where
  window : Direct a.load.kernel.mmu a.physical
  saved : Direct a.load.kernel.mmu argsNew
  apart : argsNew + 8 * n ≤ a.physical ∨ a.physical + PAGE_SIZE ≤ argsNew

/-- The pointer that the source saves for the `j`-th string. -/
def savedPointer (a : Args) (args : List (List UInt8)) (j : Nat) : Nat :=
  (a.virtAddr + a.offset + stringsSize (args.take j)) % 2 ^ 64

/-- From `a` to `a'` strings were copied, and the pointers to them saved from the `i`-th word on. -/
structure Args.Copies (argsNew i : Nat) (args : List (List UInt8)) (a a' : Args) : Prop where
  physical : a'.physical = a.physical
  virt : a'.virtAddr = a.virtAddr
  offset : a'.offset = a.offset + stringsSize args
  satp : a'.load.kernel.satp = a.load.kernel.satp
  failed : a'.load.kernel.failed = a.load.kernel.failed
  saved : ∀ j, j < args.length →
    a'.load.kernel.load 8 (argsNew + 8 * (i + j)) = savedPointer a args j
  below : ∀ j, j < i →
    a'.load.kernel.load 8 (argsNew + 8 * j) = a.load.kernel.load 8 (argsNew + 8 * j)

section Saved

variable {L : Layout} {top argsNew : Nat} {a a' : Args} {n : Nat}

theorem Args.Apart.mono (h : a.Apart argsNew n) (hphys : a'.physical = a.physical)
    (hmmu : a'.load.kernel.mmu = a.load.kernel.mmu) : a'.Apart argsNew n := by
  refine ⟨?_, ?_, ?_⟩
  · rw [hmmu, hphys]
    exact h.window
  · rw [hmmu]
    exact h.saved
  · rw [hphys]
    exact h.apart

/-- What goes to the window leaves the saved pointers. -/
theorem Args.Fills.load (hf : a.Fills a' n) {m j : Nat} (h : a.Apart argsNew m) (hj : j < m) :
    a'.load.kernel.load 8 (argsNew + 8 * j) = a.load.kernel.load 8 (argsNew + 8 * j) := by
  have hapart := (h.saved.add (8 * j)).apart h.window (n := 8) (m := PAGE_SIZE)
    (by have := h.apart; omega)
  rw [Kernel.load, Kernel.load, hf.mmu]
  apply load_congr
  intro x h1 h2
  exact hf.frame x (by omega)

/-- **The strings**, where they fit in the window. -/
theorem copies_copyStrings {m : Nat} (args : List (List UInt8)) (i : Nat) (h : a.Apart argsNew m)
    (hm : i + args.length ≤ m) (hfit : a.offset + stringsSize args ≤ PAGE_SIZE) :
    a.Copies argsNew i args (a.copyStrings L top argsNew i args) := by
  induction args generalizing a i with
  | nil => exact ⟨rfl, rfl, rfl, rfl, rfl, fun _ hj => (nomatch hj), fun _ _ => rfl⟩
  | cons arg args ih =>
    rw [List.length_cons] at hm
    have hsize : stringsSize (arg :: args) = arg.length + 1 + stringsSize args := by
      simp [stringsSize]
    have hlength : (arg ++ [0]).length = arg.length + 1 := by simp
    rw [hsize] at hfit
    rw [Args.copyStrings]
    -- the pointer to this string
    generalize hv : (a.virtAddr + a.offset) % 2 ^ 64 = v
    have hset : (a.setArg argsNew i v).Apart argsNew m := h.mono rfl rfl
    have hword : (a.setArg argsNew i v).load.kernel.load 8 (argsNew + 8 * i) = v :=
      Kernel.load_store_same _ _ (by rw [← hv]; exact Nat.mod_lt _ (Nat.two_pow_pos 64))
    have hother : ∀ j, j < i → (a.setArg argsNew i v).load.kernel.load 8 (argsNew + 8 * j) =
        a.load.kernel.load 8 (argsNew + 8 * j) := by
      intro j hj
      apply Kernel.load_store_apart
      · exact h.saved.add _
      · exact h.saved.add _
      · omega
    -- its bytes, and then the other strings
    have hfill := @fills_putChars L top (a.setArg argsNew i v) (arg ++ [0]) hset.window
      (by rw [hlength]; exact (Nat.add_le_add_left (Nat.le_add_right _ _) _).trans hfit)
    rw [hlength] at hfill
    have hrest := ih (i + 1) (hset.mono hfill.physical hfill.mmu) (by omega)
      (by rw [hfill.offset]; exact le_of_eq_of_le (by simp only [Args.setArg]; omega) hfit)
    refine ⟨hrest.physical.trans hfill.physical, hrest.virt.trans hfill.virt, ?_,
      hrest.satp.trans hfill.satp, hrest.failed.trans hfill.failed, fun j hj => ?_,
      fun j hj => ?_⟩
    · rw [hrest.offset, hfill.offset, hsize]
      simp only [Args.setArg]
      omega
    · cases j with
      | zero =>
        have hbelow := hrest.below i (Nat.lt_succ_self i)
        rw [Nat.add_zero i, hbelow, hfill.load hset (by omega), hword, ← hv]
        simp [savedPointer, stringsSize]
      | succ j =>
        have hnext := hrest.saved j (Nat.lt_of_succ_lt_succ hj)
        have htake : stringsSize ((arg :: args).take (j + 1)) =
            arg.length + 1 + stringsSize (args.take j) := by
          simp [stringsSize]
        rw [Nat.add_assoc, Nat.add_comm 1 j] at hnext
        have hsum : a.virtAddr + (a.offset + (arg.length + 1)) + stringsSize (args.take j) =
            a.virtAddr + a.offset + (arg.length + 1 + stringsSize (args.take j)) := by
          omega
        rw [hnext, savedPointer, savedPointer, hfill.virt, hfill.offset, htake, ← hsum]
        rfl
    · rw [hrest.below j (by omega), hfill.load hset (by omega), hother j hj]

end Saved

/-! ## 3. The loops -/

/-- **The arguments in one page**, from the first window: nothing fails, `a1` is the address behind the
    strings on a word boundary, and `args_new` keeps the pointers. -/
theorem loadArgs_onePage {L : Layout} {top argsNew : Nat} {args : List (List UInt8)} {s : Load}
    (hfit : argumentsSize args ≤ PAGE_SIZE)
    (hapart : (Args.nextPage L top ⟨s, 0, 0, 0, s.maxPage⟩).Apart argsNew args.length) :
    let a := Args.nextPage L top ⟨s, 0, 0, 0, s.maxPage⟩
    let r := loadArgs L top argsNew args s
    r.1.load.kernel.satp = a.load.kernel.satp ∧ r.1.load.kernel.failed = a.load.kernel.failed ∧
      r.2 = (a.virtAddr + (stringsSize args + 7) / 8 * 8) % 2 ^ 64 ∧
      ∀ j, j < args.length → r.1.load.kernel.load 8 (argsNew + 8 * j) = savedPointer a args j := by
  dsimp only
  unfold loadArgs
  dsimp only
  have hzero : (Args.nextPage L top ⟨s, 0, 0, 0, s.maxPage⟩).offset = 0 :=
    nextPage_offset L top _
  generalize Args.nextPage L top ⟨s, 0, 0, 0, s.maxPage⟩ = a at *
  unfold argumentsSize at hfit
  have hstrings := @copies_copyStrings L top argsNew a _ args 0 hapart (Nat.zero_add _).le
    (by rw [hzero]; omega)
  have hoffset := hstrings.offset
  have halign := fills_align (a.copyStrings L top argsNew 0 args)
  have hmmu : (a.copyStrings L top argsNew 0 args).load.kernel.mmu = a.load.kernel.mmu := by
    rw [Kernel.mmu, hstrings.satp, Kernel.mmu]
  have hround := halign.offset
  have haligned : (a.copyStrings L top argsNew 0 args).align.offset =
      (stringsSize args + 7) / 8 * 8 := by
    omega
  have hapart' := hapart.mono (hstrings.physical) hmmu
  have hpointers := @fills_copyPointers L top (a.copyStrings L top argsNew 0 args).align argsNew
    args.length 0 hapart'.window (by rw [haligned]; omega)
  refine ⟨hpointers.satp.trans hstrings.satp, hpointers.failed.trans hstrings.failed, ?_,
    fun j hj => ?_⟩
  · rw [haligned, halign.virt, hstrings.virt]
  · have hsaved := hstrings.saved j hj
    rw [Nat.zero_add] at hsaved
    rw [(halign.trans hpointers).load hapart' hj, hsaved]

end IloPali
