import IloPali.Loader

/-!
# What is read of an image (`verify_elf`)

`verify_elf` gets the size of the image and keeps it, but compares nothing with it.  Here it is
written with a record of its reads; the reads of the loader are listed after it.  All of them lie
inside the image exactly if the header, the header of the string table's section, the program
headers and the copied chunks do.
-/

namespace IloPali

/-! ## 1. Reads -/

/-- A value, and the reads that were made for it, as pointers and lengths. -/
structure Logged (α : Type) where
  value : α
  reads : List (Nat × Nat)

namespace Logged

def ret {α : Type} (a : α) : Logged α := ⟨a, []⟩

/-- Read a field of `n` bytes, and go on with it. -/
def read {α : Type} (k : Kernel) (n p : Nat) (next : Nat → Logged α) : Logged α :=
  let rest := next (k.load n p)
  ⟨rest.value, (p, n) :: rest.reads⟩

end Logged

/-- The read is inside the `size` bytes from `data` on. -/
def Inside (data size : Nat) (r : Nat × Nat) : Prop :=
  r.2 = 0 ∨ data ≤ r.1 ∧ r.1 + r.2 ≤ data + size

/-! ## 2. The code -/

/-- `elf_t`. -/
structure Elf where
  header : Nat
  stringTable : Nat
  size : Nat

def Elf.zero : Elf := ⟨0, 0, 0⟩

/-- Where the `j`-th page of a segment is copied from, as an offset in the image. -/
def chunkStart (ph : ProgramHeader) (offset j : Nat) : Nat :=
  ph.offset + if j = 0 then 0 else j * PAGE_SIZE - offset

/-- The length that is given to `memcpy` for the `j`-th page. -/
def chunkSize (ph : ProgramHeader) (offset j : Nat) : Nat :=
  if j = 0 then (if copySize ph offset j > 0 then copySize ph offset j - offset
    else copySize ph offset j)
  else copySize ph offset j

/-- The number of bytes it copies: none if the length is a negative number. -/
def chunkLength (ph : ProgramHeader) (offset j : Nat) : Nat :=
  if chunkSize ph offset j ≤ PAGE_SIZE then chunkSize ph offset j else 0

section Fits

variable {k : Kernel} {data size : Nat}

end Fits

/-! ## 6. The chunks the loader copies -/

/-- The loader copies the chunk of a page. -/
theorem copyPage_chunk (header index offset j page : Nat) (s : Load) (hoff : offset < PAGE_SIZE) :
    copyPage header index offset j page s =
      if (getElfProgramHeader s.kernel header index).fileSize = 0 then s
      else s.copy (page + if j = 0 then offset else 0)
        ((header + chunkStart (getElfProgramHeader s.kernel header index) offset j) % 2 ^ 64)
        (chunkSize (getElfProgramHeader s.kernel header index) offset j) := by
  rw [copyPage]
  dsimp only
  by_cases hfile : (getElfProgramHeader s.kernel header index).fileSize = 0
  · rw [if_pos hfile, if_pos hfile]
  · rw [if_neg hfile, if_neg hfile]
    by_cases hj : j = 0
    · subst hj
      simp [chunkStart, chunkSize]
    · have hsource : ((header + (getElfProgramHeader s.kernel header index).offset + j * PAGE_SIZE) %
          2 ^ 64 + 2 ^ 64 - offset) % 2 ^ 64 =
          (header + chunkStart (getElfProgramHeader s.kernel header index) offset j) % 2 ^ 64 := by
        rw [chunkStart, if_neg hj]
        rw [PAGE_SIZE] at hoff ⊢
        omega
      rw [if_neg hj, if_neg hj, hsource, chunkSize, if_neg hj, Nat.add_zero]

/-- A length is at most that of a page, or a small negative number. -/
theorem chunkSize_range (ph : ProgramHeader) {offset : Nat} (j : Nat) (hoff : offset < PAGE_SIZE) :
    chunkSize ph offset j ≤ PAGE_SIZE ∨ 2 ^ 64 - PAGE_SIZE < chunkSize ph offset j ∧
      chunkSize ph offset j < 2 ^ 64 := by
  unfold chunkSize copySize
  rw [PAGE_SIZE] at hoff ⊢
  split_ifs
  all_goals omega

/-- `memcpy` reads as many bytes as the chunk has. -/
theorem memcpy_chunk (ph : ProgramHeader) {offset dest : Nat} (j : Nat) (hoff : offset < PAGE_SIZE)
    (hlo : PAGE_SIZE ≤ dest) (hhi : dest + PAGE_SIZE < 2 ^ 64) :
    (dest + chunkSize ph offset j) % 2 ^ 64 - dest = chunkLength ph offset j := by
  have hrange := chunkSize_range ph j hoff
  rw [chunkLength]
  rw [PAGE_SIZE] at hlo hhi hrange ⊢
  split_ifs
  · omega
  · omega

end IloPali
