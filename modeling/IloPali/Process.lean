import IloPali.Interrupt

/-!
# The task table (`process.c`)

The two ends of `spawn_task_from_elf`: the search for a free slot of the task
table, and the fields it fills in once the program is in memory.
-/

namespace IloPali

/-! ## 1. The code -/

/-- The loop over `pid`, `n` slots from `pid`. -/
def freeSlotLoop (s : System) : Nat → Nat → Nat
  | 0, pid => pid
  | n + 1, pid => if (s.tasks pid).state ≠ .dead then freeSlotLoop s n (pid + 1) else pid

/-- The slot the new task gets, if there is one. -/
def freeSlot (s : System) : Option Nat :=
  let pid := freeSlotLoop s s.maxPid.toNat 0
  if pid = s.maxPid.toNat then none else some pid

/-- What the rest of `spawn_task_from_elf` found out about the program. -/
structure Loaded where
  top : Nat
  entry : Word
  sp : Word
  argc : Word
  argv : Word

/-- The fields of the task, and `schedule_task`. -/
def installTask (s : System) (pid : Nat) (p : Loaded) : System :=
  let t := s.tasks pid
  let xs := Function.update (Function.update (Function.update (Function.update t.trap.xs
    2 p.sp) 8 p.sp) 10 p.argc) 11 p.argv
  scheduleTask pid (s.setTask pid
    { t with
      pid := pid
      state := .ready
      mmuData := p.top
      trap := { t.trap with pid := pid, xs := xs, pc := p.entry } })

/-! ## 2. The slot that is found -/

theorem freeSlotLoop_spec (s : System) (n pid : Nat) :
    pid ≤ freeSlotLoop s n pid ∧ freeSlotLoop s n pid ≤ pid + n ∧
      (∀ i, pid ≤ i → i < freeSlotLoop s n pid → (s.tasks i).state ≠ .dead) ∧
      (freeSlotLoop s n pid < pid + n → (s.tasks (freeSlotLoop s n pid)).state = .dead) := by
  induction n generalizing pid with
  | zero => exact ⟨le_refl _, le_refl _, fun i h1 h2 => absurd h1 (Nat.not_le.mpr h2),
      fun h => absurd h (lt_irrefl _)⟩
  | succ n ih =>
    rw [freeSlotLoop]
    by_cases hdead : (s.tasks pid).state = .dead
    · rw [if_neg (fun h => h hdead)]
      exact ⟨le_refl _, Nat.le_add_right _ _, fun i h1 h2 => absurd h1 (Nat.not_le.mpr h2),
        fun _ => hdead⟩
    · rw [if_pos hdead]
      obtain ⟨h1, h2, h3, h4⟩ := ih (pid + 1)
      refine ⟨by omega, by omega, fun i hi hlt => ?_, fun hlt => h4 (by omega)⟩
      rcases Nat.eq_or_lt_of_le hi with rfl | hi
      · exact hdead
      · exact h3 i hi hlt

/-- **The slot** is the first dead one of the table. -/
theorem freeSlot_spec {s : System} {pid : Nat} (h : freeSlot s = some pid) :
    (pid : Int) < s.maxPid ∧ (s.tasks pid).state = .dead ∧
      ∀ i, i < pid → (s.tasks i).state ≠ .dead := by
  rw [freeSlot] at h
  obtain ⟨_, h2, h3, h4⟩ := freeSlotLoop_spec s s.maxPid.toNat 0
  split at h
  · exact nomatch h
  · rw [Option.some.injEq] at h
    subst h
    exact ⟨by omega, h4 (by omega), fun i hi => h3 i (Nat.zero_le i) hi⟩

end IloPali
