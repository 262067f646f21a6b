import Mathlib.Data.List.Infix
import Mathlib.Tactic.Common

/-!
# Radix trees of linked tables

A table is a node `n : N` whose cells `cell n i` hold words.  A word may link
to another table (`child e = some n'`); following links from a root along a
list of indices reaches the table `nodeAt cell root π`.

Tables are updated in place, so an update is local only when no table is
reachable along two paths.  `Unshared` states that, up to a depth, and the two
main rules are stated under it: writing a cell disturbs only the paths through
that cell (`nodeAt_setCell`), and linking a fresh empty table adds exactly one
path (`nodeAt_link`).
-/

namespace RadixTree

variable {N I E : Type} (child : E → Option N)

/-- The table reached from `root` along `π`, when every link on the way exists. -/
def nodeAt (cell : N → I → E) (root : N) : List I → Option N
  | [] => some root
  | i :: π => (child (cell root i)).bind fun n => nodeAt cell n π

/-- Overwrite one cell of one table. -/
def setCell [DecidableEq N] [DecidableEq I] (cell : N → I → E) (n : N) (i : I) (e : E) : N → I → E :=
  fun n' i' => if n' = n ∧ i' = i then e else cell n' i'

/-- No table is reachable along two paths of length at most `d`. -/
def Unshared (cell : N → I → E) (root : N) (d : Nat) : Prop :=
  ∀ π π' n, π.length ≤ d → π'.length ≤ d →
    nodeAt child cell root π = some n → nodeAt child cell root π' = some n → π = π'

section SetCell

variable [DecidableEq N] [DecidableEq I] (cell : N → I → E) (n : N) (i : I) (e : E)

@[simp] theorem setCell_same : setCell cell n i e n i = e := by simp [setCell]

theorem setCell_other {n' : N} {i' : I} (h : ¬ (n' = n ∧ i' = i)) :
    setCell cell n i e n' i' = cell n' i' := if_neg h

end SetCell

/-! ## Walking a path -/

variable {child} {cell cell' : N → I → E} {root : N}

theorem nodeAt_append (π ρ : List I) :
    nodeAt child cell root (π ++ ρ) =
      (nodeAt child cell root π).bind fun n => nodeAt child cell n ρ := by
  induction π generalizing root with
  | nil => rfl
  | cons i π ih =>
    simp only [List.cons_append, nodeAt]
    cases child (cell root i) with
    | none => rfl
    | some n => simpa using ih

theorem nodeAt_snoc (π : List I) (i : I) :
    nodeAt child cell root (π ++ [i]) =
      (nodeAt child cell root π).bind fun n => child (cell n i) := by
  rw [nodeAt_append]
  congr 1
  funext n
  simp [nodeAt]

/-- A walk reads only the cells of the tables it passes through. -/
theorem nodeAt_congr {d : Nat}
    (h : ∀ π n i, π.length < d → nodeAt child cell root π = some n →
      child (cell' n i) = child (cell n i)) :
    ∀ π, π.length ≤ d → nodeAt child cell' root π = nodeAt child cell root π := by
  intro π
  induction π using List.reverseRecOn with
  | nil => exact fun _ => rfl
  | append_singleton π i ih =>
    intro hlen
    rw [List.length_append, List.length_singleton] at hlen
    rw [nodeAt_snoc, nodeAt_snoc, ih (by omega)]
    cases hn : nodeAt child cell root π with
    | none => rfl
    | some n => exact h π n i (by omega) hn

theorem Unshared.congr {d : Nat} (hU : Unshared child cell root d)
    (h : ∀ π, π.length ≤ d → nodeAt child cell' root π = nodeAt child cell root π) :
    Unshared child cell' root d := by
  intro π π' n hπ hπ' hn hn'
  rw [h π hπ] at hn
  rw [h π' hπ'] at hn'
  exact hU π π' n hπ hπ' hn hn'

/-! ## Writing a cell -/

variable [DecidableEq I]

/-- Linking a table that was not in the tree keeps the tree unshared. -/
theorem Unshared.link {d : Nat} (hU : Unshared child cell root d)
    {π : List I} {c : N} {i : I} {cell' : N → I → E}
    (hlink : ∀ ρ, ρ.length ≤ d → nodeAt child cell' root ρ =
      if ρ = π ++ [i] then some c else nodeAt child cell root ρ)
    (hfresh : ∀ ρ, ρ.length ≤ d → nodeAt child cell root ρ ≠ some c) :
    Unshared child cell' root d := by
  intro ρ ρ' m hρ hρ' hm hm'
  rw [hlink ρ hρ] at hm
  rw [hlink ρ' hρ'] at hm'
  by_cases h : ρ = π ++ [i] <;> by_cases h' : ρ' = π ++ [i]
  · rw [h, h']
  · rw [if_pos h, Option.some.injEq] at hm
    rw [if_neg h', ← hm] at hm'
    exact absurd hm' (hfresh ρ' hρ')
  · rw [if_pos h', Option.some.injEq] at hm'
    rw [if_neg h, ← hm'] at hm
    exact absurd hm (hfresh ρ hρ)
  · rw [if_neg h] at hm
    rw [if_neg h'] at hm'
    exact hU ρ ρ' m hρ hρ' hm hm'

variable [DecidableEq N]

/-- **Locality.**  In an unshared tree, writing cell `i` of the table at `π`
    leaves every walk that does not pass through that cell as it was. -/
theorem nodeAt_setCell {d : Nat} (hU : Unshared child cell root d)
    {π : List I} {n : N} {i : I} {e : E} (hπ : π.length ≤ d)
    (hn : nodeAt child cell root π = some n) :
    ∀ ρ, ρ.length ≤ d → ¬ (π ++ [i]) <+: ρ →
      nodeAt child (setCell cell n i e) root ρ = nodeAt child cell root ρ := by
  intro ρ
  induction ρ using List.reverseRecOn with
  | nil => exact fun _ _ => rfl
  | append_singleton ρ j ih =>
    intro hlen hpre
    rw [List.length_append, List.length_singleton] at hlen
    have hpre' : ¬ (π ++ [i]) <+: ρ := fun h => hpre (h.trans (List.prefix_append ρ [j]))
    rw [nodeAt_snoc, nodeAt_snoc, ih (by omega) hpre']
    cases hm : nodeAt child cell root ρ with
    | none => rfl
    | some m =>
      have hne : ¬ (m = n ∧ j = i) := by
        rintro ⟨rfl, rfl⟩
        have : π = ρ := hU π ρ m hπ (by omega) hn hm
        exact hpre (this ▸ List.prefix_rfl)
      simp only [Option.bind_some, setCell_other cell n i e hne]

/-- A cell of a table at full depth is on no walk, so writing it changes none. -/
theorem nodeAt_setCell_leaf {d : Nat} (hU : Unshared child cell root d)
    {π : List I} {n : N} {i : I} {e : E} (hπ : π.length = d)
    (hn : nodeAt child cell root π = some n) (ρ : List I) (hρ : ρ.length ≤ d) :
    nodeAt child (setCell cell n i e) root ρ = nodeAt child cell root ρ := by
  apply nodeAt_setCell hU hπ.le hn ρ hρ
  intro hpre
  have := hpre.length_le
  rw [List.length_append, List.length_singleton] at this
  omega

/-- **Linking.**  Making an empty cell point to a fresh table without links adds
    the path to that table and no other. -/
theorem nodeAt_link {d : Nat} (hU : Unshared child cell root d)
    {π : List I} {n c : N} {i : I} {e : E} (hπ : π.length < d)
    (hn : nodeAt child cell root π = some n) (hempty : child (cell n i) = none)
    (he : child e = some c) (hcn : c ≠ n) (hc : ∀ j, child (cell c j) = none) :
    ∀ ρ, ρ.length ≤ d → nodeAt child (setCell cell n i e) root ρ =
      if ρ = π ++ [i] then some c else nodeAt child cell root ρ := by
  intro ρ hρ
  by_cases hpre : (π ++ [i]) <+: ρ
  · obtain ⟨ω, rfl⟩ := hpre
    have hself : ¬ (π ++ [i]) <+: π := fun h => by
      have := h.length_le
      rw [List.length_append, List.length_singleton] at this
      omega
    have hnode : nodeAt child (setCell cell n i e) root (π ++ [i]) = some c := by
      rw [nodeAt_snoc, nodeAt_setCell hU hπ.le hn π hπ.le hself, hn]
      simp [he]
    have hold : nodeAt child cell root (π ++ [i]) = none := by
      rw [nodeAt_snoc, hn]
      simp [hempty]
    rw [nodeAt_append (π ++ [i]) ω, nodeAt_append (π ++ [i]) ω, hnode, hold]
    cases ω with
    | nil => simp [nodeAt]
    | cons j ω =>
      have hne : ¬ (c = n ∧ j = i) := fun h => hcn h.1
      simp [nodeAt, setCell_other cell n i e hne, hc j]
  · have hne : ρ ≠ π ++ [i] := fun h => hpre (h ▸ List.prefix_rfl)
    rw [if_neg hne, nodeAt_setCell hU hπ.le hn ρ hρ hpre]

end RadixTree
