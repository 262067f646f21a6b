import IloPali.Fdt
import IloPali.Lib.InOrder

/-!
# Paths in the device tree (`fdt_path`)

`fdt_path` looks for the names of a path one after the other, in document order.  Of the
tree it knows two numbers, how deep it is and how deep it should be, and it looks at
them only when a node ends.  This module says what the scan finds in any tree, and
from it exactly for which paths that is the node the path means.
-/

namespace IloPali

open ByteMemory InOrder

/-! ## 1. The code -/

/-- The character `/`. -/
def slash : UInt8 := 47

/-- The loop of `fdt_path` that compares one name of the path: how far it gets in both
    strings. -/
def matchComponent (m : Mem) : Nat → List UInt8 → Nat × List UInt8
  | c, [] => (c, [])
  | c, t :: tempName =>
    if m c ≠ 0 ∧ t ≠ slash then
      if m c ≠ t then (c, t :: tempName) else matchComponent m (c + 1) tempName
    else (c, t :: tempName)

/-- The main loop of `fdt_path`. -/
def pathLoop (m : Mem) : Nat → Nat → List UInt8 → Nat → Nat → Option Nat
  | 0, _, _, _, _ => none
  | fuel + 1, last, path, depth, intendedDepth =>
    let current := beToLe 32 m last
    if current = FDT_END then some 0
    else if current = FDT_BEGIN_NODE then
      let (c, tempName) := matchComponent m (last + 4) path
      if m c = 0 ∧ tempName = [] then some last
      else
        let matched := m c = 0 ∧ tempName.head? = some slash
        let intendedDepth := if matched then intendedDepth + 1 else intendedDepth
        let path := if matched then tempName.tail else path
        (skipString m fuel c).bind fun c =>
          pathLoop m fuel (floor4 (c + 3)) path (depth + 1) intendedDepth
    else if current = FDT_END_NODE then
      if depth - 1 < intendedDepth then some 0
      else pathLoop m fuel (last + 4) path (depth - 1) intendedDepth
    else if current = FDT_PROP then
      let len := beToLe 32 m (last + 4)
      pathLoop m fuel (floor4 (last + 12 + len + 3)) path depth intendedDepth
    else if current = FDT_NOP then pathLoop m fuel (last + 4) path depth intendedDepth
    else pathLoop m fuel last path depth intendedDepth

/-- `fdt_path`. -/
def fdtPath (fuel : Nat) (m : Mem) (structureBlock : Nat) (path : List UInt8) (last : Nat) :
    Option Nat :=
  if last = 0 ∨ path.head? = some slash then
    pathLoop m fuel structureBlock (if path.head? = some slash then path.tail else path) 1 1
  else (skipString m fuel (last + 4)).bind fun c => pathLoop m fuel (floor4 (c + 4)) path 1 1

/-! ## 2. Paths -/

/-- A path without its first slash. -/
def joinNames : List (List UInt8) → List UInt8
  | [] => []
  | n :: names => n ++ names.flatMap fun n => slash :: n

/-- The absolute path `/n1/n2/…`. -/
def pathString (names : List (List UInt8)) : List UInt8 := slash :: joinNames names

/-- A name that can be part of a path. -/
def PathName (n : List UInt8) : Prop := n ≠ [] ∧ slash ∉ n

instance (n : List UInt8) : Decidable (PathName n) :=
  inferInstanceAs (Decidable (n ≠ [] ∧ slash ∉ n))

/-- The nodes of a part of the tree in document order, each with its address and the chain
    of names that leads to it from the root. -/
def Items.nodes (chain : List (List UInt8)) : Items → Nat → List (Nat × List (List UInt8))
  | .nil, _ => []
  | .nop rest, a => rest.nodes chain (a + Token.nop.bytes.length)
  | .prop nameOff data rest, a => rest.nodes chain (a + (Token.prop nameOff data).bytes.length)
  | .node name items rest, a =>
    let inside := a + (Token.beginNode name).bytes.length
    let behind := inside + (items.tokens.flatMap Token.bytes).length
    (a, chain ++ [name]) :: items.nodes (chain ++ [name]) inside ++
      rest.nodes chain (behind + Token.endNode.bytes.length)

/-- All nodes of a tree; the chain of each begins with the empty name of the root. -/
def DeviceTree.nodes (d : DeviceTree) (structureBlock : Nat) : List (Nat × List (List UInt8)) :=
  let root := structureBlock + d.before * Token.nop.bytes.length
  (root, [[]]) :: d.items.nodes [[]] (root + (Token.beginNode []).bytes.length)

/-- The node that a path means: the first one with this chain of names, or `NULL`. -/
def DeviceTree.nodeAt (d : DeviceTree) (structureBlock : Nat) (names : List (List UInt8)) : Nat :=
  (((d.nodes structureBlock).find? fun node => node.2 = [] :: names).map Prod.fst).getD 0

/-- `fdt_path(fdt, path, NULL)` returns `result`: it does so with any fuel from some amount on. -/
def FdtPathFinds (m : Mem) (structureBlock : Nat) (path : List UInt8) (result : Nat) : Prop :=
  ∃ n, ∀ fuel, n ≤ fuel → fdtPath fuel m structureBlock path 0 = some result

/-! ## 3. When the scan follows a path -/

/-- The names of the nodes that begin in a part of the block. -/
def begun : List (Nat × Token) → List (List UInt8)
  | [] => []
  | (_, .beginNode n) :: ts => n :: begun ts
  | (_, .endNode) :: ts => begun ts
  | (_, .prop _ _) :: ts => begun ts
  | (_, .nop) :: ts => begun ts

/-- The depth behind a part of the block, where it is `d` before it. -/
def depthBehind : Nat → List (Nat × Token) → Nat
  | d, [] => d
  | d, (_, .beginNode _) :: ts => depthBehind (d + 1) ts
  | d, (_, .endNode) :: ts => depthBehind (d - 1) ts
  | d, (_, .prop _ _) :: ts => depthBehind d ts
  | d, (_, .nop) :: ts => depthBehind d ts

/-- In the part of the block a node ends, and at the depth behind it as many names of the
    path have begun in order. -/
def Abandoned (names : List (List UInt8)) (pre : List (Nat × Token)) : Prop :=
  ∃ pre' a post', pre = pre' ++ (a, Token.endNode) :: post' ∧
    (names.take (depthBehind 1 (pre' ++ [(a, .endNode)]))).Sublist (begun pre')

/-- The node `n` behind a part of the block is the first one at which all names of the path
    have begun in order. -/
def Completes (names : List (List UInt8)) (pre : List (Nat × Token)) (n : List UInt8) : Prop :=
  names.Sublist (begun pre ++ [n]) ∧ ¬ names.Sublist (begun pre)

/-- The scan does not lose its way to the node `e` that a path means: before `e` the names
    of the path have not begun in order, and the scan has not given up; or there is no
    such node, and the scan gives up before it takes another one for it. -/
structure PathClear (names : List (List UInt8)) (ts : List (Nat × Token)) (e : Nat) : Prop where
  found : ∀ pre n post, ts = pre ++ (e, .beginNode n) :: post →
    ¬ names.Sublist (begun pre) ∧ ¬ Abandoned names pre
  missing : e = 0 → ∀ pre a n post, ts = pre ++ (a, .beginNode n) :: post →
    Completes names pre n → Abandoned names pre

/-! ## 4. The scan over tokens -/

/-- A name of the path, and what follows it, compared with the name of a node. -/
theorem matchComponent_spec {m : Mem} {c : Nat} {node n rest : List UInt8}
    (hnode : ∀ b ∈ node, b ≠ 0) (h : HoldsBytes m c (node ++ [0])) (hn : slash ∉ n)
    (hrest : rest = [] ∨ rest.head? = some slash) :
    ∃ k, k ≤ node.length ∧ (matchComponent m c (n ++ rest)).1 = c + k ∧
      HoldsBytes m (c + k) (node.drop k ++ [0]) ∧
      (node = n → m (c + k) = 0 ∧ (matchComponent m c (n ++ rest)).2 = rest) ∧
      (node ≠ n → ¬ (m (c + k) = 0 ∧ ((matchComponent m c (n ++ rest)).2 = [] ∨
        (matchComponent m c (n ++ rest)).2.head? = some slash))) := by
  induction n generalizing c node with
  | nil =>
    have hstop : matchComponent m c rest = (c, rest) := by
      rcases hrest with rfl | hslash
      · rfl
      · obtain ⟨rest', rfl⟩ := List.head?_eq_some_iff.mp hslash
        rw [matchComponent, if_neg fun hcon => hcon.2 rfl]
    rw [List.nil_append, hstop]
    refine ⟨0, Nat.zero_le _, rfl, h, ?_, fun hne hcon => ?_⟩
    · rintro rfl
      exact ⟨h.1, rfl⟩
    · cases node with
      | nil => exact hne rfl
      | cons b node =>
        apply hnode b List.mem_cons_self
        rw [← h.1]
        exact hcon.1
  | cons t n ih =>
    have ht : t ≠ slash := fun hcon => hn (hcon ▸ List.mem_cons_self)
    have hn' : slash ∉ n := fun hcon => hn (List.mem_cons_of_mem t hcon)
    rw [List.cons_append, matchComponent]
    cases node with
    | nil =>
      refine ⟨0, le_refl _, ?_, h, fun hcon => (nomatch hcon), fun _ hcon => ?_⟩
      · rw [if_neg fun hcon => hcon.1 h.1]
        rfl
      · rw [if_neg fun hcon => hcon.1 h.1] at hcon
        rcases hcon.2 with hnil | hhead
        · exact List.cons_ne_nil _ _ hnil
        · exact ht (Option.some.inj hhead)
    | cons b node =>
      have hb : m c ≠ 0 := by
        rw [h.1]
        exact hnode b List.mem_cons_self
      rw [if_pos ⟨hb, ht⟩]
      by_cases hne : m c = t
      · rw [if_neg (not_not.mpr hne)]
        obtain ⟨k, hk, hpos, hheld, hsame, hother⟩ :=
          ih (fun b' hb' => hnode b' (List.mem_cons_of_mem b hb')) h.2 hn'
        have hadd : c + 1 + k = c + (k + 1) := by omega
        rw [hadd] at hpos hheld hsame hother
        refine ⟨k + 1, Nat.succ_le_succ hk, hpos, hheld, fun heq => ?_, fun hneq => hother ?_⟩
        · exact hsame (List.cons.inj heq).2
        · rintro rfl
          rw [← hne, h.1] at hneq
          exact hneq rfl
      · rw [if_pos hne]
        refine ⟨0, Nat.zero_le _, rfl, h, fun heq => ?_, fun _ hcon => hb hcon.1⟩
        rw [h.1] at hne
        exact absurd (List.cons.inj heq).1 hne

/-- `fdt_path` over tokens. -/
def pathScan : List (Nat × Token) → List (List UInt8) → Nat → Nat → Nat
  | [], _, _, _ => 0
  | (a, .beginNode n) :: ts, [], depth, intendedDepth =>
    if n = [] then a else pathScan ts [] (depth + 1) intendedDepth
  | (a, .beginNode n) :: ts, x :: names, depth, intendedDepth =>
    if n = x then
      if names = [] then a else pathScan ts names (depth + 1) (intendedDepth + 1)
    else pathScan ts (x :: names) (depth + 1) intendedDepth
  | (_, .endNode) :: ts, names, depth, intendedDepth =>
    if depth - 1 < intendedDepth then 0 else pathScan ts names (depth - 1) intendedDepth
  | (_, .prop _ _) :: ts, names, depth, intendedDepth => pathScan ts names depth intendedDepth
  | (_, .nop) :: ts, names, depth, intendedDepth => pathScan ts names depth intendedDepth

theorem joinNames_rest (names : List (List UInt8)) :
    (names.flatMap fun n => slash :: n) = [] ∨
      (names.flatMap fun n => slash :: n).head? = some slash := by
  cases names with
  | nil => exact Or.inl rfl
  | cons n names => exact Or.inr rfl

theorem joinNames_tail (n : List UInt8) (names : List (List UInt8)) :
    ((n :: names).flatMap fun n => slash :: n).tail = joinNames (n :: names) := rfl

/-- One turn of the loop at the beginning of a node. -/
theorem pathLoop_beginNode {m : Mem} {n : List UInt8} {names : List (List UInt8)}
    {a fuel depth intendedDepth : Nat} (ha : a % 4 = 0) (hn : ∀ b ∈ n, b ≠ 0)
    (hnames : ∀ n ∈ names, PathName n) (h : HoldsBytes m a (Token.beginNode n).bytes)
    (hfuel : (Token.beginNode n).bytes.length ≤ fuel) :
    pathLoop m (fuel + 1) a (joinNames names) depth intendedDepth =
      if n = names.headD [] then
        if names.tail = [] then some a
        else pathLoop m fuel (a + (Token.beginNode n).bytes.length) (joinNames names.tail)
          (depth + 1) (intendedDepth + 1)
      else pathLoop m fuel (a + (Token.beginNode n).bytes.length) (joinNames names) (depth + 1)
        intendedDepth := by
  obtain ⟨hword, hname⟩ := holds_beginNode h
  have hjoin : joinNames names = names.headD [] ++ names.tail.flatMap fun n => slash :: n := by
    cases names with
    | nil => rfl
    | cons x names => rfl
  have hslash : slash ∉ names.headD [] := by
    cases names with
    | nil => exact List.not_mem_nil
    | cons x names => exact (hnames x List.mem_cons_self).2
  obtain ⟨k, hk, hpos, hheld, hsame, hother⟩ :=
    matchComponent_spec hn hname hslash (joinNames_rest names.tail)
  rw [← hjoin] at hpos hsame hother
  have hlen := length_beginNode n
  obtain ⟨c, hc, hfloor⟩ :=
    Option.map_eq_some_iff.mp (skip_name fuel ha hn hk hheld (by omega))
  rw [pathLoop]
  dsimp only
  rw [hword, if_neg (by decide), if_pos rfl, hpos]
  by_cases heq : n = names.headD []
  · obtain ⟨hzero, htemp⟩ := hsame heq
    rw [if_pos heq, htemp]
    cases htail : names.tail with
    | nil => rw [if_pos ⟨hzero, rfl⟩, if_pos rfl]
    | cons x rest =>
      have hmatched : m (a + 4 + k) = 0 ∧
          ((x :: rest).flatMap fun n => slash :: n).head? = some slash := ⟨hzero, rfl⟩
      rw [if_neg fun hcon => List.cons_ne_nil _ _ hcon.2, if_neg (List.cons_ne_nil _ _),
        if_pos hmatched, if_pos hmatched, hc, Option.bind_some, hfloor, joinNames_tail]
  · have hno := hother heq
    rw [if_neg heq, if_neg fun hcon => hno ⟨hcon.1, Or.inl hcon.2⟩,
      if_neg fun hcon => hno ⟨hcon.1, Or.inr hcon.2⟩, if_neg fun hcon => hno ⟨hcon.1, Or.inr hcon.2⟩,
      hc, Option.bind_some, hfloor]

/-- One turn of the loop at any other token. -/
theorem pathLoop_other {m : Mem} {t : Token} {path : List UInt8}
    {a fuel depth intendedDepth : Nat} (ha : a % 4 = 0) (hvalid : t.Valid)
    (h : HoldsBytes m a t.bytes) (ht : ∀ n, t ≠ .beginNode n) :
    pathLoop m (fuel + 1) a path depth intendedDepth =
      if t = .endNode then
        if depth - 1 < intendedDepth then some 0
        else pathLoop m fuel (a + t.bytes.length) path (depth - 1) intendedDepth
      else pathLoop m fuel (a + t.bytes.length) path depth intendedDepth := by
  rw [pathLoop]
  dsimp only
  cases t with
  | beginNode n => exact absurd rfl (ht n)
  | endNode =>
    have hword : beToLe 32 m a = FDT_END_NODE := beToLe_be32Bytes (by decide) h
    rw [hword, if_neg (by decide), if_neg (by decide), if_pos rfl, if_pos rfl]
    rfl
  | prop nameOff data =>
    obtain ⟨hword, hdata⟩ := holds_prop hvalid h
    rw [hword, if_neg (by decide), if_neg (by decide), if_neg (by decide), if_pos rfl, hdata,
      floor4_padding (by omega), if_neg Token.noConfusion, length_prop, Nat.add_assoc]
  | nop =>
    have hword : beToLe 32 m a = FDT_NOP := beToLe_be32Bytes (by decide) h
    rw [hword, if_neg (by decide), if_neg (by decide), if_neg (by decide), if_neg (by decide),
      if_pos rfl, if_neg Token.noConfusion]
    rfl

theorem pathLoop_end {m : Mem} {a fuel depth intendedDepth : Nat} {path : List UInt8}
    (h : HoldsBytes m a (be32Bytes FDT_END)) :
    pathLoop m (fuel + 1) a path depth intendedDepth = some 0 := by
  rw [pathLoop]
  dsimp only
  rw [beToLe_be32Bytes (by decide) h, if_pos rfl]

/-- **The scan.**  The loop of `fdt_path` over a block is the scan over its tokens. -/
theorem pathLoop_spec {m : Mem} {ts : List Token} {names : List (List UInt8)}
    {a fuel depth intendedDepth : Nat} (ha : a % 4 = 0) (hvalid : ∀ t ∈ ts, t.Valid)
    (hnames : ∀ n ∈ names, PathName n) (h : HoldsBytes m a (blockBytes ts))
    (hfuel : (blockBytes ts).length < fuel) :
    pathLoop m fuel a (joinNames names) depth intendedDepth =
      some (pathScan (place a ts) names depth intendedDepth) := by
  induction ts generalizing a fuel names depth intendedDepth with
  | nil =>
    obtain ⟨fuel, rfl⟩ := Nat.exists_eq_succ_of_ne_zero (Nat.ne_of_gt (Nat.zero_lt_of_lt hfuel))
    exact pathLoop_end h
  | cons t ts ih =>
    obtain ⟨fuel, rfl⟩ := Nat.exists_eq_succ_of_ne_zero (Nat.ne_of_gt (Nat.zero_lt_of_lt hfuel))
    rw [blockBytes_cons, holdsBytes_append] at h
    rw [blockBytes_cons, List.length_append] at hfuel
    obtain ⟨hmod, hlen⟩ := length_token t
    have hvalid' : ∀ t' ∈ ts, t'.Valid := fun t' ht' => hvalid t' (List.mem_cons_of_mem t ht')
    have hstep : ∀ (names : List (List UInt8)) (depth intendedDepth : Nat),
        (∀ n ∈ names, PathName n) →
        pathLoop m fuel (a + t.bytes.length) (joinNames names) depth intendedDepth =
          some (pathScan (place (a + t.bytes.length) ts) names depth intendedDepth) :=
      fun names depth intendedDepth hnames => ih (by omega) hvalid' hnames h.2 (by omega)
    rw [place]
    cases t with
    | beginNode n =>
      rw [pathLoop_beginNode ha (hvalid _ List.mem_cons_self) hnames h.1 (by omega)]
      cases names with
      | nil =>
        rw [pathScan, List.headD_nil, List.tail_nil]
        by_cases hn : n = []
        · rw [if_pos hn, if_pos hn, if_pos rfl]
        · rw [if_neg hn, if_neg hn]
          exact hstep [] _ _ hnames
      | cons x names =>
        rw [pathScan, List.headD_cons, List.tail_cons]
        by_cases hn : n = x
        · rw [if_pos hn, if_pos hn]
          by_cases hnil : names = []
          · rw [if_pos hnil, if_pos hnil]
          · rw [if_neg hnil, if_neg hnil]
            exact hstep names _ _ fun n hn => hnames n (List.mem_cons_of_mem x hn)
        · rw [if_neg hn, if_neg hn]
          exact hstep (x :: names) _ _ hnames
    | endNode =>
      rw [pathLoop_other ha (hvalid _ List.mem_cons_self) h.1 fun _ => Token.noConfusion, if_pos rfl, pathScan]
      by_cases hd : depth - 1 < intendedDepth
      · rw [if_pos hd, if_pos hd]
      · rw [if_neg hd, if_neg hd]
        exact hstep names _ _ hnames
    | prop nameOff data =>
      rw [pathLoop_other ha (hvalid _ List.mem_cons_self) h.1 fun _ => Token.noConfusion,
        if_neg Token.noConfusion, pathScan]
      exact hstep names _ _ hnames
    | nop =>
      rw [pathLoop_other ha (hvalid _ List.mem_cons_self) h.1 fun _ => Token.noConfusion, if_neg Token.noConfusion,
        pathScan]
      exact hstep names _ _ hnames

/-! ## 5. What the scan finds -/

theorem begun_append (ts ts' : List (Nat × Token)) : begun (ts ++ ts') = begun ts ++ begun ts' := by
  induction ts with
  | nil => rfl
  | cons t ts ih =>
    obtain ⟨a, t⟩ := t
    cases t with
    | beginNode n => rw [List.cons_append, begun, begun, ih, List.cons_append]
    | endNode => exact ih
    | prop nameOff data => exact ih
    | nop => exact ih

theorem depthBehind_append (d : Nat) (ts ts' : List (Nat × Token)) :
    depthBehind d (ts ++ ts') = depthBehind (depthBehind d ts) ts' := by
  induction ts generalizing d with
  | nil => rfl
  | cons t ts ih =>
    obtain ⟨a, t⟩ := t
    cases t with
    | beginNode n => exact ih (d + 1)
    | endNode => exact ih (d - 1)
    | prop nameOff data => exact ih d
    | nop => exact ih d

theorem Abandoned.append {names : List (List UInt8)} {pre : List (Nat × Token)}
    (h : Abandoned names pre) (ts : List (Nat × Token)) : Abandoned names (pre ++ ts) := by
  obtain ⟨pre', a, post', rfl, hmet⟩ := h
  exact ⟨pre', a, post' ++ ts, by rw [List.append_assoc, List.cons_append], hmet⟩

/-- A part of the block is abandoned at its last token or before. -/
theorem abandoned_snoc {names : List (List UInt8)} {pre : List (Nat × Token)} {t : Nat × Token}
    (h : Abandoned names (pre ++ [t])) : Abandoned names pre ∨ ∃ a, t = (a, .endNode) ∧
      (names.take (depthBehind 1 (pre ++ [t]))).Sublist (begun pre) := by
  obtain ⟨pre', a, post', heq, hmet⟩ := h
  rcases List.eq_nil_or_concat' post' with rfl | ⟨mid, t', rfl⟩
  · obtain ⟨rfl, hlast⟩ := List.append_inj' heq rfl
    obtain rfl := (List.cons.inj hlast).1
    exact Or.inr ⟨a, rfl, hmet⟩
  · rw [← List.cons_append, ← List.append_assoc] at heq
    obtain ⟨rfl, _⟩ := List.append_inj' heq rfl
    exact Or.inl ⟨pre', a, mid, rfl, hmet⟩

/-- Behind the part `pre` of a block, the scan finds the node at `a` in `post`. -/
def HitFrom (names : List (List UInt8)) (pre post : List (Nat × Token)) (a : Nat) : Prop :=
  ∃ mid n post', post = mid ++ (a, .beginNode n) :: post' ∧ Completes names (pre ++ mid) n ∧
    ¬ Abandoned names (pre ++ mid)

theorem hitFrom_cons {names : List (List UInt8)} {pre post : List (Nat × Token)}
    {t : Nat × Token} {a : Nat}
    (hfirst : ∀ n, t = (a, .beginNode n) → ¬ Completes names pre n) :
    HitFrom names pre (t :: post) a ↔ HitFrom names (pre ++ [t]) post a := by
  constructor
  · rintro ⟨mid, n, post', heq, hcompletes, habandoned⟩
    cases mid with
    | nil =>
      rw [List.append_nil] at hcompletes
      exact absurd hcompletes (hfirst n (List.cons.inj heq).1)
    | cons t' mid =>
      obtain ⟨rfl, rfl⟩ := List.cons.inj heq
      rw [List.append_cons] at hcompletes habandoned
      exact ⟨mid, n, post', rfl, hcompletes, habandoned⟩
  · rintro ⟨mid, n, post', rfl, hcompletes, habandoned⟩
    rw [← List.append_cons] at hcompletes habandoned
    exact ⟨t :: mid, n, post', rfl, hcompletes, habandoned⟩

/-- The scan goes on from behind a part of the block: it returns the node it finds, if any. -/
def ScanFinds (names : List (List UInt8)) (pre post : List (Nat × Token)) (result : Nat) : Prop :=
  (∀ a, HitFrom names pre post a → result = a) ∧
    ((∀ a, ¬ HitFrom names pre post a) → result = 0)

/-- A token that does not complete the path can be stepped over. -/
theorem ScanFinds.cons {names : List (List UInt8)} {pre post : List (Nat × Token)} {a : Nat}
    {t : Token} {result : Nat} (h : ScanFinds names (pre ++ [(a, t)]) post result)
    (hno : ∀ n, t = .beginNode n → ¬ Completes names pre n) :
    ScanFinds names pre ((a, t) :: post) result := by
  have hiff : ∀ a', HitFrom names pre ((a, t) :: post) a' ↔
      HitFrom names (pre ++ [(a, t)]) post a' :=
    fun a' => hitFrom_cons fun n heq => hno n (Prod.mk.inj heq).2
  refine ⟨fun a' hhit => h.1 a' ((hiff a').mp hhit), fun hnone => h.2 fun a' hhit => ?_⟩
  exact hnone a' ((hiff a').mpr hhit)

/-- A token that completes the path is found. -/
theorem ScanFinds.here {names : List (List UInt8)} {pre post : List (Nat × Token)} {a : Nat}
    {n : List UInt8} (hcompletes : Completes names pre n) (hgoing : ¬ Abandoned names pre) :
    ScanFinds names pre ((a, .beginNode n) :: post) a := by
  have hhit : HitFrom names pre ((a, .beginNode n) :: post) a :=
    ⟨[], n, post, rfl, by rwa [List.append_nil], by rwa [List.append_nil]⟩
  refine ⟨fun a' hhit' => ?_, fun hnone => absurd hhit (hnone a)⟩
  obtain ⟨mid, n', post', heq, hcompletes', _⟩ := hhit'
  cases mid with
  | nil => exact (Prod.mk.inj (List.cons.inj heq).1).1
  | cons t' mid =>
    -- further on the path has been completed before
    obtain ⟨rfl, _⟩ := List.cons.inj heq
    exfalso
    apply hcompletes'.2
    rw [begun_append, begun]
    refine hcompletes.1.trans (List.Sublist.append (List.Sublist.refl _) ?_)
    exact List.singleton_sublist.mpr List.mem_cons_self

/-- Behind a token at which the scan gives up, nothing is found. -/
theorem ScanFinds.abandoned {names : List (List UInt8)} {pre post : List (Nat × Token)} {a : Nat}
    (h : Abandoned names (pre ++ [(a, .endNode)])) :
    ScanFinds names pre ((a, .endNode) :: post) 0 := by
  have hnone : ∀ a', ¬ HitFrom names pre ((a, .endNode) :: post) a' := by
    rintro a' ⟨mid, n, post', heq, _, hgoing⟩
    cases mid with
    | nil => exact Token.noConfusion (Prod.mk.inj (List.cons.inj heq).1).2
    | cons t' mid =>
      obtain ⟨rfl, _⟩ := List.cons.inj heq
      apply hgoing
      rw [List.append_cons]
      exact h.append mid
  exact ⟨fun a' hhit => absurd hhit (hnone a'), fun _ => rfl⟩

/-- Only the end of a node can make the scan give up. -/
theorem not_abandoned_snoc {names : List (List UInt8)} {pre : List (Nat × Token)} {a : Nat}
    {t : Token} (h : ¬ Abandoned names pre) (ht : t ≠ .endNode) :
    ¬ Abandoned names (pre ++ [(a, t)]) := by
  intro hcon
  rcases abandoned_snoc hcon with hold | ⟨_, hend, _⟩
  · exact h hold
  · exact ht (Prod.mk.inj hend).2

/-- **What the scan finds.**  With the first `d` names met in the part of the block that lies
    behind it, the scan returns the node that completes the path, unless it gives up. -/
theorem pathScan_finds {names : List (List UInt8)} (post pre : List (Nat × Token)) (d : Nat)
    (hd : d < names.length) (hmet : Met names (begun pre) d) (hgoing : ¬ Abandoned names pre) :
    ScanFinds names pre post (pathScan post (names.drop d) (depthBehind 1 pre) (1 + d)) := by
  induction post generalizing pre d with
  | nil =>
    refine ⟨fun a hhit => ?_, fun _ => rfl⟩
    obtain ⟨mid, n, post', heq, _⟩ := hhit
    exact absurd heq.symm (List.append_ne_nil_of_right_ne_nil _ (List.cons_ne_nil _ _))
  | cons t post ih =>
    obtain ⟨a, t⟩ := t
    have hdepth := depthBehind_append 1 pre [(a, t)]
    have hbegun := begun_append pre [(a, t)]
    have hdrop : names.drop d = names[d] :: names.drop (d + 1) := List.drop_eq_getElem_cons hd
    cases t with
    | beginNode n =>
      have hgoing' := not_abandoned_snoc (a := a) (t := .beginNode n) hgoing Token.noConfusion
      rw [hdrop, pathScan]
      by_cases hn : n = names[d]
      · have hmet' : Met names (begun (pre ++ [(a, .beginNode n)])) (d + 1) := by
          rw [hbegun, hn]
          exact hmet.hit hd
        rw [if_pos hn]
        by_cases hlast : names.drop (d + 1) = []
        · -- the last name
          rw [if_pos hlast]
          refine .here ⟨?_, fun hcon => ?_⟩ hgoing
          · have hle := List.drop_eq_nil_iff.mp hlast
            have hsub := (hmet' names.length (le_refl _)).mpr hle
            rwa [List.take_length, hbegun] at hsub
          · have hle := (hmet names.length (le_refl _)).mp (by rwa [List.take_length])
            omega
        · rw [if_neg hlast]
          have hd' : d + 1 < names.length := by
            by_contra hcon
            exact hlast (List.drop_eq_nil_iff.mpr (Nat.le_of_not_lt hcon))
          have hnext := ih (pre ++ [(a, .beginNode n)]) (d + 1) hd' hmet' hgoing'
          rw [hdepth, ← Nat.add_assoc] at hnext
          refine hnext.cons fun n' heq hcon => ?_
          obtain rfl := Token.beginNode.inj heq
          have hle := (hmet' names.length (le_refl _)).mp (by
            rw [List.take_length, hbegun]
            exact hcon.1)
          omega
      · have hmet' : Met names (begun (pre ++ [(a, .beginNode n)])) d := by
          rw [hbegun]
          exact hmet.miss fun _ heq => hn heq.symm
        have hnext := ih (pre ++ [(a, .beginNode n)]) d hd hmet' hgoing'
        rw [hdepth, hdrop] at hnext
        rw [if_neg hn]
        refine hnext.cons fun n' heq hcon => ?_
        obtain rfl := Token.beginNode.inj heq
        have hle := (hmet' names.length (le_refl _)).mp (by
          rw [List.take_length, hbegun]
          exact hcon.1)
        omega
    | endNode =>
      have hbehind : depthBehind 1 (pre ++ [(a, .endNode)]) = depthBehind 1 pre - 1 := hdepth
      have hsame : begun (pre ++ [(a, .endNode)]) = begun pre := by rw [hbegun, begun, begun, List.append_nil]
      rw [pathScan, ← hbehind]
      by_cases hshallow : depthBehind 1 (pre ++ [(a, .endNode)]) < 1 + d
      · rw [if_pos hshallow]
        refine .abandoned ⟨pre, a, [], rfl, ?_⟩
        exact (hmet _ (by omega)).mpr (by omega)
      · rw [if_neg hshallow]
        refine (ih (pre ++ [(a, .endNode)]) d hd (by rwa [hsame]) fun hcon => ?_).cons
          fun n heq => Token.noConfusion heq
        rcases abandoned_snoc hcon with hold | ⟨_, _, hsub⟩
        · exact hgoing hold
        · apply hshallow
          by_cases hlong : depthBehind 1 (pre ++ [(a, .endNode)]) ≤ names.length
          · have hle := (hmet _ hlong).mp hsub
            omega
          · rw [List.take_of_length_le (by omega)] at hsub
            have hle := (hmet names.length (le_refl _)).mp (by rwa [List.take_length])
            omega
    | prop nameOff data =>
      have hsame : begun (pre ++ [(a, .prop nameOff data)]) = begun pre := by
        rw [hbegun, begun, begun, List.append_nil]
      have hnext := ih (pre ++ [(a, .prop nameOff data)]) d hd (by rwa [hsame])
        (not_abandoned_snoc hgoing Token.noConfusion)
      rw [hdepth] at hnext
      exact hnext.cons fun n heq => Token.noConfusion heq
    | nop =>
      have hsame : begun (pre ++ [(a, .nop)]) = begun pre := by
        rw [hbegun, begun, begun, List.append_nil]
      have hnext := ih (pre ++ [(a, .nop)]) d hd (by rwa [hsame])
        (not_abandoned_snoc hgoing Token.noConfusion)
      rw [hdepth] at hnext
      exact hnext.cons fun n heq => Token.noConfusion heq

/-! ## 6. Where the nodes of a tree lie -/

theorem place_append (a : Nat) (ts ts' : List Token) :
    place a (ts ++ ts') = place a ts ++ place (a + (ts.flatMap Token.bytes).length) ts' := by
  induction ts generalizing a with
  | nil => rfl
  | cons t ts ih =>
    rw [List.cons_append, place, place, ih, List.flatMap_cons, List.length_append, Nat.add_assoc,
      List.cons_append]

/-- A node lies in the block, and the names of its chain begin in order up to it. -/
def LiesIn (chain : List (List UInt8)) (ts : List (Nat × Token))
    (node : Nat × List (List UInt8)) : Prop :=
  ∃ pre n post, ts = pre ++ (node.1, .beginNode n) :: post ∧
    node.2.Sublist (chain ++ (begun pre ++ [n]))

theorem LiesIn.append_right {chain : List (List UInt8)} {ts : List (Nat × Token)}
    {node : Nat × List (List UInt8)} (h : LiesIn chain ts node) (ts' : List (Nat × Token)) :
    LiesIn chain (ts ++ ts') node := by
  obtain ⟨pre, n, post, rfl, hsub⟩ := h
  exact ⟨pre, n, post ++ ts', by rw [List.append_assoc, List.cons_append], hsub⟩

theorem LiesIn.append_left {chain : List (List UInt8)} {ts : List (Nat × Token)}
    {node : Nat × List (List UInt8)} (h : LiesIn chain ts node) (ts' : List (Nat × Token)) :
    LiesIn chain (ts' ++ ts) node := by
  obtain ⟨pre, n, post, rfl, hsub⟩ := h
  refine ⟨ts' ++ pre, n, post, (List.append_assoc _ _ _).symm, hsub.trans ?_⟩
  refine List.Sublist.append (List.Sublist.refl chain) ?_
  rw [begun_append]
  exact List.Sublist.append (List.sublist_append_right _ _) (List.Sublist.refl [n])

/-- What lies in a node lies in what begins with the node. -/
theorem LiesIn.under {chain : List (List UInt8)} {name : List UInt8} {ts : List (Nat × Token)}
    {node : Nat × List (List UInt8)} (h : LiesIn (chain ++ [name]) ts node) (a : Nat) :
    LiesIn chain ((a, .beginNode name) :: ts) node := by
  obtain ⟨pre, n, post, rfl, hsub⟩ := h
  rw [List.append_assoc] at hsub
  exact ⟨(a, .beginNode name) :: pre, n, post, rfl, hsub⟩

theorem Items.nodes_lie (chain : List (List UInt8)) (items : Items) (a : Nat) :
    ∀ node ∈ items.nodes chain a, LiesIn chain (place a items.tokens) node := by
  induction items generalizing chain a with
  | nil => exact fun _ hmem => (nomatch hmem)
  | nop rest ih =>
    exact fun node hmem => (ih chain _ node hmem).append_left [(a, .nop)]
  | prop nameOff data rest ih =>
    exact fun node hmem => (ih chain _ node hmem).append_left [(a, .prop nameOff data)]
  | node name items rest ihItems ihRest =>
    intro node hmem
    rw [Items.nodes, List.cons_append, List.mem_cons, List.mem_append] at hmem
    rw [Items.tokens, List.cons_append, place, place_append, place]
    rcases hmem with rfl | hmem | hmem
    · exact ⟨[], name, _, rfl, List.Sublist.refl _⟩
    · exact ((ihItems (chain ++ [name]) _ node hmem).append_right _).under a
    · exact (((ihRest chain _ node hmem).append_left [(_, .endNode)]).append_left _).append_left
        [(a, .beginNode name)]

theorem DeviceTree.nodes_lie (d : DeviceTree) (structureBlock : Nat) :
    ∀ node ∈ d.nodes structureBlock, LiesIn [] (place structureBlock d.tokens) node := by
  intro node hmem
  rw [DeviceTree.tokens, List.append_assoc, place_append, length_nops, List.cons_append, place,
    place_append]
  rcases List.mem_cons.mp hmem with rfl | hmem
  · exact ⟨_, [], _, rfl, List.sublist_append_right _ _⟩
  · exact (((Items.nodes_lie ([] ++ [[]]) d.items _ node hmem).append_right _).under _).append_left _

/-- A token is found by its address. -/
theorem place_split_unique {a e : Nat} {ts : List Token} {pre pre' post post' : List (Nat × Token)}
    {t t' : Token} (h : place a ts = pre ++ (e, t) :: post)
    (h' : place a ts = pre' ++ (e, t') :: post') : pre = pre' ∧ t = t' := by
  have hpair := (place_sorted a ts).2
  generalize place a ts = L at h h' hpair
  subst h
  induction pre generalizing pre' with
  | nil =>
    cases pre' with
    | nil => exact ⟨rfl, (Prod.mk.inj (List.cons.inj h').1).2⟩
    | cons p pre' =>
      obtain ⟨rfl, rfl⟩ := List.cons.inj h'
      have hlt := (List.pairwise_cons.mp hpair).1 (e, t')
        (List.mem_append_right _ List.mem_cons_self)
      exact absurd hlt (Nat.lt_irrefl e)
  | cons p pre ih =>
    cases pre' with
    | nil =>
      obtain ⟨rfl, rfl⟩ := List.cons.inj h'
      have hlt := (List.pairwise_cons.mp hpair).1 (e, t)
        (List.mem_append_right _ List.mem_cons_self)
      exact absurd hlt (Nat.lt_irrefl e)
    | cons p' pre' =>
      obtain ⟨rfl, hrest⟩ := List.cons.inj h'
      obtain ⟨rfl, ht⟩ := ih hrest (List.pairwise_cons.mp hpair).2
      exact ⟨rfl, ht⟩

/-! ## 7. Paths -/

theorem pathScan_nops (a k : Nat) (ts : List Token) (names : List (List UInt8))
    (depth intendedDepth : Nat) :
    pathScan (place a (List.replicate k .nop ++ ts)) names depth intendedDepth =
      pathScan (place (a + k * Token.nop.bytes.length) ts) names depth intendedDepth := by
  induction k generalizing a with
  | zero => rw [Nat.zero_mul, Nat.add_zero, List.replicate_zero, List.nil_append]
  | succ k ih =>
    rw [List.replicate_succ, List.cons_append, place, pathScan, ih, Nat.succ_mul, Nat.add_assoc,
      Nat.add_comm (k * _)]

/-- The call returns what the scan over the tokens returns. -/
theorem fdtPathFinds_iff {m : Mem} {structureBlock : Nat} {ts : List Token}
    {names : List (List UInt8)} (haligned : structureBlock % 4 = 0) (hvalid : ∀ t ∈ ts, t.Valid)
    (hblock : HoldsBytes m structureBlock (blockBytes ts)) (hnames : ∀ n ∈ names, PathName n)
    (result : Nat) : FdtPathFinds m structureBlock (pathString names) result ↔
      pathScan (place structureBlock ts) names 1 1 = result := by
  have hcall : ∀ fuel, (blockBytes ts).length < fuel →
      fdtPath fuel m structureBlock (pathString names) 0 =
        some (pathScan (place structureBlock ts) names 1 1) := by
    intro fuel hfuel
    rw [fdtPath, if_pos (Or.inl rfl), pathString, List.head?_cons, if_pos rfl, List.tail_cons]
    exact pathLoop_spec haligned hvalid hnames hblock hfuel
  constructor
  · rintro ⟨n, hn⟩
    have hresult := hn _ (Nat.le_max_left n ((blockBytes ts).length + 1))
    rw [hcall _ (Nat.le_max_right n _)] at hresult
    exact Option.some.inj hresult
  · rintro rfl
    exact ⟨_, hcall⟩

/-- A node with the chain of a path completes it. -/
theorem nodeAt_cases (d : DeviceTree) (structureBlock : Nat) (names : List (List UInt8)) :
    d.nodeAt structureBlock names = 0 ∨ ∃ pre n post, place structureBlock d.tokens =
      pre ++ (d.nodeAt structureBlock names, .beginNode n) :: post ∧
        names.Sublist (begun pre ++ [n]) := by
  unfold DeviceTree.nodeAt
  cases hfind : (d.nodes structureBlock).find? fun node => node.2 = [] :: names with
  | none => exact Or.inl rfl
  | some node =>
    right
    have hchain : node.2 = [] :: names :=
      of_decide_eq_true (List.find?_some (p := fun node : Nat × List (List UInt8) =>
        decide (node.2 = [] :: names)) hfind)
    obtain ⟨pre, n, post, heq, hsub⟩ :=
      d.nodes_lie structureBlock node (List.mem_of_find?_eq_some hfind)
    rw [hchain, List.nil_append] at hsub
    exact ⟨pre, n, post, heq, (List.sublist_cons_self [] names).trans hsub⟩

/-- **Paths.**  `fdt_path` returns the node that an absolute path means exactly when the path
    is that of the root or the scan does not lose its way. -/
theorem fdt_path_iff (d : DeviceTree) (m : Mem) (structureBlock : Nat) (names : List (List UInt8))
    (haligned : structureBlock % 4 = 0) (hpos : 0 < structureBlock)
    (hvalid : ∀ t ∈ d.tokens, t.Valid)
    (hblock : HoldsBytes m structureBlock (blockBytes d.tokens))
    (hnames : ∀ n ∈ names, PathName n) :
    FdtPathFinds m structureBlock (pathString names) (d.nodeAt structureBlock names) ↔
      (names = [] ∨
        PathClear names (place structureBlock d.tokens) (d.nodeAt structureBlock names)) := by
  rw [fdtPathFinds_iff haligned hvalid hblock hnames]
  by_cases hnil : names = []
  · -- the root is the first node
    subst hnil
    refine ⟨fun _ => Or.inl rfl, fun _ => ?_⟩
    rw [DeviceTree.tokens, List.append_assoc, pathScan_nops, List.cons_append, place, pathScan, if_pos rfl]
    rfl
  · have hscan := pathScan_finds (place structureBlock d.tokens) [] 0
      (List.length_pos_iff.mpr hnil) (Met.nil names) (by
        rintro ⟨pre', a, post', heq, _⟩
        exact absurd heq.symm (List.append_ne_nil_of_right_ne_nil _ (List.cons_ne_nil _ _)))
    rw [List.drop_zero, depthBehind, Nat.add_zero] at hscan
    have hnode := nodeAt_cases d structureBlock names
    have haddr : ∀ pre a t post, place structureBlock d.tokens = pre ++ (a, t) :: post → a ≠ 0 := by
      intro pre a t post heq hzero
      have hle := (place_sorted structureBlock d.tokens).1 (a, t) (by
        rw [heq]
        exact List.mem_append_right _ List.mem_cons_self)
      have hle' : structureBlock ≤ a := hle
      omega
    generalize d.nodeAt structureBlock names = e at hnode ⊢
    generalize hL : place structureBlock d.tokens = L at hscan hnode haddr ⊢
    obtain ⟨hfound, hnone⟩ := hscan
    constructor
    · intro hresult
      rw [hresult] at hfound hnone
      refine Or.inr ⟨fun pre n post heq => ?_, fun hzero pre a n post heq hcompletes => ?_⟩
      · -- the scan found a node, and it can only have been this one
        have hhit : HitFrom names [] L e := by
          by_contra hno
          refine haddr pre e _ post heq (hnone fun a hhit => ?_)
          rw [← hfound a hhit] at hhit
          exact hno hhit
        obtain ⟨mid, n', post', heq', hcompletes, hgoing⟩ := hhit
        obtain ⟨rfl, _⟩ := place_split_unique (hL.trans heq) (hL.trans heq')
        exact ⟨hcompletes.2, hgoing⟩
      · by_contra hgoing
        have hhit : HitFrom names [] L a := ⟨pre, n, post, heq, hcompletes, hgoing⟩
        exact haddr pre a _ post heq ((hfound a hhit).symm.trans hzero)
    · rintro (hcon | hclear)
      · exact absurd hcon hnil
      · rcases hnode with rfl | ⟨pre, n, post, heq, hsub⟩
        · apply hnone
          rintro a ⟨mid, n, post', heq, hcompletes, hgoing⟩
          exact hgoing (hclear.missing rfl mid a n post' heq hcompletes)
        · obtain ⟨hfirst, hgoing⟩ := hclear.found pre n post heq
          exact hfound e ⟨pre, n, post, heq, ⟨hsub, hfirst⟩, hgoing⟩

/-- Before the first end of a node nothing is given up. -/
theorem not_abandoned_of_no_end {names : List (List UInt8)} {pre : List (Nat × Token)}
    (h : ∀ p ∈ pre, p.2 ≠ .endNode) : ¬ Abandoned names pre := by
  rintro ⟨pre', a, post', rfl, _⟩
  exact h (a, .endNode) (List.mem_append_right _ List.mem_cons_self) rfl

/-- The path `/cpus/cpu@0`. -/
def cpu0Path : List (List UInt8) := [[99, 112, 117, 115], [99, 112, 117, 64, 48]]

theorem cpu0Path_clear :
    PathClear cpu0Path (place 64 cpusTree.tokens) (cpusTree.nodeAt 64 cpu0Path) where
  found := by
    intro pre n post heq
    have haddr : cpusTree.nodeAt 64 cpu0Path = 84 := by decide +kernel
    rw [haddr] at heq
    have hsplit : place 64 cpusTree.tokens =
        [(64, .beginNode []), (72, .beginNode [99, 112, 117, 115])] ++
          (84, .beginNode [99, 112, 117, 64, 48]) :: (place 64 cpusTree.tokens).drop 3 := by
      decide +kernel
    obtain ⟨rfl, _⟩ := place_split_unique heq hsplit
    exact ⟨by decide, not_abandoned_of_no_end (by decide)⟩
  missing := fun hzero => absurd hzero (by decide +kernel)

theorem fdt_path_cpu0 : FdtPathFinds (ofBytes 64 (blockBytes cpusTree.tokens)) 64
    (pathString cpu0Path) (cpusTree.nodeAt 64 cpu0Path) :=
  (fdt_path_iff cpusTree (ofBytes 64 (blockBytes cpusTree.tokens)) 64 cpu0Path (by decide)
    (by decide) (by decide +kernel) (ofBytes_holds _ _) (by decide)).mpr (Or.inr cpu0Path_clear)

/-- A tree with a single path `/x/a`. -/
def nestedTree : DeviceTree where
  before := 0
  items := .node [120] (.node [97] .nil .nil) .nil
  behind := 0

/-- The path `/a` means no node of that tree, and `fdt_path` finds `/x/a`. -/
theorem fdt_path_nested : nestedTree.nodeAt 64 [[97]] = 0 ∧
    FdtPathFinds (ofBytes 64 (blockBytes nestedTree.tokens)) 64 (pathString [[97]]) 80 ∧
    ¬ FdtPathFinds (ofBytes 64 (blockBytes nestedTree.tokens)) 64 (pathString [[97]])
      (nestedTree.nodeAt 64 [[97]]) := by
  have hscan := @fdtPathFinds_iff _ _ _ [[97]] (by decide : 64 % 4 = 0)
    (by decide +kernel : ∀ t ∈ nestedTree.tokens, t.Valid) (ofBytes_holds 64 _) (by decide)
  refine ⟨by decide +kernel, (hscan 80).mpr (by decide +kernel), fun hcon => ?_⟩
  exact absurd ((hscan _).mp hcon) (by decide +kernel)

end IloPali
