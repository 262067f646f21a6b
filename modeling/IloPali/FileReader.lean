import IloPali.FatDirectory
import IloPali.FatVolume
import IloPali.HeapRequests

/-!
# Reading a file (`read_file_full`)

The clusters of a file are copied one after the other, always whole, into a buffer that
`malloc` was asked for with the size of the file.  So the last copy stays inside only if the
size of the file is a multiple of the size of a cluster; and the last cluster of the volume is
never found.
-/

namespace IloPali

open ByteMemory

/-! ## 1. What a file is -/

/-- The `n` bytes behind a pointer. -/
def bytesAt (k : Kernel) (p n : Nat) : List UInt8 := (List.range n).map fun j => k.byte (p + j)

/-- Where a cluster of the volume is. -/
def Fat16Fs.clusterAt (fs : Fat16Fs) (clusterId : Nat) : Nat :=
  (fs.data + (clusterId - 2) * fs.clusterSize) % 2 ^ 64

/-- `chain` are the clusters of the file: each is linked to the next one, the last one to an
    end-of-chain mark, and they are as many as the size of the file takes. -/
structure FileChain (k : Kernel) (fs : Fat16Fs) (entry : Nat) (chain : List Nat) : Prop where
  first : chain.head? = some (k.firstClusterLow entry)
  links : chain.IsChain fun id next => fatEntry k fs id = next
  last : ∀ id ∈ chain.getLast?, 0xfff8 ≤ fatEntry k fs id
  ids : ∀ id ∈ chain, 2 ≤ id ∧ id ≤ fs.clusterCount + 1
  acyclic : chain.Nodup
  count : chain.length = (k.fileSize entry + fs.clusterSize - 1) / fs.clusterSize

/-- The clusters one after the other, up to the size of the file. -/
def contents (k : Kernel) (fs : Fat16Fs) (entry : Nat) (chain : List Nat) : List UInt8 :=
  (chain.flatMap fun id => bytesAt k (fs.clusterAt id) fs.clusterSize).take (k.fileSize entry)

/-- The file is in the buffer, its size in `*size_ptr`, and all copies are inside the bytes that
    `malloc` was asked for. -/
structure ReadsFile (k : Kernel) (fs : Fat16Fs) (entry : Nat) (chain : List Nat) (r : FileRead) :
    Prop where
  returned : r.data ≠ 0
  contents : bytesAt r.heap.kernel r.data (k.fileSize entry) = contents k fs entry chain
  size : r.size = some (k.fileSize entry)
  inside : ∀ c ∈ r.copied, ∀ j, j < c.2 →
    r.data ≤ c.1 + j ∧ c.1 + j < r.data + k.fileSize entry

/-- The bytes of the image that are read once the buffer is there. -/
def FileByte (k : Kernel) (fs : Fat16Fs) (entry : Nat) (chain : List Nat) (x : Nat) : Prop :=
  (physOf k.mmu (entry + 26) ≤ x ∧ x < physOf k.mmu (entry + 26) + 2) ∨
  (physOf k.mmu (entry + 28) ≤ x ∧ x < physOf k.mmu (entry + 28) + 4) ∨
  ∃ id ∈ chain,
    (physOf k.mmu (fs.fat + 2 * id) ≤ x ∧ x < physOf k.mmu (fs.fat + 2 * id) + 2) ∨
    ∃ j, j < fs.clusterSize ∧ x = physOf k.mmu (getFatClusterData fs id + j)

/-- What `malloc` returned is a buffer, and no byte of the image is in it or was changed. -/
structure FreshBuffer (k : Kernel) (fs : Fat16Fs) (entry : Nat) (chain : List Nat)
    (r : Nat × Heap) : Prop where
  ne_null : r.1 ≠ 0
  direct : Direct k.mmu r.1
  room : r.1 + chain.length * fs.clusterSize < 2 ^ 64
  keeps : ∀ x, FileByte k fs entry chain x → r.2.kernel.mem x = k.mem x
  apart : ∀ x, FileByte k fs entry chain x →
    x < physOf k.mmu r.1 ∨ physOf k.mmu r.1 + k.fileSize entry ≤ x

/-- `get_fat_cluster_data` returns a pointer to the bytes of the cluster. -/
def Locates (k : Kernel) (fs : Fat16Fs) (id : Nat) : Prop :=
  getFatClusterData fs id ≠ 0 ∧
    ∀ j, j < fs.clusterSize → k.byte (getFatClusterData fs id + j) = k.byte (fs.clusterAt id + j)

/-- A cluster of the file is not found, but what is missing from there on is already in the
    buffer. -/
def AlreadyThere (k : Kernel) (fs : Fat16Fs) (entry : Nat) (chain : List Nat) (r : Nat × Heap) :
    Prop :=
  ∃ m id, chain[m]? = some id ∧ getFatClusterData fs id = 0 ∧
    (∀ id' ∈ chain.take m, Locates k fs id') ∧
    ∀ t, m * fs.clusterSize ≤ t → t < k.fileSize entry →
      some (r.2.kernel.byte (r.1 + t)) = (contents k fs entry chain)[t]?

/-! ## 2. The contents, byte by byte -/

theorem bytesAt_length (k : Kernel) (p n : Nat) : (bytesAt k p n).length = n := by
  simp [bytesAt]

theorem bytesAt_getElem? (k : Kernel) (p : Nat) {n t : Nat} (ht : t < n) :
    (bytesAt k p n)[t]? = some (k.byte (p + t)) := by
  simp [bytesAt, ht]

/-- The element of a concatenation of blocks of one length. -/
theorem getElem?_flatMap_blocks {α β : Type} {f : α → List β} {n : Nat} (hn : 0 < n)
    (hf : ∀ a, (f a).length = n) (as : List α) (t : Nat) :
    (as.flatMap f)[t]? = as[t / n]?.bind fun a => (f a)[t % n]? := by
  induction as generalizing t with
  | nil => simp
  | cons a as ih =>
    rw [List.flatMap_cons]
    by_cases ht : t < n
    · rw [List.getElem?_append_left (by rwa [hf]), Nat.div_eq_of_lt ht, Nat.mod_eq_of_lt ht]
      simp
    · have hle : n ≤ t := Nat.le_of_not_lt ht
      rw [List.getElem?_append_right (by rwa [hf]), hf, ih, Nat.mod_eq_sub_mod hle,
        Nat.div_eq_sub_div hn hle]
      simp

theorem ceil_bounds {a b n : Nat} (hb : 0 < b) (h : n = (a + b - 1) / b) : a ≤ n * b ∧ n * b < a + b := by
  have h1 := Nat.div_add_mod (a + b - 1) b
  have h2 := Nat.mod_lt (a + b - 1) hb
  rw [← h, Nat.mul_comm] at h1
  omega

section Chain

variable {k : Kernel} {fs : Fat16Fs} {entry : Nat} {chain : List Nat}

theorem FileChain.size_pos (h : FileChain k fs entry chain) : 0 < fs.clusterSize := by
  apply Nat.pos_of_ne_zero
  intro hzero
  have hcount := h.count
  rw [hzero, Nat.div_zero, List.length_eq_zero_iff] at hcount
  have hfirst := h.first
  rw [hcount] at hfirst
  cases hfirst

/-- The size of the file, between the lengths of the chain without and with its last cluster. -/
theorem FileChain.size_bounds (h : FileChain k fs entry chain) :
    k.fileSize entry ≤ chain.length * fs.clusterSize ∧
      chain.length * fs.clusterSize < k.fileSize entry + fs.clusterSize :=
  ceil_bounds h.size_pos h.count

/-- All clusters but the last are full. -/
theorem FileChain.before_le (h : FileChain k fs entry chain) {m : Nat} (hm : m < chain.length) :
    m * fs.clusterSize ≤ k.fileSize entry := by
  have hsize := h.size_bounds
  have hle : (m + 1) * fs.clusterSize ≤ chain.length * fs.clusterSize :=
    Nat.mul_le_mul_right _ hm
  rw [Nat.succ_mul] at hle
  omega

theorem FileChain.length_of_dvd (h : FileChain k fs entry chain)
    (hdvd : fs.clusterSize ∣ k.fileSize entry) :
    k.fileSize entry = chain.length * fs.clusterSize := by
  obtain ⟨n, hn⟩ := hdvd
  obtain ⟨hle, hlt⟩ := h.size_bounds
  rw [hn, Nat.mul_comm fs.clusterSize n] at hle hlt ⊢
  have hmul : chain.length * fs.clusterSize < (n + 1) * fs.clusterSize := by
    rw [Nat.succ_mul]
    exact hlt
  have hn1 := Nat.le_of_mul_le_mul_right hle h.size_pos
  have hn2 := Nat.lt_of_mul_lt_mul_right hmul
  rw [Nat.le_antisymm hn1 (Nat.le_of_lt_succ hn2)]

theorem FileChain.contents_getElem? (h : FileChain k fs entry chain) {i j id : Nat}
    (hid : chain[i]? = some id) (hj : j < fs.clusterSize)
    (ht : i * fs.clusterSize + j < k.fileSize entry) :
    (contents k fs entry chain)[i * fs.clusterSize + j]? =
      some (k.byte (fs.clusterAt id + j)) := by
  have hpos := h.size_pos
  have hdiv : (i * fs.clusterSize + j) / fs.clusterSize = i := by
    rw [Nat.add_comm, Nat.add_mul_div_right _ _ hpos, Nat.div_eq_of_lt hj, Nat.zero_add]
  have hmod : (i * fs.clusterSize + j) % fs.clusterSize = j := by
    rw [Nat.add_comm, Nat.add_mul_mod_self_right, Nat.mod_eq_of_lt hj]
  rw [contents, List.getElem?_take_of_lt ht,
    getElem?_flatMap_blocks hpos (fun id => bytesAt_length k _ _), hdiv, hmod, hid]
  exact bytesAt_getElem? k _ hj

theorem FileChain.contents_length (h : FileChain k fs entry chain) :
    (contents k fs entry chain).length = k.fileSize entry := by
  have hlen : ∀ l : List Nat, (l.flatMap fun id => bytesAt k (fs.clusterAt id) fs.clusterSize).length =
      l.length * fs.clusterSize := by
    intro l
    induction l with
    | nil => simp
    | cons id l ih => rw [List.flatMap_cons, List.length_append, ih, bytesAt_length, List.length_cons,
        Nat.succ_mul, Nat.add_comm]
  rw [contents, List.length_take, hlen]
  exact Nat.min_eq_left h.size_bounds.1

/-- A buffer holds the file if each of its bytes is right. -/
theorem FileChain.contents_iff (h : FileChain k fs entry chain) (k' : Kernel) (data : Nat) :
    bytesAt k' data (k.fileSize entry) = contents k fs entry chain ↔
      ∀ t, t < k.fileSize entry →
        some (k'.byte (data + t)) = (contents k fs entry chain)[t]? := by
  constructor
  · intro heq t ht
    rw [← heq, bytesAt_getElem? k' data ht]
  · intro hall
    apply List.ext_getElem?
    intro t
    by_cases ht : t < k.fileSize entry
    · rw [bytesAt_getElem? k' data ht, hall t ht]
    · rw [List.getElem?_eq_none (by rw [bytesAt_length]; omega),
        List.getElem?_eq_none (by rw [h.contents_length]; omega)]

end Chain

/-! ## 3. The walk along the chain -/

/-- More steps change nothing. -/
theorem readClusters_mono {fs : Fat16Fs} {data size fuel i id : Nat} {s r : Reading}
    (h : readClusters fs data size fuel i id s = some r) (d : Nat) :
    readClusters fs data size (fuel + d) i id s = some r := by
  induction fuel generalizing i id s with
  | zero => cases h
  | succ fuel ih =>
    rw [Nat.succ_add]
    rw [readClusters] at h ⊢
    dsimp only at h ⊢
    split at h
    · rename_i hz
      rwa [if_pos hz]
    · rename_i hz
      rw [if_neg hz]
      exact ih h

/-- What was copied stays copied. -/
theorem readClusters_copied {fs : Fat16Fs} {data size fuel i id : Nat} {s r : Reading}
    (h : readClusters fs data size fuel i id s = some r) {c : Nat × Nat} (hc : c ∈ s.copied) :
    c ∈ r.copied := by
  induction fuel generalizing i id s with
  | zero => cases h
  | succ fuel ih =>
    rw [readClusters] at h
    dsimp only at h
    split at h
    · rw [← Option.some.inj h]
      exact hc
    · exact ih h (List.mem_cons_of_mem _ hc)

section Walk

variable {k : Kernel} {fs : Fat16Fs} {entry : Nat} {chain : List Nat} {data : Nat} {h' : Heap}

/-- The machine after the first `i` clusters of the file. -/
structure CopiedTo (k : Kernel) (fs : Fat16Fs) (chain : List Nat) (data : Nat) (h' : Heap) (i : Nat)
    (s : Reading) : Prop where
  mmu : s.kernel.mmu = k.mmu
  bytes : ∀ i' id, i' < i → chain[i']? = some id → ∀ j, j < fs.clusterSize →
    s.kernel.byte (data + (i' * fs.clusterSize + j)) = k.byte (getFatClusterData fs id + j)
  frame : ∀ x, (x < physOf k.mmu data ∨ physOf k.mmu data + i * fs.clusterSize ≤ x) →
    s.kernel.mem x = h'.kernel.mem x
  copied : s.copied = (List.range i).reverse.map fun i' =>
    (data + i' * fs.clusterSize, fs.clusterSize)

variable (hbuf : FreshBuffer k fs entry chain (data, h'))
include hbuf

/-- The copies so far have not touched the image. -/
theorem CopiedTo.keeps {i : Nat} {s : Reading} (h : CopiedTo k fs chain data h' i s)
    (hi : i * fs.clusterSize ≤ k.fileSize entry) {x : Nat} (hx : FileByte k fs entry chain x) :
    s.kernel.mem x = k.mem x := by
  rw [h.frame x, hbuf.keeps x hx]
  have := hbuf.apart x hx
  dsimp only at this
  omega

theorem copy_dest {i : Nat} (hi : i < chain.length) :
    data + i * fs.clusterSize + fs.clusterSize < 2 ^ 64 := by
  have hroom : data + chain.length * fs.clusterSize < 2 ^ 64 := hbuf.room
  have hle : (i + 1) * fs.clusterSize ≤ chain.length * fs.clusterSize :=
    Nat.mul_le_mul_right _ hi
  rw [Nat.succ_mul] at hle
  omega

/-- One more cluster. -/
theorem CopiedTo.step {i id : Nat} {s : Reading} (h : CopiedTo k fs chain data h' i s)
    (hid : chain[i]? = some id) (hi : (i + 1) * fs.clusterSize ≤ k.fileSize entry) :
    CopiedTo k fs chain data h' (i + 1)
      (s.copy ((data + i * fs.clusterSize) % 2 ^ 64) (getFatClusterData fs id) fs.clusterSize) := by
  have hlt : i < chain.length := (List.getElem?_eq_some_iff.mp hid).1
  have hdest := copy_dest hbuf hlt
  have hdir : Direct s.kernel.mmu data := by
    rw [h.mmu]
    exact hbuf.direct
  have hphys := (hdir.physOf_add (i * fs.clusterSize))
  rw [Nat.succ_mul] at hi
  have hsrc : ∀ j, j < fs.clusterSize → FileByte k fs entry chain
      (physOf k.mmu (getFatClusterData fs id + j)) := fun j hj =>
    Or.inr (Or.inr ⟨id, List.mem_of_getElem? hid, Or.inr ⟨j, hj, rfl⟩⟩)
  have hbytes : ∀ j, j < fs.clusterSize → _ := fun j hj =>
    @copyLoop_bytes fs.clusterSize (data + i * fs.clusterSize) (getFatClusterData fs id) s.kernel
      (hdir.add _) (fun j' hj' => by
        have hapart := hbuf.apart _ (hsrc j' hj')
        dsimp only at hapart
        rw [hphys, h.mmu]
        omega) j hj
  have hframe := fun x => @copyLoop_frame fs.clusterSize (data + i * fs.clusterSize)
    (getFatClusterData fs id) x s.kernel (hdir.add _)
  have hcopy : s.copy ((data + i * fs.clusterSize) % 2 ^ 64) (getFatClusterData fs id)
      fs.clusterSize = ⟨copyLoop fs.clusterSize (data + i * fs.clusterSize)
        (getFatClusterData fs id) s.kernel, (data + i * fs.clusterSize, fs.clusterSize) :: s.copied⟩ := by
    rw [Reading.copy, memcpy, Nat.mod_eq_of_lt (by omega : data + i * fs.clusterSize < 2 ^ 64),
      Nat.mod_eq_of_lt hdest, Nat.add_sub_cancel_left]
  rw [hcopy]
  rw [hphys, h.mmu] at hbytes hframe
  constructor
  · exact (copyLoop_mmu _ _ _ _).trans h.mmu
  · intro i' id' hi' hid' j hj
    have hdirk := hbuf.direct
    dsimp only at hdirk ⊢
    rw [Kernel.byte, copyLoop_mmu, h.mmu, hdirk.physOf_add]
    rcases Nat.lt_succ_iff_lt_or_eq.mp hi' with hbefore | rfl
    · have hle : (i' + 1) * fs.clusterSize ≤ i * fs.clusterSize := Nat.mul_le_mul_right _ hbefore
      rw [Nat.succ_mul] at hle
      have hold := h.bytes i' id' hbefore hid' j hj
      rw [Kernel.byte, h.mmu, hdirk.physOf_add] at hold
      rw [hframe _ (by omega), hold]
    · obtain rfl := Option.some.inj (hid.symm.trans hid')
      have hsame := h.keeps hbuf (by omega) (hsrc j hj)
      rw [← Nat.add_assoc, hbytes j hj, hsame]
      rfl
  · intro x hx
    rw [Nat.succ_mul] at hx
    rw [hframe x (by omega), h.frame x (by omega)]
  · rw [h.copied, List.range_succ, List.reverse_append]
    rfl

variable (hchain : FileChain k fs entry chain) (hcount : fs.clusterCount < FAT16_LIMIT)
include hchain hcount

/-- The cluster after the `i`-th one, or 0 after the last. -/
theorem CopiedTo.next {i id : Nat} {s : Reading} (h : CopiedTo k fs chain data h' (i + 1) s)
    (hid : chain[i]? = some id) (hfound : getFatClusterData fs id ≠ 0)
    (hi : (i + 1) * fs.clusterSize ≤ k.fileSize entry) :
    getNextCluster s.kernel fs id = chain[i + 1]?.getD 0 := by
  have hmem : id ∈ chain := List.mem_of_getElem? hid
  have hentry : fatEntry s.kernel fs id = fatEntry k fs id := by
    unfold fatEntry Kernel.load
    rw [h.mmu]
    apply load_congr
    intro x hlo hhi
    exact h.keeps hbuf hi (Or.inr (Or.inr ⟨id, hmem, Or.inl ⟨hlo, hhi⟩⟩))
  have hmod : (fs.clusterCount + 2) % 2 ^ 32 = fs.clusterCount + 2 := by
    rw [FAT16_LIMIT] at hcount
    omega
  have hbounds := getFatClusterData_bounds hfound
  obtain ⟨hlt, hget⟩ := List.getElem?_eq_some_iff.mp hid
  rw [getNextCluster, if_neg (by omega), hentry, hmod]
  by_cases hlast : i + 1 < chain.length
  · have hlink := hchain.links.getElem i hlast
    rw [hget] at hlink
    have hnext := hchain.ids _ (List.getElem_mem hlast)
    rw [List.getElem?_eq_getElem hlast, Option.getD_some, hlink, if_neg (by omega)]
  · have hend : id ∈ chain.getLast? := by
      rw [List.getLast?_eq_getElem?, show chain.length - 1 = i by omega]
      exact hid
    have hmark := hchain.last id hend
    rw [List.getElem?_eq_none (by omega), Option.getD_none, if_pos (by rw [FAT16_LIMIT] at hcount; omega)]

/-- **The first `i` rounds of the loop**, as long as the clusters are found and the copies stay
    inside the buffer. -/
theorem readClusters_run {i : Nat} (hi : i ≤ chain.length)
    (hsize : i * fs.clusterSize ≤ k.fileSize entry) (hmmu : h'.kernel.mmu = k.mmu)
    (hfound : ∀ id ∈ chain.take i, getFatClusterData fs id ≠ 0) :
    ∃ s, CopiedTo k fs chain data h' i s ∧ ∀ fuel,
      readClusters fs data fs.clusterSize (i + fuel) 0 (k.firstClusterLow entry) ⟨h'.kernel, []⟩ =
        readClusters fs data fs.clusterSize fuel i (chain[i]?.getD 0) s := by
  induction i with
  | zero =>
    refine ⟨⟨h'.kernel, []⟩, ⟨hmmu, ?_, fun x _ => rfl, rfl⟩, fun fuel => ?_⟩
    · intro i' id hi'
      exact absurd hi' (Nat.not_lt_zero i')
    · rw [← List.head?_eq_getElem?, hchain.first, Option.getD_some, Nat.zero_add]
  | succ i ih =>
    have hlt : i < chain.length := hi
    have hid : chain[i]? = some chain[i] := List.getElem?_eq_getElem hlt
    have hmul : (i + 1) * fs.clusterSize = i * fs.clusterSize + fs.clusterSize := Nat.succ_mul _ _
    rw [List.take_succ_eq_append_getElem hlt] at hfound
    have hthis := hfound chain[i] (List.mem_append_right _ (List.mem_singleton_self _))
    obtain ⟨s, hs, hrun⟩ := ih (Nat.le_of_lt hlt) (by omega)
      fun id hmem => hfound id (List.mem_append_left _ hmem)
    have hstep := hs.step hbuf hid hsize
    refine ⟨_, hstep, fun fuel => ?_⟩
    have hround := hrun (fuel + 1)
    rw [show i + 1 + fuel = i + (fuel + 1) by omega, hround, readClusters, hid, Option.getD_some]
    dsimp only
    rw [if_neg hthis, hstep.next hbuf hchain hcount hid hthis hsize]

end Walk

/-! ## 4. Files that are read -/

theorem exists_first_missing {p : Nat → Prop} {chain : List Nat} (h : ¬ ∀ id ∈ chain, p id) :
    ∃ m id, chain[m]? = some id ∧ ¬ p id ∧ ∀ id' ∈ chain.take m, p id' := by
  induction chain with
  | nil => exact absurd (fun id hid => absurd hid List.not_mem_nil) h
  | cons id chain ih =>
    by_cases hp : p id
    · obtain ⟨m, id', hget, hmiss, hbefore⟩ := ih fun hall => h fun id' hid' => by
        rcases List.mem_cons.mp hid' with rfl | hid'
        · exact hp
        · exact hall id' hid'
      refine ⟨m + 1, id', by rwa [List.getElem?_cons_succ], hmiss, fun id'' hid'' => ?_⟩
      rw [List.take_succ_cons] at hid''
      rcases List.mem_cons.mp hid'' with rfl | hid''
      · exact hp
      · exact hbefore id'' hid''
    · exact ⟨0, id, rfl, hp, fun id' hid' => by simp at hid'⟩

section ReadFile

variable {L : Layout} {h h' : Heap} {fs : Fat16Fs} {name : List UInt8} {entry origin data : Nat}
  {chain : List Nat} (hmalloc : malloc L (h.kernel.fileSize entry) origin h = (data, h'))
include hmalloc

/-- A run of `read_file_full` that finds the file and gets a buffer. -/
theorem readFileFull_eq {fuel : Nat}
    (hfind : findFileInRootDirectory h.kernel fs name fuel = some entry) (hentry : entry ≠ 0)
    (hdata : data ≠ 0) :
    readFileFull L fs name origin fuel h =
      (readClusters fs data fs.clusterSize fuel 0 (h'.kernel.firstClusterLow entry)
        ⟨h'.kernel, []⟩).map fun s =>
          ⟨data, some (s.kernel.fileSize entry), { h' with kernel := s.kernel }, s.copied⟩ := by
  unfold readFileFull
  rw [hfind]
  dsimp only
  rw [if_neg hentry, hmalloc]
  dsimp only
  rw [if_neg hdata]
  generalize readClusters _ _ _ _ _ _ _ = r
  cases r with
  | none => rfl
  | some s => rfl

theorem malloc_mmu : h'.kernel.mmu = h.kernel.mmu := by
  have hsatp := freeBucketsAlloc_satp L (h.kernel.fileSize entry) origin h
  rw [← malloc, hmalloc] at hsatp
  rw [Kernel.mmu, hsatp, Kernel.mmu]

variable (hbuf : FreshBuffer h.kernel fs entry chain (data, h'))
include hbuf

theorem FreshBuffer.firstClusterLow :
    h'.kernel.firstClusterLow entry = h.kernel.firstClusterLow entry := by
  unfold Kernel.firstClusterLow Kernel.load
  rw [malloc_mmu hmalloc]
  apply load_congr
  intro x hlo hhi
  exact hbuf.keeps x (Or.inl ⟨hlo, hhi⟩)

omit hmalloc in
theorem CopiedTo.fileSize {i : Nat} {s : Reading} (hs : CopiedTo h.kernel fs chain data h' i s)
    (hi : i * fs.clusterSize ≤ h.kernel.fileSize entry) :
    s.kernel.fileSize entry = h.kernel.fileSize entry := by
  unfold Kernel.fileSize Kernel.load
  rw [hs.mmu]
  apply load_congr
  intro x hlo hhi
  exact hs.keeps hbuf hi (Or.inr (Or.inl ⟨hlo, hhi⟩))

variable (hchain : FileChain h.kernel fs entry chain) (hcount : fs.clusterCount < FAT16_LIMIT)
include hchain hcount

/-- The loop ends at the `m`-th cluster if that is not found. -/
theorem readClusters_stops {m : Nat} (hm : m ≤ chain.length)
    (hsize : m * fs.clusterSize ≤ h.kernel.fileSize entry)
    (hfound : ∀ id ∈ chain.take m, getFatClusterData fs id ≠ 0)
    (hstop : getFatClusterData fs (chain[m]?.getD 0) = 0) :
    ∃ s, CopiedTo h.kernel fs chain data h' m s ∧ ∀ fuel,
      readClusters fs data fs.clusterSize (m + fuel + 1) 0 (h'.kernel.firstClusterLow entry)
        ⟨h'.kernel, []⟩ = some s := by
  obtain ⟨s, hs, hrun⟩ := readClusters_run hbuf hchain hcount hm hsize (malloc_mmu hmalloc) hfound
  refine ⟨s, hs, fun fuel => ?_⟩
  have hround := hrun (fuel + 1)
  rw [hbuf.firstClusterLow hmalloc, Nat.add_assoc, hround, readClusters]
  dsimp only
  rw [if_pos hstop]

omit hmalloc hbuf hcount in
/-- What is in the buffer where the loop ends at the `m`-th cluster. -/
theorem CopiedTo.contents_iff {m : Nat} {s : Reading}
    (hs : CopiedTo h.kernel fs chain data h' m s) (hm : m ≤ chain.length)
    (hsize : m * fs.clusterSize ≤ h.kernel.fileSize entry)
    (hdir : Direct h.kernel.mmu data) (hmmu : h'.kernel.mmu = h.kernel.mmu) :
    bytesAt s.kernel data (h.kernel.fileSize entry) = contents h.kernel fs entry chain ↔
      (∀ id ∈ chain.take m, ∀ j, j < fs.clusterSize →
        h.kernel.byte (getFatClusterData fs id + j) = h.kernel.byte (fs.clusterAt id + j)) ∧
      ∀ t, m * fs.clusterSize ≤ t → t < h.kernel.fileSize entry →
        some (h'.kernel.byte (data + t)) = (contents h.kernel fs entry chain)[t]? := by
  have hpos := hchain.size_pos
  -- the clusters that were copied lie inside the file
  have hin : ∀ i j, i < m → j < fs.clusterSize →
      i * fs.clusterSize + j < m * fs.clusterSize := by
    intro i j hi hj
    have hle : (i + 1) * fs.clusterSize ≤ m * fs.clusterSize := Nat.mul_le_mul_right _ hi
    rw [Nat.succ_mul] at hle
    omega
  have hrest : ∀ t, m * fs.clusterSize ≤ t → s.kernel.byte (data + t) = h'.kernel.byte (data + t) := by
    intro t ht
    rw [Kernel.byte, Kernel.byte, hs.mmu, hmmu]
    apply hs.frame
    rw [hdir.physOf_add]
    omega
  rw [hchain.contents_iff]
  constructor
  · intro hall
    constructor
    · intro id hid j hj
      obtain ⟨i, hi, rfl⟩ := List.mem_take_iff_getElem.mp hid
      have hi' : i < m := by omega
      have hget : chain[i]? = some chain[i] := List.getElem?_eq_getElem (by omega)
      have hlt := hin i j hi' hj
      have hbyte := hall (i * fs.clusterSize + j) (by omega)
      rw [hchain.contents_getElem? hget hj (by omega), hs.bytes i _ hi' hget j hj] at hbyte
      exact Option.some.inj hbyte
    · intro t ht hlt
      rw [← hrest t ht]
      exact hall t hlt
  · rintro ⟨hsame, htail⟩ t ht
    by_cases hmt : m * fs.clusterSize ≤ t
    · rw [hrest t hmt]
      exact htail t hmt ht
    · have hdiv := Nat.div_add_mod t fs.clusterSize
      have hi : t / fs.clusterSize < m := (Nat.div_lt_iff_lt_mul hpos).mpr (by omega)
      have hj : t % fs.clusterSize < fs.clusterSize := Nat.mod_lt _ hpos
      have hlt : t / fs.clusterSize < chain.length := Nat.lt_of_lt_of_le hi hm
      have hget : chain[t / fs.clusterSize]? = some chain[t / fs.clusterSize] :=
        List.getElem?_eq_getElem hlt
      rw [Nat.mul_comm] at hdiv
      rw [← hdiv] at ht ⊢
      rw [hchain.contents_getElem? hget hj ht, hs.bytes _ _ hi hget _ hj]
      congr 1
      apply hsame _ _ _ hj
      exact List.mem_take_iff_getElem.mpr ⟨t / fs.clusterSize, by omega, rfl⟩

/-- The copy of the last cluster is inside the buffer only if the file ends with it. -/
theorem dvd_of_inside {fuel : Nat} {s : Reading}
    (hrun : readClusters fs data fs.clusterSize fuel 0 (h'.kernel.firstClusterLow entry)
      ⟨h'.kernel, []⟩ = some s)
    (hfound : ∀ id ∈ chain, getFatClusterData fs id ≠ 0)
    (hinside : ∀ c ∈ s.copied, ∀ j, j < c.2 →
      data ≤ c.1 + j ∧ c.1 + j < data + h.kernel.fileSize entry) :
    h.kernel.fileSize entry = chain.length * fs.clusterSize := by
  have hpos := hchain.size_pos
  obtain ⟨hle, hlt⟩ := hchain.size_bounds
  obtain ⟨n, hn⟩ : ∃ n, chain.length = n + 1 := by
    apply Nat.exists_eq_succ_of_ne_zero
    intro hnil
    have hfirst := hchain.first
    rw [List.length_eq_zero_iff.mp hnil] at hfirst
    cases hfirst
  rw [hn, Nat.succ_mul] at hle hlt ⊢
  have hlast : n < chain.length := by omega
  have hget : chain[n]? = some chain[n] := List.getElem?_eq_getElem hlast
  obtain ⟨s', hs', hrounds⟩ := readClusters_run hbuf hchain hcount (by omega : n ≤ chain.length)
    (by omega) (malloc_mmu hmalloc) fun id hid => hfound id (List.mem_of_mem_take hid)
  have hsame := readClusters_mono hrun (n + 1)
  rw [hbuf.firstClusterLow hmalloc, show fuel + (n + 1) = n + (fuel + 1) by omega, hrounds, hget,
    Option.getD_some, readClusters] at hsame
  dsimp only at hsame
  rw [if_neg (hfound _ (List.mem_of_getElem? hget))] at hsame
  have hdest := copy_dest hbuf (show n < chain.length by omega)
  have hcopy : (data + n * fs.clusterSize, fs.clusterSize) ∈ s.copied := by
    apply readClusters_copied hsame
    rw [Reading.copy, Nat.mod_eq_of_lt (by omega : data + n * fs.clusterSize < 2 ^ 64),
      Nat.mod_eq_of_lt hdest, Nat.add_sub_cancel_left]
    exact List.mem_cons_self
  have hlast := (hinside _ hcopy (fs.clusterSize - 1) (by dsimp only; omega)).2
  dsimp only at hlast
  omega

variable {fuel : Nat} (hfind : findFileInRootDirectory h.kernel fs name fuel = some entry)
  (hentry : entry ≠ 0)
include hfind hentry

/-- The file is read where the loop ends with all clusters before copied and nothing missing. -/
theorem reads_of_stop {m : Nat} (hm : m ≤ chain.length)
    (hle : m * fs.clusterSize ≤ h.kernel.fileSize entry)
    (hlocates : ∀ id ∈ chain.take m, Locates h.kernel fs id)
    (hstop : getFatClusterData fs (chain[m]?.getD 0) = 0)
    (htail : ∀ t, m * fs.clusterSize ≤ t → t < h.kernel.fileSize entry →
      some (h'.kernel.byte (data + t)) = (contents h.kernel fs entry chain)[t]?) :
    ∃ fuel r, readFileFull L fs name origin fuel h = some r ∧
      ReadsFile h.kernel fs entry chain r := by
  obtain ⟨s, hs, hrun⟩ := readClusters_stops hmalloc hbuf hchain hcount hm hle
    (fun id hid => (hlocates id hid).1) hstop
  have hfind' : findFileInRootDirectory h.kernel fs name (m + fuel + 1) = some entry := by
    rw [show m + fuel + 1 = fuel + (m + 1) by omega]
    exact searchLoop_mono hfind (m + 1)
  refine ⟨m + fuel + 1, _, (readFileFull_eq hmalloc hfind' hentry hbuf.ne_null).trans
    (congrArg _ (hrun fuel)), ?_⟩
  constructor
  · exact hbuf.ne_null
  · exact (hs.contents_iff hchain hm hle hbuf.direct (malloc_mmu hmalloc)).mpr
      ⟨fun id hid => (hlocates id hid).2, htail⟩
  · exact congrArg some (hs.fileSize hbuf hle)
  · intro c hc j hj
    dsimp only at hc ⊢
    rw [hs.copied] at hc
    obtain ⟨i, hi, rfl⟩ := List.mem_map.mp hc
    rw [List.mem_reverse, List.mem_range] at hi
    dsimp only at hj ⊢
    have hmul : (i + 1) * fs.clusterSize ≤ m * fs.clusterSize := Nat.mul_le_mul_right _ hi
    rw [Nat.succ_mul] at hmul
    omega

omit hcount hbuf hchain in
/-- Every run that returns has found the same file, and has been through the loop. -/
theorem readFileFull_run {fuel' : Nat} {r : FileRead} (hdata : data ≠ 0)
    (hrun : readFileFull L fs name origin fuel' h = some r) :
    ∃ s, readClusters fs data fs.clusterSize fuel' 0 (h'.kernel.firstClusterLow entry)
        ⟨h'.kernel, []⟩ = some s ∧
      r = ⟨data, some (s.kernel.fileSize entry), { h' with kernel := s.kernel }, s.copied⟩ := by
  have hfind' : findFileInRootDirectory h.kernel fs name fuel' = some entry := by
    cases hcase : findFileInRootDirectory h.kernel fs name fuel' with
    | none =>
      unfold readFileFull at hrun
      rw [hcase] at hrun
      cases hrun
    | some entry' => rw [searchLoop_unique hcase hfind]
  rw [readFileFull_eq hmalloc hfind' hentry hdata] at hrun
  obtain ⟨s, hs, rfl⟩ := Option.map_eq_some_iff.mp hrun
  exact ⟨s, hs, rfl⟩

/-- What follows if the file is read. -/
theorem locates_of_reads {fuel' : Nat} {r : FileRead}
    (hrun : readFileFull L fs name origin fuel' h = some r)
    (hread : ReadsFile h.kernel fs entry chain r) :
    (fs.clusterSize ∣ h.kernel.fileSize entry ∧ ∀ id ∈ chain, Locates h.kernel fs id) ∨
      AlreadyThere h.kernel fs entry chain (data, h') := by
  have hmmu := malloc_mmu hmalloc
  have hdir : Direct h.kernel.mmu data := hbuf.direct
  obtain ⟨s, hs, rfl⟩ := readFileFull_run hmalloc hfind hentry hbuf.ne_null hrun
  have hcontents := hread.contents
  have hinside := hread.inside
  dsimp only at hcontents hinside
  by_cases hfound : ∀ id ∈ chain, getFatClusterData fs id ≠ 0
  · -- every cluster was copied, the last one too
    have hlen := dvd_of_inside hmalloc hbuf hchain hcount hs hfound hinside
    obtain ⟨s', hs', hstop⟩ := readClusters_stops hmalloc hbuf hchain hcount (le_refl chain.length)
      (by omega) (fun id hid => hfound id (List.mem_of_mem_take hid))
      (by rw [List.getElem?_eq_none (le_refl _)]; rfl)
    have hsame := readClusters_mono hs (chain.length + 1)
    rw [show fuel' + (chain.length + 1) = chain.length + fuel' + 1 by omega, hstop fuel'] at hsame
    obtain rfl := Option.some.inj hsame
    have hclusters := (hs'.contents_iff hchain (le_refl _) (by omega) hdir hmmu).mp hcontents
    left
    refine ⟨⟨chain.length, by rw [hlen, Nat.mul_comm]⟩, fun id hid => ⟨hfound id hid, ?_⟩⟩
    exact hclusters.1 id (by rwa [List.take_length])
  · obtain ⟨m, id, hget, hmiss, hbefore⟩ := exists_first_missing hfound
    have hm : m < chain.length := (List.getElem?_eq_some_iff.mp hget).1
    have hmiss' : getFatClusterData fs id = 0 := Decidable.not_not.mp hmiss
    have hle := hchain.before_le hm
    obtain ⟨s', hs', hstop⟩ := readClusters_stops hmalloc hbuf hchain hcount (Nat.le_of_lt hm)
      hle hbefore (by rw [hget]; exact hmiss')
    have hsame := readClusters_mono hs (m + 1)
    rw [show fuel' + (m + 1) = m + fuel' + 1 by omega, hstop fuel'] at hsame
    obtain rfl := Option.some.inj hsame
    have hclusters := (hs'.contents_iff hchain (Nat.le_of_lt hm) hle hdir hmmu).mp hcontents
    right
    exact ⟨m, id, hget, hmiss', fun id' hid' => ⟨hbefore id' hid', hclusters.1 id' hid'⟩,
      hclusters.2⟩

end ReadFile

/-- **When `read_file_full` returns the file**: the size of the file is a multiple of the size
    of a cluster, and every cluster is found; or else what is missing is in the buffer already. -/
theorem read_file_full_iff (L : Layout) (h : Heap) (start end_ : Nat) (fs : Fat16Fs)
    (name : List UInt8) (fuel entry : Nat) (chain : List Nat) (origin : Nat)
    (hacc : Accepted h.kernel start end_ fs)
    (hfind : findFileInRootDirectory h.kernel fs name fuel = some entry) (hentry : entry ≠ 0)
    (hchain : FileChain h.kernel fs entry chain)
    (hbuf : FreshBuffer h.kernel fs entry chain (malloc L (h.kernel.fileSize entry) origin h)) :
    (∃ fuel r, readFileFull L fs name origin fuel h = some r ∧
        ReadsFile h.kernel fs entry chain r) ↔
      (fs.clusterSize ∣ h.kernel.fileSize entry ∧ ∀ id ∈ chain, Locates h.kernel fs id) ∨
      AlreadyThere h.kernel fs entry chain (malloc L (h.kernel.fileSize entry) origin h) := by
  obtain ⟨data, h', hmalloc⟩ : ∃ data h', malloc L (h.kernel.fileSize entry) origin h = (data, h') :=
    ⟨_, _, rfl⟩
  rw [hmalloc] at hbuf ⊢
  have hcount := hacc.volume.clusterCount.2
  constructor
  · rintro ⟨fuel', r, hrun, hread⟩
    exact locates_of_reads hmalloc hbuf hchain hcount hfind hentry hrun hread
  · rintro (⟨hdvd, hlocates⟩ | ⟨m, id, hget, hmiss, hbefore, htail⟩)
    · have hlen := hchain.length_of_dvd hdvd
      apply reads_of_stop hmalloc hbuf hchain hcount hfind hentry (le_refl chain.length)
      · exact le_of_eq hlen.symm
      · intro id hid
        exact hlocates id (List.mem_of_mem_take hid)
      · rw [List.getElem?_eq_none (le_refl _)]
        rfl
      · intro t ht hlt
        omega
    · have hm : m < chain.length := (List.getElem?_eq_some_iff.mp hget).1
      apply reads_of_stop hmalloc hbuf hchain hcount hfind hentry (Nat.le_of_lt hm)
        (hchain.before_le hm) hbefore _ htail
      rw [hget]
      exact hmiss

/-! ## 5. A file of one byte -/

/-- A volume at `0x90000000` with 4085 clusters of 512 bytes.  Its one file, `a`, has one byte, in
    cluster 2. -/
def oneByteFile (x : Nat) : UInt8 :=
  if x = 0x9000000c then 2
  else if x = 0x9000000d ∨ x = 0x9000000e ∨ x = 0x90000010 then 1
  else if x = 0x90000011 ∨ x = 0x90000014 ∨ x = 0x90000016 then 16
  else if x = 0x90000013 then 7
  else if x = 0x900001fe then 0x55
  else if x = 0x900001ff then 0xaa
  else if x = 0x90000204 ∨ x = 0x90000205 then 0xff
  else if x = 0x90002200 then 0x41
  else if x = 0x90002201 then 97
  else if x = 0x9000220b then 15
  else if x = 0x9000223a then 2
  else if x = 0x9000223c then 1
  else 0

def oneByteVolume : Fat16Fs := ⟨512, 1, 4085, 16, 0x90000000, 0x90000200, 0x90002200, 0x90002400⟩

/-- The machine with that volume, and one free block of 16 bytes. -/
def oneBlockHeap : Heap :=
  ⟨⟨oneByteFile, 0#64, 0⟩, false, 0, fun c => if c = .free16 then 0x80202000 else 0⟩

theorem oneByte_accepted : Accepted oneBlockHeap.kernel 0x90000000 0x90200e00 oneByteVolume := by
  unfold Accepted
  decide +kernel

theorem oneByte_found :
    findFileInRootDirectory oneBlockHeap.kernel oneByteVolume [97] 1 = some 0x90002220 := by
  decide +kernel

theorem oneByte_size : oneBlockHeap.kernel.fileSize 0x90002220 = 1 := by decide +kernel

theorem oneByte_chain : FileChain oneBlockHeap.kernel oneByteVolume 0x90002220 [2] := by
  constructor
  · decide +kernel
  · exact List.IsChain.singleton 2
  · intro id hid
    obtain rfl := Option.some.inj hid
    decide +kernel
  · intro id hid
    rw [List.mem_singleton.mp hid]
    decide
  · exact List.nodup_singleton 2
  · rw [oneByte_size]
    decide

/-- `malloc` of one byte takes the block and leaves the image alone. -/
theorem oneBlock_malloc_of (m : Mem) : ∃ h',
    malloc .small 1 0 { oneBlockHeap with kernel := ⟨m, 0#64, 0⟩ } = (0x80202020, h') ∧
    ∀ x, 0x90000000 ≤ x → h'.kernel.mem x = m x := by
  have hcall : malloc .small 1 0 { oneBlockHeap with kernel := ⟨m, 0#64, 0⟩ } = (0x80202020,
      { linkUsed 0x80202000 0 { oneBlockHeap with
          kernel := ⟨m, 0#64, 0⟩
          mutating := true
          free := Function.update oneBlockHeap.free .free16
            ((⟨m, 0#64, 0⟩ : Kernel).next 0x80202000) } with mutating := false }) := rfl
  refine ⟨_, hcall, fun x hx => ?_⟩
  have hused : ¬ oneBlockHeap.used ≠ 0 := by decide
  simp only [linkUsed, if_neg hused]
  have hstore : ∀ (k : Kernel) (i v : Nat), i + 8 ≤ HEADER_SIZE → k.satp = 0#64 →
      (k.store 8 (0x80202000 + i) v).mem x = k.mem x := by
    intro k i v hi hsatp
    have hmmu : k.mmu = false := by
      rw [Kernel.mmu, hsatp]
      rfl
    rw [HEADER_SIZE] at hi
    have hout : x < 0x80202000 + i ∨ 0x80202000 + i + 8 ≤ x := by omega
    rw [Kernel.store, hmmu, physOf_off]
    dsimp only [ByteMemory.store]
    exact patch_outside _ _ hout
  unfold Kernel.setPrev Kernel.setNext Kernel.setOrigin
  refine (hstore _ 8 _ (by decide) rfl).trans ?_
  refine (hstore _ 0 _ (by decide) rfl).trans ?_
  exact hstore _ 24 _ (by decide) rfl

theorem oneBlock_malloc : ∃ h', malloc .small 1 0 oneBlockHeap = (0x80202020, h') ∧
    ∀ x, 0x90000000 ≤ x → h'.kernel.mem x = oneByteFile x :=
  oneBlock_malloc_of oneByteFile

theorem oneByte_fileByte {x : Nat}
    (hx : FileByte oneBlockHeap.kernel oneByteVolume 0x90002220 [2] x) : 0x90000000 ≤ x := by
  have hoff : oneBlockHeap.kernel.mmu = false := by decide
  have hdata : getFatClusterData oneByteVolume 2 = 0x90002400 := by decide
  have hfat : oneByteVolume.fat = 0x90000200 := rfl
  simp only [FileByte, hoff, physOf_off, List.mem_singleton, exists_eq_left, hdata, hfat] at hx
  rcases hx with ⟨hx, _⟩ | ⟨hx, _⟩ | ⟨hx, _⟩ | ⟨j, _, rfl⟩
  · omega
  · omega
  · omega
  · omega

theorem oneByte_buffer : FreshBuffer oneBlockHeap.kernel oneByteVolume 0x90002220 [2]
    (malloc .small (oneBlockHeap.kernel.fileSize 0x90002220) 0 oneBlockHeap) := by
  obtain ⟨h', hcall, hkeep⟩ := oneBlock_malloc
  have hoff : oneBlockHeap.kernel.mmu = false := by decide
  rw [oneByte_size, hcall]
  constructor
  · exact Nat.succ_ne_zero _
  · intro hon
    rw [hoff] at hon
    cases hon
  · change 0x80202020 + 1 * 512 < 2 ^ 64
    decide
  · intro x hx
    exact hkeep x (oneByte_fileByte hx)
  · intro x hx
    have hle := oneByte_fileByte hx
    right
    dsimp only
    rw [hoff, physOf_off, oneByte_size]
    omega

theorem read_file_full_iff_oneByte :
    (∃ fuel r, readFileFull .small oneByteVolume [97] 0 fuel oneBlockHeap = some r ∧
        ReadsFile oneBlockHeap.kernel oneByteVolume 0x90002220 [2] r) ↔
      (oneByteVolume.clusterSize ∣ oneBlockHeap.kernel.fileSize 0x90002220 ∧
        ∀ id ∈ [2], Locates oneBlockHeap.kernel oneByteVolume id) ∨
      AlreadyThere oneBlockHeap.kernel oneByteVolume 0x90002220 [2]
        (malloc .small (oneBlockHeap.kernel.fileSize 0x90002220) 0 oneBlockHeap) :=
  read_file_full_iff .small oneBlockHeap 0x90000000 0x90200e00 oneByteVolume [97] 1 0x90002220 [2] 0
    oneByte_accepted oneByte_found (by decide) oneByte_chain oneByte_buffer

/-- The file of one byte is not read: 511 bytes are written behind its buffer. -/
theorem read_file_full_overruns :
    Accepted oneBlockHeap.kernel 0x90000000 0x90200e00 oneByteVolume ∧
    findFileInRootDirectory oneBlockHeap.kernel oneByteVolume [97] 1 = some 0x90002220 ∧
    FileChain oneBlockHeap.kernel oneByteVolume 0x90002220 [2] ∧
    0 < oneBlockHeap.kernel.fileSize 0x90002220 ∧
    FreshBuffer oneBlockHeap.kernel oneByteVolume 0x90002220 [2]
      (malloc .small (oneBlockHeap.kernel.fileSize 0x90002220) 0 oneBlockHeap) ∧
    ¬ ∃ fuel r, readFileFull .small oneByteVolume [97] 0 fuel oneBlockHeap = some r ∧
      ReadsFile oneBlockHeap.kernel oneByteVolume 0x90002220 [2] r := by
  refine ⟨oneByte_accepted, oneByte_found, oneByte_chain, ?_, oneByte_buffer, ?_⟩
  · rw [oneByte_size]
    decide
  · rintro ⟨fuel, r, hrun, hread⟩
    rcases locates_of_reads rfl oneByte_buffer oneByte_chain oneByte_accepted.volume.clusterCount.2
      oneByte_found (by decide) hrun hread with ⟨hdvd, _⟩ | ⟨m, id, hget, hmiss, _⟩
    · rw [oneByte_size] at hdvd
      exact absurd hdvd (by decide)
    · have hid := List.mem_of_getElem? hget
      rw [List.mem_singleton.mp hid] at hmiss
      exact absurd hmiss (by decide)

end IloPali
