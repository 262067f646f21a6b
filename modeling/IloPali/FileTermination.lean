import IloPali.FileReader
import IloPali.Lib.Orbit
import Mathlib.Order.Interval.Finset.Nat

/-!
# Whether a file is read in finitely many steps

The loop of `read_file_full` follows the links of the file allocation table as long as it finds
clusters.  Nothing bounds it but the links themselves: it ends exactly if they do not lead back to
a cluster of the file, and then within one round for each cluster of the volume.
-/

namespace IloPali

open ByteMemory

/-! ## 1. The links -/

/-- The id the loop comes to after `i` clusters. -/
def clusterAfter (k : Kernel) (fs : Fat16Fs) (id i : Nat) : Nat := (getNextCluster k fs)^[i] id

/-- As long as the loop finds clusters, it finds none twice. -/
def NoLoop (k : Kernel) (fs : Fat16Fs) (id : Nat) : Prop :=
  ∀ i j, i < j → (∀ m, m ≤ j → getFatClusterData fs (clusterAfter k fs id m) ≠ 0) →
    clusterAfter k fs id i ≠ clusterAfter k fs id j

/-- The bytes of the entries of the file allocation table that are looked up. -/
def TableByte (k : Kernel) (fs : Fat16Fs) (x : Nat) : Prop :=
  ∃ id, 2 ≤ id ∧ id ≤ fs.clusterCount ∧
    physOf k.mmu (fs.fat + 2 * id) ≤ x ∧ x < physOf k.mmu (fs.fat + 2 * id) + 2

/-- What `malloc` returned, with all the bytes that as many copies reach as the volume has
    clusters, is apart from the table; and `malloc` changed neither the table nor the entry. -/
structure ClearOfTable (k : Kernel) (fs : Fat16Fs) (entry : Nat) (r : Nat × Heap) : Prop where
  direct : Direct k.mmu r.1
  room : r.1 + fs.clusterCount * fs.clusterSize < 2 ^ 64
  table : ∀ x, TableByte k fs x → r.2.kernel.mem x = k.mem x
  entry : r.2.kernel.firstClusterLow entry = k.firstClusterLow entry
  apart : ∀ x, TableByte k fs x →
    x < physOf k.mmu r.1 ∨ physOf k.mmu r.1 + fs.clusterCount * fs.clusterSize ≤ x

/-- The ids the loop finds a cluster for. -/
def foundIds (fs : Fat16Fs) : Finset Nat :=
  {id ∈ Finset.Icc 2 fs.clusterCount | getFatClusterData fs id ≠ 0}

theorem mem_foundIds {fs : Fat16Fs} {id : Nat} :
    id ∈ foundIds fs ↔ getFatClusterData fs id ≠ 0 := by
  constructor
  · intro h
    exact (Finset.mem_filter.mp h).2
  · intro h
    exact Finset.mem_filter.mpr ⟨Finset.mem_Icc.mpr (getFatClusterData_bounds h), h⟩

theorem card_foundIds (fs : Fat16Fs) : (foundIds fs).card ≤ fs.clusterCount := by
  have hfilter := Finset.card_filter_le (Finset.Icc 2 fs.clusterCount) (getFatClusterData fs · ≠ 0)
  rw [Nat.card_Icc] at hfilter
  exact Nat.le_trans hfilter (by omega)

theorem noLoop_iff (k : Kernel) (fs : Fat16Fs) (id : Nat) :
    NoLoop k fs id ↔ Orbit.Simple (getNextCluster k fs) (foundIds fs) id := by
  simp only [NoLoop, Orbit.Simple, mem_foundIds, clusterAfter]

/-! ## 2. The loop -/

/-- The table is the same as before the copies. -/
structure SameTable (k : Kernel) (fs : Fat16Fs) (s : Reading) : Prop where
  mmu : s.kernel.mmu = k.mmu
  bytes : ∀ x, TableByte k fs x → s.kernel.mem x = k.mem x

section Loop

variable {k : Kernel} {fs : Fat16Fs} {data : Nat} {s : Reading}

theorem SameTable.next (h : SameTable k fs s) (id : Nat) :
    getNextCluster s.kernel fs id = getNextCluster k fs id := by
  by_cases hid : id > fs.clusterCount ∨ id < 2
  · rw [getNextCluster, getNextCluster, if_pos hid, if_pos hid]
  · have hentry : fatEntry s.kernel fs id = fatEntry k fs id := by
      unfold fatEntry Kernel.load
      rw [h.mmu]
      apply load_congr
      intro x hlo hhi
      exact h.bytes x ⟨id, by omega, by omega, hlo, hhi⟩
    rw [getNextCluster, getNextCluster, if_neg hid, if_neg hid, hentry]

/-- A copy to a place apart from the table. -/
theorem SameTable.copy (h : SameTable k fs s) {dest n : Nat} (src : Nat)
    (hdest : Direct k.mmu dest) (hroom : dest + n < 2 ^ 64)
    (hapart : ∀ x, TableByte k fs x → x < physOf k.mmu dest ∨ physOf k.mmu dest + n ≤ x) :
    SameTable k fs (s.copy (dest % 2 ^ 64) src n) := by
  rw [Nat.mod_eq_of_lt (by omega), Reading.copy, memcpy, Nat.mod_eq_of_lt hroom,
    Nat.add_sub_cancel_left]
  constructor
  · exact (copyLoop_mmu _ _ _ _).trans h.mmu
  · intro x hx
    rw [← h.bytes x hx]
    apply copyLoop_frame
    · rw [h.mmu]
      exact hdest
    · rw [h.mmu]
      exact hapart x hx

/-- A round that finds a cluster. -/
theorem readClusters_found {fuel i id size : Nat} (h : getFatClusterData fs id ≠ 0) :
    readClusters fs data size (fuel + 1) i id s =
      readClusters fs data size fuel (i + 1)
        (getNextCluster
          (s.copy ((data + i * size) % 2 ^ 64) (getFatClusterData fs id) size).kernel fs id)
        (s.copy ((data + i * size) % 2 ^ 64) (getFatClusterData fs id) size) := by
  rw [readClusters]
  dsimp only
  rw [if_neg h]

/-- The loop never forgets a copy. -/
theorem readClusters_copies {fuel i id size : Nat} {r : Reading}
    (h : readClusters fs data size fuel i id s = some r) : s.copied.length ≤ r.copied.length := by
  induction fuel generalizing i id s with
  | zero => cases h
  | succ fuel ih =>
    by_cases hfound : getFatClusterData fs id = 0
    · rw [readClusters] at h
      dsimp only at h
      rw [if_pos hfound] at h
      rw [Option.some.inj h]
    · rw [readClusters_found hfound] at h
      exact Nat.le_trans (Nat.le_succ _) (ih h)

variable {h' : Heap} {entry : Nat} (hclear : ClearOfTable k fs entry (data, h'))
include hclear

/-- **The first `n` rounds**, where each finds a cluster. -/
theorem readClusters_rounds (hmmu : h'.kernel.mmu = k.mmu) {id n : Nat} (hn : n ≤ fs.clusterCount)
    (hfound : ∀ m, m < n → getFatClusterData fs (clusterAfter k fs id m) ≠ 0) :
    ∃ s, SameTable k fs s ∧ s.copied.length = n ∧ ∀ fuel,
      readClusters fs data fs.clusterSize (fuel + n) 0 id ⟨h'.kernel, []⟩ =
        readClusters fs data fs.clusterSize fuel n (clusterAfter k fs id n) s := by
  induction n with
  | zero => exact ⟨⟨h'.kernel, []⟩, ⟨hmmu, hclear.table⟩, rfl, fun fuel => rfl⟩
  | succ n ih =>
    obtain ⟨s, hs, hlen, hrun⟩ := ih (Nat.le_of_succ_le hn) fun m hm =>
      hfound m (Nat.lt_succ_of_lt hm)
    have hroom : data + fs.clusterCount * fs.clusterSize < 2 ^ 64 := hclear.room
    have hdir : Direct k.mmu data := hclear.direct
    have hle : (n + 1) * fs.clusterSize ≤ fs.clusterCount * fs.clusterSize :=
      Nat.mul_le_mul_right _ hn
    rw [Nat.succ_mul] at hle
    have hcopy := hs.copy (getFatClusterData fs (clusterAfter k fs id n))
      (hdir.add (n * fs.clusterSize)) (n := fs.clusterSize) (by omega) (by
        intro x hx
        have hapart := hclear.apart x hx
        dsimp only at hapart
        rw [hdir.physOf_add]
        omega)
    refine ⟨_, hcopy, congrArg (· + 1) hlen, fun fuel => ?_⟩
    rw [show fuel + (n + 1) = fuel + 1 + n by omega, hrun,
      readClusters_found (hfound n (Nat.lt_succ_self n)), hcopy.next]
    have hnext : getNextCluster k fs (clusterAfter k fs id n) = clusterAfter k fs id (n + 1) :=
      (Function.iterate_succ_apply' _ _ _).symm
    rw [hnext]

/-- The loop ends within one round for each cluster if and only if the links do not loop. -/
theorem readClusters_ends_iff (hmmu : h'.kernel.mmu = k.mmu) (id : Nat) :
    (∃ fuel s, readClusters fs data fs.clusterSize fuel 0 id ⟨h'.kernel, []⟩ = some s ∧
      s.copied.length ≤ fs.clusterCount) ↔ NoLoop k fs id := by
  constructor
  · rintro ⟨fuel, r, hr, hlen⟩ i j hij hfound heq
    -- all rounds find a cluster, one more than there may be
    have hall : ∀ n, getFatClusterData fs (clusterAfter k fs id n) ≠ 0 := by
      intro n
      exact mem_foundIds.mp (Orbit.mem_of_return hij heq (fun m hm => mem_foundIds.mpr (hfound m hm)) n)
    obtain ⟨s, _, hs, hrun⟩ := readClusters_rounds hclear hmmu (le_refl fs.clusterCount)
      fun m _ => hall m
    have hmore := readClusters_mono hr (fs.clusterCount + 1)
    rw [show fuel + (fs.clusterCount + 1) = fuel + 1 + fs.clusterCount by omega, hrun,
      readClusters_found (hall _)] at hmore
    have hcopies := readClusters_copies hmore
    have hone : (s.copy ((data + fs.clusterCount * fs.clusterSize) % 2 ^ 64)
        (getFatClusterData fs (clusterAfter k fs id fs.clusterCount)) fs.clusterSize).copied.length =
        s.copied.length + 1 := rfl
    omega
  · intro h
    obtain ⟨n, hn, hout, hbefore⟩ := Orbit.first_exit ((noLoop_iff k fs id).mp h)
    have hmiss : getFatClusterData fs (clusterAfter k fs id n) = 0 :=
      Decidable.not_not.mp fun hne => hout (mem_foundIds.mpr hne)
    have hcount := Nat.le_trans hn (card_foundIds fs)
    obtain ⟨s, _, hs, hrun⟩ := readClusters_rounds hclear hmmu hcount
      fun m hm => mem_foundIds.mp (hbefore m hm)
    refine ⟨1 + n, s, ?_, by omega⟩
    rw [hrun, readClusters]
    dsimp only
    rw [if_pos hmiss]

end Loop

/-! ## 3. Reading a file -/

/-- **When a file is read within one round for each cluster**: the search ends, and if a file is
    found and there is a buffer for it, the links do not loop. -/
theorem read_file_full_ends_iff (L : Layout) (h : Heap) (fs : Fat16Fs) (name : List UInt8)
    (origin : Nat)
    (hclear : ∀ fuel entry, findFileInRootDirectory h.kernel fs name fuel = some entry →
      entry ≠ 0 → (malloc L (h.kernel.fileSize entry) origin h).1 ≠ 0 →
      ClearOfTable h.kernel fs entry (malloc L (h.kernel.fileSize entry) origin h)) :
    (∃ fuel r, readFileFull L fs name origin fuel h = some r ∧
        r.copied.length ≤ fs.clusterCount) ↔
      ∃ fuel entry, findFileInRootDirectory h.kernel fs name fuel = some entry ∧
        (entry ≠ 0 → (malloc L (h.kernel.fileSize entry) origin h).1 ≠ 0 →
          NoLoop h.kernel fs (h.kernel.firstClusterLow entry)) := by
  constructor
  · rintro ⟨fuel, r, hrun, hlen⟩
    cases hfind : findFileInRootDirectory h.kernel fs name fuel with
    | none =>
      unfold readFileFull at hrun
      rw [hfind] at hrun
      cases hrun
    | some entry =>
      refine ⟨fuel, entry, hfind, fun hentry hdata => ?_⟩
      have hthis := hclear fuel entry hfind hentry hdata
      obtain ⟨data, h', hmalloc⟩ : ∃ data h',
          malloc L (h.kernel.fileSize entry) origin h = (data, h') := ⟨_, _, rfl⟩
      rw [hmalloc] at hthis hdata
      rw [readFileFull_eq hmalloc hfind hentry hdata, hthis.entry] at hrun
      obtain ⟨s, hs, rfl⟩ := Option.map_eq_some_iff.mp hrun
      exact (readClusters_ends_iff hthis (malloc_mmu hmalloc) _).mp ⟨fuel, s, hs, hlen⟩
  · rintro ⟨fuel, entry, hfind, hloop⟩
    obtain ⟨data, h', hmalloc⟩ : ∃ data h',
        malloc L (h.kernel.fileSize entry) origin h = (data, h') := ⟨_, _, rfl⟩
    by_cases hentry : entry = 0
    · refine ⟨fuel, ⟨0, none, h, []⟩, ?_, Nat.zero_le _⟩
      unfold readFileFull
      rw [hfind]
      exact if_pos hentry
    by_cases hdata : data = 0
    · refine ⟨fuel, ⟨0, none, h', []⟩, ?_, Nat.zero_le _⟩
      unfold readFileFull
      rw [hfind]
      dsimp only
      rw [if_neg hentry, hmalloc]
      exact if_pos hdata
    rw [hmalloc] at hloop
    have hthis := hclear fuel entry hfind hentry
    rw [hmalloc] at hthis
    obtain ⟨rounds, s, hs, hlen⟩ :=
      (readClusters_ends_iff (hthis hdata) (malloc_mmu hmalloc) _).mpr (hloop hentry hdata)
    have hfind' : findFileInRootDirectory h.kernel fs name (fuel + rounds) = some entry :=
      searchLoop_mono hfind rounds
    have hs' := readClusters_mono hs fuel
    rw [Nat.add_comm, ← (hthis hdata).entry] at hs'
    exact ⟨fuel + rounds, _, (readFileFull_eq hmalloc hfind' hentry hdata).trans
      (congrArg _ hs'), hlen⟩

theorem oneByte_clear : ClearOfTable oneBlockHeap.kernel oneByteVolume 0x90002220
    (malloc .small (oneBlockHeap.kernel.fileSize 0x90002220) 0 oneBlockHeap) := by
  obtain ⟨h', hcall, hkeep⟩ := oneBlock_malloc
  have hoff : oneBlockHeap.kernel.mmu = false := by decide
  have hbyte : ∀ x, TableByte oneBlockHeap.kernel oneByteVolume x → 0x90000000 ≤ x := by
    rintro x ⟨id, _, _, hlo, _⟩
    have hfat : oneByteVolume.fat = 0x90000200 := rfl
    rw [hoff, physOf_off, hfat] at hlo
    omega
  rw [oneByte_size, hcall]
  constructor
  · intro hon
    rw [hoff] at hon
    cases hon
  · change 0x80202020 + 4085 * 512 < 2 ^ 64
    decide
  · intro x hx
    exact hkeep x (hbyte x hx)
  · have hsized : malloc .small (oneBlockHeap.kernel.fileSize 0x90002220) 0 oneBlockHeap =
        (0x80202020, h') := by
      rw [oneByte_size]
      exact hcall
    have hmmu := malloc_mmu hsized
    unfold Kernel.firstClusterLow Kernel.load
    rw [hmmu, hoff]
    apply load_congr
    intro x hlo _
    rw [physOf_off] at hlo
    exact hkeep x (by omega)
  · intro x hx
    have hle := hbyte x hx
    have hsize : oneByteVolume.clusterCount * oneByteVolume.clusterSize = 4085 * 512 := rfl
    right
    dsimp only
    rw [hoff, physOf_off, hsize]
    omega

theorem read_file_full_ends_oneByte :
    (∃ fuel r, readFileFull .small oneByteVolume [97] 0 fuel oneBlockHeap = some r ∧
        r.copied.length ≤ oneByteVolume.clusterCount) ↔
      ∃ fuel entry,
        findFileInRootDirectory oneBlockHeap.kernel oneByteVolume [97] fuel = some entry ∧
        (entry ≠ 0 →
          (malloc .small (oneBlockHeap.kernel.fileSize entry) 0 oneBlockHeap).1 ≠ 0 →
          NoLoop oneBlockHeap.kernel oneByteVolume (oneBlockHeap.kernel.firstClusterLow entry)) :=
  read_file_full_ends_iff .small oneBlockHeap oneByteVolume [97] 0 (by
    intro fuel entry hfind _ _
    obtain rfl := searchLoop_unique hfind oneByte_found
    exact oneByte_clear)

/-! ## 4. A file that never ends -/

/-- The same volume, but cluster 2 is linked to itself, and full of the words 2. -/
def loopFile (x : Nat) : UInt8 :=
  if 0x90000204 ≤ x ∧ x < 0x90000206 ∨ 0x90002400 ≤ x ∧ x < 0x90002600 then
    if x % 2 = 0 then 2 else 0
  else oneByteFile x

def loopHeap : Heap := { oneBlockHeap with kernel := ⟨loopFile, 0#64, 0⟩ }

/-- Cluster 2 and its link are full of the words 2. -/
structure Endless (k : Kernel) : Prop where
  off : k.satp = 0
  words : ∀ x, (0x90000204 ≤ x ∧ x < 0x90000206 ∨ 0x90002400 ≤ x ∧ x < 0x90002600) →
    k.mem x = if x % 2 = 0 then 2 else 0

theorem Endless.mmu {k : Kernel} (h : Endless k) : k.mmu = false := by
  rw [Kernel.mmu, h.off]
  rfl

/-- Copies of cluster 2 to even addresses only write words 2. -/
theorem Endless.copy {k : Kernel} (h : Endless k) {n d s : Nat} (hlo : 0x90002400 ≤ s)
    (hhi : s + n ≤ 0x90002600) (heven : d % 2 = s % 2) : Endless (copyLoop n d s k) := by
  induction n generalizing d s k with
  | zero => exact h
  | succ n ih =>
    have hbyte : ∀ x, (k.store 1 d (k.load 1 s)).mem x =
        if x = physOf k.mmu d then k.mem (physOf k.mmu s) else k.mem x := store_byte _ _ _ _
    rw [copyLoop]
    apply ih
    · constructor
      · exact h.off
      · intro x hx
        rw [hbyte, h.mmu, physOf_off, physOf_off]
        by_cases hxd : x = d
        · rw [if_pos hxd, h.words s (by omega), hxd, heven]
        · rw [if_neg hxd, h.words x hx]
    · omega
    · omega
    · omega

theorem Endless.next {k : Kernel} (h : Endless k) : getNextCluster k oneByteVolume 2 = 2 := by
  have hentry : fatEntry k oneByteVolume 2 = 2 := by
    have hlow := h.words 0x90000204 (by omega)
    have hhigh := h.words 0x90000205 (by omega)
    rw [fatEntry, Kernel.load, h.mmu, physOf_off]
    change (k.mem 0x90000204).toNat + 256 * ((k.mem 0x90000205).toNat + 256 * 0) = 2
    rw [hlow, hhigh]
    rfl
  rw [getNextCluster, hentry]
  rfl

theorem Endless.never {s : Reading} (h : Endless s.kernel) {data : Nat} (hdata : data % 2 = 0)
    (fuel i : Nat) : readClusters oneByteVolume data 512 fuel i 2 s = none := by
  induction fuel generalizing i s with
  | zero => rfl
  | succ fuel ih =>
    have hfound : getFatClusterData oneByteVolume 2 = 0x90002400 := by decide
    have hcopied : Endless (s.copy ((data + i * 512) % 2 ^ 64) 0x90002400 512).kernel := by
      apply h.copy
      · omega
      · omega
      · omega
    rw [readClusters_found (by rw [hfound]; decide), hfound, hcopied.next]
    exact ih hcopied (i + 1)

theorem loopFile_found :
    findFileInRootDirectory loopHeap.kernel oneByteVolume [97] 1 = some 0x90002220 := by
  decide +kernel

theorem loopFile_size : loopHeap.kernel.fileSize 0x90002220 = 1 := by decide +kernel

/-- The file whose cluster is linked to itself is read for ever, on a volume that is accepted. -/
theorem read_file_full_never_ends :
    Accepted loopHeap.kernel 0x90000000 0x90200e00 oneByteVolume ∧
    ∀ fuel, readFileFull .small oneByteVolume [97] 0 fuel loopHeap = none := by
  constructor
  · unfold Accepted
    decide +kernel
  · intro fuel
    obtain ⟨h', hmalloc, hkeep⟩ := oneBlock_malloc_of loopFile
    have hmalloc' : malloc .small (loopHeap.kernel.fileSize 0x90002220) 0 loopHeap =
        (0x80202020, h') := by
      rw [loopFile_size]
      exact hmalloc
    cases hfind : findFileInRootDirectory loopHeap.kernel oneByteVolume [97] fuel with
    | none =>
      unfold readFileFull
      rw [hfind]
    | some entry =>
      obtain rfl := searchLoop_unique hfind loopFile_found
      have hsatp : h'.kernel.satp = 0 := by
        have hsame := freeBucketsAlloc_satp .small (loopHeap.kernel.fileSize 0x90002220) 0 loopHeap
        rw [← malloc, hmalloc'] at hsame
        exact hsame
      have hendless : Endless h'.kernel := by
        constructor
        · exact hsatp
        · intro x hx
          have hword : loopFile x = if x % 2 = 0 then 2 else 0 := if_pos hx
          rw [hkeep x (by omega), hword]
      have hfirst : h'.kernel.firstClusterLow 0x90002220 = 2 := by
        rw [Kernel.firstClusterLow, Kernel.load, hendless.mmu, physOf_off]
        change (h'.kernel.mem 0x9000223a).toNat + 256 * ((h'.kernel.mem 0x9000223b).toNat + 256 * 0) = 2
        rw [hkeep _ (by omega), hkeep _ (by omega)]
        decide
      rw [readFileFull_eq hmalloc' hfind (by decide) (by decide), hfirst]
      exact congrArg _ (Endless.never (s := ⟨h'.kernel, []⟩) hendless (by decide) fuel 0)

end IloPali
