import IloPali.Fat16

/-!
# The layout of the volume (`verify_initrd`)

`verify_initrd` computes the four areas of the volume with 32 bits and compares one number, where
the last area ends, with the end of the image.  This module says what follows from that: for the
divisions, for the areas, for the ids of clusters, and for the entries of the file allocation
table.
-/

namespace IloPali

open ByteMemory

/-! ## 1. What is accepted -/

/-- The sizes of the areas in bytes, by the boot sector. -/
def reservedBytes (k : Kernel) (start : Nat) : Nat := k.load 2 (start + 14) * k.load 2 (start + 11)
def fatBytes (k : Kernel) (start : Nat) : Nat :=
  k.load 1 (start + 16) * k.load 2 (start + 22) * k.load 2 (start + 11)
def Fat16Fs.rootBytes (fs : Fat16Fs) : Nat := 32 * fs.rootEntryCount
def Fat16Fs.dataBytes (fs : Fat16Fs) : Nat :=
  fs.clusterCount * fs.sectorsPerCluster * fs.bytesPerSector

/-- The boot sector passes the checks before the divisions. -/
def ReachesDivision (k : Kernel) (start : Nat) : Prop :=
  k.load 2 (start + 0x1fe) = SIGNATURE ∧ k.load 2 (start + 22) ≠ 0 ∧ totalSectors k start ≠ 0

/-- What is known of an image that is accepted. -/
structure Volume (k : Kernel) (start end_ : Nat) (fs : Fat16Fs) : Prop where
  bytesPerSector : fs.bytesPerSector = k.load 2 (start + 11)
  sectorsPerCluster : fs.sectorsPerCluster = k.load 1 (start + 13)
  rootEntryCount : fs.rootEntryCount = k.load 2 (start + 17)
  bytesPerSector_pos : 0 < fs.bytesPerSector
  sectorsPerCluster_pos : 0 < fs.sectorsPerCluster
  clusterCount : FAT12_LIMIT ≤ fs.clusterCount ∧ fs.clusterCount < FAT16_LIMIT
  fat : fs.fat = uintptr (start + int32 (reservedBytes k start))
  rootDir : fs.rootDir = uintptr (fs.fat + 2 * Int.tdiv (int32 (fatBytes k start)) 2)
  data : fs.data = (fs.rootDir + fs.rootBytes) % 2 ^ 64
  ends : end_ = (fs.data + fs.dataBytes % 2 ^ 32) % 2 ^ 64

theorem Accepted.volume {k : Kernel} {start end_ : Nat} {fs : Fat16Fs}
    (h : Accepted k start end_ fs) : Volume k start end_ fs := by
  obtain ⟨hcall, hne⟩ := h
  have hzero : some Fat16Fs.zero ≠ some fs := fun heq => hne (Option.some.inj heq).symm
  unfold verifyInitrd at hcall
  dsimp only at hcall
  split at hcall
  · exact absurd hcall hzero
  · split at hcall
    · exact absurd hcall hzero
    · split at hcall
      · cases hcall
      · rename_i hdiv
        split at hcall
        · exact absurd hcall hzero
        · rename_i hcount
          split at hcall
          · exact absurd hcall hzero
          · rename_i hend
            rw [not_or, Nat.not_lt, ge_iff_le, Nat.not_le] at hcount
            rw [not_or] at hdiv
            obtain rfl := Option.some.inj hcall
            constructor
            · rfl
            · rfl
            · rfl
            · exact Nat.pos_of_ne_zero hdiv.1
            · exact Nat.pos_of_ne_zero hdiv.2
            · exact hcount
            · dsimp only [reservedBytes]
            · dsimp only [fatBytes]
            · dsimp only [Fat16Fs.rootBytes]
            · exact (Decidable.not_not.mp hend).symm

theorem verifyInitrd_none_iff (k : Kernel) (start end_ : Nat) :
    verifyInitrd k start end_ = none ↔
      ReachesDivision k start ∧ (k.load 2 (start + 11) = 0 ∨ k.load 1 (start + 13) = 0) := by
  unfold verifyInitrd ReachesDivision
  dsimp only
  split
  · rename_i hsig
    exact iff_of_false (fun h => by cases h) fun h => hsig h.1.1
  · rename_i hsig
    split
    · rename_i hsizes
      exact iff_of_false (fun h => by cases h) fun h => hsizes.elim h.1.2.1 h.1.2.2
    · rename_i hsizes
      rw [not_or] at hsizes
      split
      · rename_i hdiv
        exact iff_of_true rfl ⟨⟨Decidable.not_not.mp hsig, hsizes⟩, hdiv⟩
      · rename_i hdiv
        refine iff_of_false ?_ fun h => hdiv h.2
        split
        · intro h
          cases h
        · split
          · intro h
            cases h
          · intro h
            cases h

/-! ## 2. The areas -/

/-- The areas of the volume follow one another, and the last one ends where the image does. -/
structure LaidOut (k : Kernel) (start end_ : Nat) (fs : Fat16Fs) : Prop where
  order : start ≤ fs.fat ∧ fs.fat ≤ fs.rootDir ∧ fs.rootDir ≤ fs.data ∧ fs.data ≤ end_
  fats : fs.rootDir = fs.fat + fatBytes k start
  rootDir : fs.data = fs.rootDir + fs.rootBytes
  clusters : end_ = fs.data + fs.dataBytes

/-- `verify_initrd` divides by no zero, and the areas of an image it accepts are laid out. -/
def VolumeChecked (k : Kernel) (start end_ : Nat) : Prop :=
  verifyInitrd k start end_ ≠ none ∧ ∀ fs, Accepted k start end_ fs → LaidOut k start end_ fs

/-- The sizes of the areas fit the integers they are computed with.  Where the reserved sectors do
    not, the pointer wraps around, and all areas must still lie below the end of the address
    space. -/
structure SizesFit (k : Kernel) (start : Nat) (fs : Fat16Fs) : Prop where
  fats : fatBytes k start < 2 ^ 31 ∧ fatBytes k start % 2 = 0
  clusters : fs.dataBytes < 2 ^ 32
  reserved : reservedBytes k start < 2 ^ 31 ∨
    start + reservedBytes k start + fatBytes k start + fs.rootBytes + fs.dataBytes < 2 ^ 32

theorem Kernel.load_lt (k : Kernel) (n ptr : Nat) : k.load n ptr < 256 ^ n :=
  ByteMemory.load_lt _ _ _

theorem reservedBytes_lt (k : Kernel) (start : Nat) : reservedBytes k start < 2 ^ 32 := by
  have hlt : reservedBytes k start < 256 ^ 2 * 256 ^ 2 :=
    Nat.mul_lt_mul'' (k.load_lt 2 _) (k.load_lt 2 _)
  omega

theorem fatBytes_lt (k : Kernel) (start : Nat) : fatBytes k start < 2 ^ 40 := by
  have hlt : fatBytes k start < 256 ^ 1 * 256 ^ 2 * 256 ^ 2 :=
    Nat.mul_lt_mul'' (Nat.mul_lt_mul'' (k.load_lt 1 _) (k.load_lt 2 _)) (k.load_lt 2 _)
  omega

section Areas

variable {k : Kernel} {start end_ : Nat} {fs : Fat16Fs}

theorem Volume.rootBytes_lt (h : Volume k start end_ fs) : fs.rootBytes < 2 ^ 21 := by
  have hlt := k.load_lt 2 (start + 17)
  rw [← h.rootEntryCount] at hlt
  rw [Fat16Fs.rootBytes]
  omega

theorem Volume.dataBytes_lt (h : Volume k start end_ fs) : fs.dataBytes < 2 ^ 40 := by
  have hspc := k.load_lt 1 (start + 13)
  have hbps := k.load_lt 2 (start + 11)
  rw [← h.sectorsPerCluster] at hspc
  rw [← h.bytesPerSector] at hbps
  have hlt : fs.dataBytes < FAT16_LIMIT * 256 ^ 1 * 256 ^ 2 :=
    Nat.mul_lt_mul'' (Nat.mul_lt_mul'' h.clusterCount.2 hspc) hbps
  rw [FAT16_LIMIT] at hlt
  omega

/-- What an `int` makes of a product. -/
theorem int32_cases (n : Nat) :
    -2 ^ 31 ≤ int32 n ∧ int32 n < 2 ^ 31 ∧ (int32 n - n) % 2 ^ 32 = 0 := by
  unfold int32 Int.bmod
  dsimp only
  split
  · omega
  · omega

theorem two_mul_tdiv (z : Int) :
    2 * Int.tdiv z 2 = if 0 ≤ z then z - z % 2 else z + z % 2 := by
  split
  · rename_i hz
    rw [Int.tdiv_eq_ediv_of_nonneg hz]
    omega
  · rename_i hz
    have hneg : Int.tdiv z 2 = -((-z) / 2) := by
      rw [← Int.tdiv_eq_ediv_of_nonneg (by omega), Int.neg_tdiv, Int.neg_neg]
    rw [hneg]
    omega

/-- The same comparison for plain numbers. -/
theorem laidOut_iff_sizes {s e f r d A P R X : Nat} {a p : Int} (hle : s ≤ e) (hA : A < 2 ^ 32)
    (hP : P < 2 ^ 40) (hR : R < 2 ^ 21) (hX : X < 2 ^ 40) (ha : -2 ^ 31 ≤ a ∧ a < 2 ^ 31)
    (haA : (a - A) % 2 ^ 32 = 0) (hp : -2 ^ 31 ≤ p ∧ p < 2 ^ 31) (hpP : (p - P) % 2 ^ 32 = 0)
    (hf : f = ((s + a) % 2 ^ 64).toNat)
    (hr : r = ((f + if 0 ≤ p then p - p % 2 else p + p % 2) % 2 ^ 64).toNat)
    (hd : d = (r + R) % 2 ^ 64) (he : e = (d + X % 2 ^ 32) % 2 ^ 64) :
    (s ≤ f ∧ r = f + P ∧ d = r + R ∧ e = d + X) ↔
      (P < 2 ^ 31 ∧ P % 2 = 0) ∧ X < 2 ^ 32 ∧ (A < 2 ^ 31 ∨ s + A + P + R + X < 2 ^ 32) := by
  constructor
  · rintro ⟨h1, h2, h3, h4⟩
    have hx : X < 2 ^ 32 := by
      clear hf hr hd haA hpP
      omega
    have hpp : P < 2 ^ 31 ∧ P % 2 = 0 := by
      clear hf hd he haA
      split at hr
      · omega
      · omega
    have hlt : e < 2 ^ 64 := by
      rw [he]
      exact Nat.mod_lt _ (by decide)
    refine ⟨hpp, hx, ?_⟩
    clear hr hd he
    omega
  · rintro ⟨⟨hp1, hp2⟩, hx, hres⟩
    have hpe : p = P := by
      clear hf hr hd he haA
      omega
    rw [hpe, if_pos (by omega)] at hr
    have hr' : r = (f + P) % 2 ^ 64 := by
      clear hf hd he haA hpP
      omega
    have hs : s < 2 ^ 64 ∧ f < 2 ^ 64 := by omega
    have hx' : X % 2 ^ 32 = X := Nat.mod_eq_of_lt hx
    rw [hx'] at he
    clear hr hpP hpe hx' hP
    rcases hres with hres | hres
    · have hf' : f = (s + A) % 2 ^ 64 := by omega
      clear hf haA
      omega
    · rcases Nat.lt_or_ge A (2 ^ 31) with hA' | hA'
      · have hf' : f = (s + A) % 2 ^ 64 := by omega
        clear hf haA
        omega
      · have hf' : f = s + A + (2 ^ 64 - 2 ^ 32) := by omega
        clear hf haA
        omega

theorem Volume.laidOut_iff (h : Volume k start end_ fs) (hle : start ≤ end_) :
    LaidOut k start end_ fs ↔ SizesFit k start fs := by
  have hA := reservedBytes_lt k start
  have hP := fatBytes_lt k start
  have hR := h.rootBytes_lt
  have hX := h.dataBytes_lt
  obtain ⟨hA1, hA2, hA3⟩ := int32_cases (reservedBytes k start)
  obtain ⟨hP1, hP2, hP3⟩ := int32_cases (fatBytes k start)
  have hroot := h.rootDir
  rw [two_mul_tdiv] at hroot
  have hsizes := laidOut_iff_sizes hle hA hP hR hX ⟨hA1, hA2⟩ hA3 ⟨hP1, hP2⟩ hP3 h.fat hroot h.data
    h.ends
  constructor
  · intro hlaid
    obtain ⟨hfats, hclusters, hreserved⟩ :=
      hsizes.mp ⟨hlaid.order.1, hlaid.fats, hlaid.rootDir, hlaid.clusters⟩
    exact ⟨hfats, hclusters, hreserved⟩
  · intro hfit
    obtain ⟨hstart, hfats, hdata, hend⟩ := hsizes.mpr ⟨hfit.fats, hfit.clusters, hfit.reserved⟩
    exact ⟨⟨hstart, by omega, by omega, by omega⟩, hfats, hdata, hend⟩

end Areas

/-- **When the layout of a volume is checked**: no divisor is zero, and the sizes of the areas fit
    their integers. -/
theorem verify_initrd_checked_iff (k : Kernel) (start end_ : Nat) (hle : start ≤ end_) :
    VolumeChecked k start end_ ↔
      (ReachesDivision k start → k.load 2 (start + 11) ≠ 0 ∧ k.load 1 (start + 13) ≠ 0) ∧
        ∀ fs, Accepted k start end_ fs → SizesFit k start fs := by
  unfold VolumeChecked
  rw [ne_eq, verifyInitrd_none_iff]
  constructor
  · rintro ⟨hdiv, hlaid⟩
    constructor
    · intro hreach
      exact not_or.mp fun hzero => hdiv ⟨hreach, hzero⟩
    · intro fs hacc
      exact (hacc.volume.laidOut_iff hle).mp (hlaid fs hacc)
  · rintro ⟨hdiv, hfit⟩
    constructor
    · rintro ⟨hreach, hzero⟩
      exact not_or.mpr (hdiv hreach) hzero
    · intro fs hacc
      exact (hacc.volume.laidOut_iff hle).mpr (hfit fs hacc)

/-- A boot sector at `0x90000000` with no sectors in a cluster. -/
def noClusters (x : Nat) : UInt8 :=
  if x = 0x9000000c then 2
  else if x = 0x90000013 ∨ x = 0x90000016 then 16
  else if x = 0x900001fe then 0x55
  else if x = 0x900001ff then 0xaa
  else 0

/-- A boot sector with sectors of one byte and one table of one sector. -/
def oneByteSectors (x : Nat) : UInt8 :=
  if x = 0x9000000b ∨ x = 0x9000000d ∨ x = 0x90000010 ∨ x = 0x90000016 then 1
  else if x = 0x90000013 then 0xf6
  else if x = 0x90000014 then 0x0f
  else if x = 0x900001fe then 0x55
  else if x = 0x900001ff then 0xaa
  else 0

def oneByteSectorVolume : Fat16Fs :=
  ⟨1, 1, 4085, 0, 0x90000000, 0x90000000, 0x90000000, 0x90000000⟩

theorem oneByteSectors_accepted :
    Accepted ⟨oneByteSectors, 0#64, 0⟩ 0x90000000 0x90000ff5 oneByteSectorVolume := by
  unfold Accepted
  decide +kernel

theorem verify_initrd_checked_noClusters :
    VolumeChecked ⟨noClusters, 0#64, 0⟩ 0x90000000 0x90200000 ↔
      (ReachesDivision ⟨noClusters, 0#64, 0⟩ 0x90000000 →
        Kernel.load ⟨noClusters, 0#64, 0⟩ 2 (0x90000000 + 11) ≠ 0 ∧
          Kernel.load ⟨noClusters, 0#64, 0⟩ 1 (0x90000000 + 13) ≠ 0) ∧
        ∀ fs, Accepted ⟨noClusters, 0#64, 0⟩ 0x90000000 0x90200000 fs →
          SizesFit ⟨noClusters, 0#64, 0⟩ 0x90000000 fs :=
  verify_initrd_checked_iff _ _ _ (by decide)

/-- With no sectors in a cluster there is a division by zero; and with sectors of one byte the root
    directory starts where the file allocation table does. -/
theorem verify_initrd_unchecked :
    ¬ VolumeChecked ⟨noClusters, 0#64, 0⟩ 0x90000000 0x90200000 ∧
    ∃ fs, Accepted ⟨oneByteSectors, 0#64, 0⟩ 0x90000000 0x90000ff5 fs ∧
      ¬ LaidOut ⟨oneByteSectors, 0#64, 0⟩ 0x90000000 0x90000ff5 fs := by
  constructor
  · intro hchecked
    exact hchecked.1 (by decide +kernel)
  · refine ⟨oneByteSectorVolume, oneByteSectors_accepted, fun hlaid => ?_⟩
    have hfats := hlaid.fats
    have hone : fatBytes ⟨oneByteSectors, 0#64, 0⟩ 0x90000000 = 1 := by decide +kernel
    rw [hone] at hfats
    exact absurd hfats (by decide)

/-! ## 3. Cluster ids -/

/-- The byte at `x` belongs to the cluster that `get_fat_cluster_data` points to. -/
def ClusterByte (fs : Fat16Fs) (id x : Nat) : Prop :=
  getFatClusterData fs id ≤ x ∧ x < getFatClusterData fs id + fs.clusterSize

/-- No product of the layout overflows. -/
structure NoOverflow (k : Kernel) (start : Nat) (fs : Fat16Fs) : Prop where
  reserved : reservedBytes k start < 2 ^ 31
  fats : fatBytes k start < 2 ^ 31
  clusters : fs.dataBytes < 2 ^ 32

/-- The id is accepted if it names a cluster of the volume, and then the cluster lies in the data
    area and apart from all others. -/
structure IdChecked (fs : Fat16Fs) (end_ id : Nat) : Prop where
  valid : getFatClusterData fs id ≠ 0 ↔ 2 ≤ id ∧ id ≤ fs.clusterCount + 1
  inside : getFatClusterData fs id ≠ 0 → ∀ x, ClusterByte fs id x → fs.data ≤ x ∧ x < end_
  apart : getFatClusterData fs id ≠ 0 → ∀ id', id' ≠ id → getFatClusterData fs id' ≠ 0 →
    ∀ x, ClusterByte fs id x → ¬ ClusterByte fs id' x

theorem getFatClusterData_bounds {fs : Fat16Fs} {id : Nat} (h : getFatClusterData fs id ≠ 0) :
    2 ≤ id ∧ id ≤ fs.clusterCount := by
  unfold getFatClusterData at h
  split at h
  · exact absurd rfl h
  · omega

/-- The last cluster of the volume is never found. -/
theorem getFatClusterData_last (fs : Fat16Fs) : getFatClusterData fs (fs.clusterCount + 1) = 0 :=
  if_pos (Or.inl (Nat.lt_succ_self _))

section Ids

variable {k : Kernel} {start end_ : Nat} {fs : Fat16Fs}

/-- Without overflow the data area ends where the image does. -/
theorem Volume.data_end (h : Volume k start end_ fs) (hfit : NoOverflow k start fs)
    (hle : start ≤ end_) : start ≤ fs.data ∧ end_ = fs.data + fs.dataBytes ∧ end_ < 2 ^ 64 := by
  have hR := h.rootBytes_lt
  have hA := hfit.reserved
  have hP := hfit.fats
  have hX := hfit.clusters
  obtain ⟨hA1, hA2, hA3⟩ := int32_cases (reservedBytes k start)
  obtain ⟨hP1, hP2, hP3⟩ := int32_cases (fatBytes k start)
  have hroot := h.rootDir
  have hfat := h.fat
  have hdata := h.data
  have hend := h.ends
  have hAe : int32 (reservedBytes k start) = reservedBytes k start := by omega
  have hPe : int32 (fatBytes k start) = fatBytes k start := by omega
  rw [hAe, uintptr] at hfat
  rw [two_mul_tdiv, hPe, if_pos (by omega), uintptr] at hroot
  rw [Nat.mod_eq_of_lt hX] at hend
  clear hA1 hA2 hA3 hP1 hP2 hP3 hAe hPe
  omega

theorem dataBytes_eq (fs : Fat16Fs) : fs.dataBytes = fs.clusterCount * fs.clusterSize :=
  Nat.mul_assoc _ _ _

theorem Volume.clusterSize_pos (h : Volume k start end_ fs) : 0 < fs.clusterSize :=
  Nat.mul_pos h.sectorsPerCluster_pos h.bytesPerSector_pos

/-- Where a cluster that is found lies. -/
theorem Volume.clusterData (h : Volume k start end_ fs) (hfit : NoOverflow k start fs)
    (hle : start ≤ end_) {id : Nat} (h2 : 2 ≤ id) (hid : id ≤ fs.clusterCount) :
    getFatClusterData fs id = fs.data + (id - 2) * fs.clusterSize ∧
      getFatClusterData fs id + fs.clusterSize ≤ end_ := by
  obtain ⟨hstart, hend, hlt⟩ := h.data_end hfit hle
  have hpos := h.clusterSize_pos
  have hX := hfit.clusters
  have hmul : (id - 2 + 2) * fs.clusterSize ≤ fs.clusterCount * fs.clusterSize :=
    Nat.mul_le_mul_right _ (by omega)
  rw [Nat.add_mul] at hmul
  rw [dataBytes_eq] at hend hX
  have hcall : getFatClusterData fs id = fs.data + (id - 2) * fs.clusterSize := by
    unfold getFatClusterData
    rw [if_neg (by omega), Nat.mul_assoc, ← Fat16Fs.clusterSize, Nat.mod_eq_of_lt (by omega),
      Nat.mod_eq_of_lt (by omega)]
  rw [hcall]
  exact ⟨rfl, by omega⟩

theorem Volume.found_iff (h : Volume k start end_ fs) (hfit : NoOverflow k start fs)
    (hle : start ≤ end_) (hstart : start ≠ 0) (id : Nat) :
    getFatClusterData fs id ≠ 0 ↔ 2 ≤ id ∧ id ≤ fs.clusterCount := by
  constructor
  · exact getFatClusterData_bounds
  · rintro ⟨h2, hid⟩
    have hdata := (h.data_end hfit hle).1
    rw [(h.clusterData hfit hle h2 hid).1]
    omega

/-- Clusters are apart. -/
theorem Volume.apart (h : Volume k start end_ fs) (hfit : NoOverflow k start fs)
    (hle : start ≤ end_) {id id' : Nat} (hid : getFatClusterData fs id ≠ 0)
    (hid' : getFatClusterData fs id' ≠ 0) (hne : id' ≠ id) (x : Nat) :
    ClusterByte fs id x → ¬ ClusterByte fs id' x := by
  obtain ⟨h2, hc⟩ := getFatClusterData_bounds hid
  obtain ⟨h2', hc'⟩ := getFatClusterData_bounds hid'
  rintro ⟨hx1, hx2⟩ ⟨hx3, hx4⟩
  rw [(h.clusterData hfit hle h2 hc).1] at hx1 hx2
  rw [(h.clusterData hfit hle h2' hc').1] at hx3 hx4
  rcases Nat.lt_or_gt_of_ne hne with hlt | hlt
  · have hmul : (id' - 2 + 1) * fs.clusterSize ≤ (id - 2) * fs.clusterSize :=
      Nat.mul_le_mul_right _ (by omega)
    rw [Nat.succ_mul] at hmul
    omega
  · have hmul : (id - 2 + 1) * fs.clusterSize ≤ (id' - 2) * fs.clusterSize :=
      Nat.mul_le_mul_right _ (by omega)
    rw [Nat.succ_mul] at hmul
    omega

end Ids

/-- **Which cluster ids are checked right**: all but the last one of the volume, and the bytes that
    belong to some id are those before that cluster. -/
theorem cluster_ids_checked_iff (k : Kernel) (start end_ : Nat) (fs : Fat16Fs) (hle : start ≤ end_)
    (hstart : start ≠ 0) (hacc : Accepted k start end_ fs) (hfit : NoOverflow k start fs) :
    (∀ id, id < 2 ^ 32 → (IdChecked fs end_ id ↔ id ≠ fs.clusterCount + 1)) ∧
      ∀ x, fs.data ≤ x → x < end_ →
        ((∃ id, id < 2 ^ 32 ∧ getFatClusterData fs id ≠ 0 ∧ ClusterByte fs id x) ↔
          x + fs.clusterSize < end_) := by
  have hvol := hacc.volume
  have hcount := hvol.clusterCount.2
  have hpos := hvol.clusterSize_pos
  obtain ⟨hdata, hend, hlt⟩ := hvol.data_end hfit hle
  rw [dataBytes_eq] at hend
  rw [FAT16_LIMIT] at hcount
  constructor
  · intro id _
    constructor
    · rintro hchecked rfl
      exact hchecked.valid.mpr ⟨by have := hvol.clusterCount.1; rw [FAT12_LIMIT] at this; omega,
        le_refl _⟩ (getFatClusterData_last fs)
    · intro hne
      constructor
      · rw [hvol.found_iff hfit hle hstart]
        omega
      · intro hfound x hx
        obtain ⟨h2, hid⟩ := getFatClusterData_bounds hfound
        obtain ⟨heq, hin⟩ := hvol.clusterData hfit hle h2 hid
        obtain ⟨hx1, hx2⟩ := hx
        omega
      · intro hfound id' hne' hfound' x
        exact hvol.apart hfit hle hfound hfound' hne' x
  · intro x hx hxe
    constructor
    · rintro ⟨id, _, hfound, hx1, hx2⟩
      obtain ⟨h2, hid⟩ := getFatClusterData_bounds hfound
      rw [(hvol.clusterData hfit hle h2 hid).1] at hx2
      have hmul : (id - 2 + 2) * fs.clusterSize ≤ fs.clusterCount * fs.clusterSize :=
        Nat.mul_le_mul_right _ (by omega)
      rw [Nat.add_mul] at hmul
      omega
    · intro hbefore
      -- the number of the cluster is the quotient of the offset
      have hdiv := Nat.div_add_mod (x - fs.data) fs.clusterSize
      have hmod := Nat.mod_lt (x - fs.data) hpos
      generalize (x - fs.data) / fs.clusterSize = q at hdiv
      generalize (x - fs.data) % fs.clusterSize = t at hdiv hmod
      have hq : (q + 1) * fs.clusterSize < fs.clusterCount * fs.clusterSize := by
        rw [Nat.succ_mul, Nat.mul_comm q]
        omega
      have hq' := Nat.lt_of_mul_lt_mul_right hq
      have h2 : 2 ≤ q + 2 := by omega
      refine ⟨q + 2, by omega, (hvol.found_iff hfit hle hstart _).mpr ⟨h2, by omega⟩, ?_⟩
      rw [ClusterByte, (hvol.clusterData hfit hle h2 (by omega)).1, Nat.add_sub_cancel,
        Nat.mul_comm q]
      omega

theorem oneByteSectors_fits : NoOverflow ⟨oneByteSectors, 0#64, 0⟩ 0x90000000 oneByteSectorVolume := by
  constructor
  · decide +kernel
  · decide +kernel
  · decide +kernel

theorem cluster_ids_checked_oneByteSectors :
    (∀ id, id < 2 ^ 32 → (IdChecked oneByteSectorVolume 0x90000ff5 id ↔
        id ≠ oneByteSectorVolume.clusterCount + 1)) ∧
      ∀ x, oneByteSectorVolume.data ≤ x → x < 0x90000ff5 →
        ((∃ id, id < 2 ^ 32 ∧ getFatClusterData oneByteSectorVolume id ≠ 0 ∧
            ClusterByte oneByteSectorVolume id x) ↔
          x + oneByteSectorVolume.clusterSize < 0x90000ff5) :=
  cluster_ids_checked_iff ⟨oneByteSectors, 0#64, 0⟩ 0x90000000 0x90000ff5 _ (by decide) (by decide)
    oneByteSectors_accepted oneByteSectors_fits

/-- The id 4086 names the last of 4085 clusters, and is rejected. -/
theorem cluster_ids_unchecked :
    Accepted ⟨oneByteSectors, 0#64, 0⟩ 0x90000000 0x90000ff5 oneByteSectorVolume ∧
    NoOverflow ⟨oneByteSectors, 0#64, 0⟩ 0x90000000 oneByteSectorVolume ∧
    ¬ ∀ id, id < 2 ^ 32 → IdChecked oneByteSectorVolume 0x90000ff5 id := by
  refine ⟨oneByteSectors_accepted, oneByteSectors_fits, fun hall => ?_⟩
  exact (hall 4086 (by decide)).valid.mpr (by decide) (by decide)

/-! ## 4. Entries of the table -/

/-- The number of whole entries in one file allocation table. -/
def fatEntries (k : Kernel) (start : Nat) : Nat :=
  k.load 2 (start + 22) * k.load 2 (start + 11) / 2

/-- A byte of the first `n` entries of the file allocation table. -/
def FatByte (k : Kernel) (fs : Fat16Fs) (n x : Nat) : Prop :=
  ∃ i, i < n ∧ physOf k.mmu (fs.fat + 2 * i) ≤ x ∧ x < physOf k.mmu (fs.fat + 2 * i) + 2

/-- `get_next_cluster` looks at the first `n` entries of the table only: whatever the rest of memory
    holds, the result is the same. -/
def LooksUpInside (k : Kernel) (fs : Fat16Fs) (n : Nat) : Prop :=
  ∀ id, id < 2 ^ 32 → ∀ m : Mem, (∀ x, FatByte k fs n x → m x = k.mem x) →
    getNextCluster { k with mem := m } fs id = getNextCluster k fs id

/-- Different entries are apart, whichever way the table is reached. -/
theorem entries_apart {mmu : Bool} {fat i j : Nat} (hij : i < j) (hj : j < 2 ^ 32) :
    physOf mmu (fat + 2 * i) + 2 ≤ physOf mmu (fat + 2 * j) ∨
      physOf mmu (fat + 2 * j) + 2 ≤ physOf mmu (fat + 2 * i) := by
  unfold physOf safe2phys
  rw [KERNEL_SPACE_OFFSET]
  cases mmu with
  | false =>
    simp only [Bool.false_eq_true, false_and, if_false]
    omega
  | true =>
    simp only [true_and]
    split
    · split
      · omega
      · omega
    · split
      · omega
      · omega

/-- An entry that holds the same byte twice. -/
theorem load_two {m : Mem} {p : Nat} {b : UInt8} (h : ∀ x, p ≤ x → x < p + 2 → m x = b) :
    ByteMemory.load m 2 p = b.toNat + 256 * b.toNat := by
  simp only [ByteMemory.load]
  rw [h p (le_refl p) (by omega), h (p + 1) (by omega) (by omega)]
  omega

/-- **When lookups stay inside the table**: it has an entry for every cluster that is looked up. -/
theorem fat_lookups_inside_iff (k : Kernel) (start end_ : Nat) (fs : Fat16Fs)
    (hacc : Accepted k start end_ fs) :
    LooksUpInside k fs (fatEntries k start) ↔ fs.clusterCount < fatEntries k start := by
  obtain ⟨hlow, hhigh⟩ := hacc.volume.clusterCount
  rw [FAT12_LIMIT] at hlow
  rw [FAT16_LIMIT] at hhigh
  have hmod : (fs.clusterCount + 2) % 2 ^ 32 = fs.clusterCount + 2 := by omega
  constructor
  · intro hinside
    by_contra hshort
    -- two memories that differ behind the table only
    obtain ⟨p, hp⟩ : ∃ p, p = physOf k.mmu (fs.fat + 2 * fs.clusterCount) := ⟨_, rfl⟩
    have hvalue : ∀ b : UInt8, b.toNat < 2 →
        getNextCluster k fs fs.clusterCount = b.toNat + 256 * b.toNat := by
      intro b hb
      have hentry : fatEntry { k with mem := patch k.mem p 2 fun _ => b } fs fs.clusterCount =
          b.toNat + 256 * b.toNat := by
        apply load_two
        change ∀ x, physOf k.mmu (fs.fat + 2 * fs.clusterCount) ≤ x →
          x < physOf k.mmu (fs.fat + 2 * fs.clusterCount) + 2 → _
        rw [← hp]
        intro x h1 h2
        exact patch_inside k.mem (fun _ => b) h1 h2
      rw [← hinside fs.clusterCount (by omega) (patch k.mem p 2 fun _ => b) _]
      · rw [getNextCluster, hentry, if_neg (by omega), hmod, if_neg (by omega)]
      · rintro x ⟨i, hi, h1, h2⟩
        have happ := @entries_apart k.mmu fs.fat i fs.clusterCount (by omega) (by omega)
        rw [← hp] at happ
        exact patch_outside _ _ (by omega)
    have h0 := hvalue 0 (by decide)
    have h1 := hvalue 1 (by decide)
    rw [h0] at h1
    exact absurd h1 (by decide)
  · intro hlong id _ m hsame
    unfold getNextCluster
    by_cases hid : id > fs.clusterCount ∨ id < 2
    · rw [if_pos hid, if_pos hid]
    · have hentry : fatEntry { k with mem := m } fs id = fatEntry k fs id := by
        apply load_congr
        intro x h1 h2
        exact hsame x ⟨id, by omega, h1, h2⟩
      rw [hentry]

theorem fat_lookups_inside_oneByteSectors :
    LooksUpInside ⟨oneByteSectors, 0#64, 0⟩ oneByteSectorVolume
        (fatEntries ⟨oneByteSectors, 0#64, 0⟩ 0x90000000) ↔
      oneByteSectorVolume.clusterCount < fatEntries ⟨oneByteSectors, 0#64, 0⟩ 0x90000000 :=
  fat_lookups_inside_iff _ _ _ _ oneByteSectors_accepted

/-- A table of one byte has no entry at all, and still the image is accepted. -/
theorem fat_lookups_outside :
    Accepted ⟨oneByteSectors, 0#64, 0⟩ 0x90000000 0x90000ff5 oneByteSectorVolume ∧
    ¬ LooksUpInside ⟨oneByteSectors, 0#64, 0⟩ oneByteSectorVolume
      (fatEntries ⟨oneByteSectors, 0#64, 0⟩ 0x90000000) := by
  refine ⟨oneByteSectors_accepted, fun hinside => ?_⟩
  have hnone : fatEntries ⟨oneByteSectors, 0#64, 0⟩ 0x90000000 = 0 := by decide +kernel
  rw [hnone] at hinside
  -- cluster 6 is linked by a byte of the boot sector
  have hnext := hinside 6 (by decide) (fun _ => 0) fun x hx => by
    obtain ⟨i, hi, _⟩ := hx
    exact absurd hi (Nat.not_lt_zero i)
  exact absurd hnext (by decide +kernel)

end IloPali
