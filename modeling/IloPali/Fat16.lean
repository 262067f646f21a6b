import IloPali.Heap

/-!
# The initrd (`fat16.c`, `fat16.h`)

The initrd is a FAT16 volume in memory.  The kernel checks its boot sector, looks for a file in
the root directory by its long name, and reads it cluster by cluster along its chain in the
file allocation table.

The products of the boot sector's fields are computed with 32 bits, signed or unsigned as the
source's types make them.  A loop that need not end has a bound for its steps, and `none` where
it does not end within it.
-/

namespace IloPali

open ByteMemory

/-! ## 1. The volume -/

def ATTR_READ_ONLY : Nat := 0x01
def ATTR_HIDDEN : Nat := 0x02
def ATTR_SYSTEM : Nat := 0x04
def ATTR_VOLUME_ID : Nat := 0x08
def ATTR_LONG_NAME : Nat := ATTR_READ_ONLY ||| ATTR_HIDDEN ||| ATTR_SYSTEM ||| ATTR_VOLUME_ID

def SIGNATURE : Nat := 0xaa55
def FAT12_LIMIT : Nat := 4085
def FAT16_LIMIT : Nat := 65525

/-- `fat16_fs_t`. -/
structure Fat16Fs where
  bytesPerSector : Nat
  sectorsPerCluster : Nat
  clusterCount : Nat
  rootEntryCount : Nat
  bootSector : Nat
  fat : Nat
  rootDir : Nat
  data : Nat
deriving DecidableEq

/-- What `verify_initrd` returns for an image it rejects. -/
def Fat16Fs.zero : Fat16Fs := ⟨0, 0, 0, 0, 0, 0, 0, 0⟩

/-- A product of type `int`. -/
def int32 (n : Nat) : Int := Int.bmod n (2 ^ 32)

/-- `total_sector_count`. -/
def totalSectors (k : Kernel) (start : Nat) : Nat :=
  if k.load 2 (start + 19) = 0 then k.load 4 (start + 32) else k.load 2 (start + 19)

/-- `verify_initrd`; `none` where it divides by zero. -/
def verifyInitrd (k : Kernel) (start end_ : Nat) : Option Fat16Fs :=
  if k.load 2 (start + 0x1fe) ≠ SIGNATURE then some .zero
  else
    let bytesPerSector := k.load 2 (start + 11)
    let sectorsPerCluster := k.load 1 (start + 13)
    let reservedSectorCount := k.load 2 (start + 14)
    let numberOfFats := k.load 1 (start + 16)
    let rootEntryCount := k.load 2 (start + 17)
    let totalSectorCount := totalSectors k start
    let fatSize := k.load 2 (start + 22)
    if fatSize = 0 ∨ totalSectorCount = 0 then some .zero
    else if bytesPerSector = 0 ∨ sectorsPerCluster = 0 then none
    else
      let rootSectorsCount := (rootEntryCount * 32 + (bytesPerSector - 1)) / bytesPerSector
      let dataSectors := (totalSectorCount + 2 ^ 32 -
        (reservedSectorCount + numberOfFats * fatSize + rootSectorsCount) % 2 ^ 32) % 2 ^ 32
      let clusterCount := dataSectors / sectorsPerCluster
      if clusterCount < FAT12_LIMIT ∨ clusterCount ≥ FAT16_LIMIT then some .zero
      else
        let fat := uintptr (start + int32 (reservedSectorCount * bytesPerSector))
        let rootDir := uintptr
          (fat + 2 * Int.tdiv (int32 (numberOfFats * fatSize * bytesPerSector)) 2)
        let data := (rootDir + 32 * rootEntryCount) % 2 ^ 64
        let fatEnd :=
          (data + clusterCount * sectorsPerCluster * bytesPerSector % 2 ^ 32) % 2 ^ 64
        if fatEnd ≠ end_ then some .zero
        else some ⟨bytesPerSector, sectorsPerCluster, clusterCount, rootEntryCount, start, fat,
          rootDir, data⟩

/-- The image is accepted, and `fs` describes the volume. -/
def Accepted (k : Kernel) (start end_ : Nat) (fs : Fat16Fs) : Prop :=
  verifyInitrd k start end_ = some fs ∧ fs ≠ .zero

/-! ## 2. The root directory -/

namespace Kernel

/-- The fields of a `fat_root_dir_entry_t` that are used. -/
def attributes (k : Kernel) (entry : Nat) : Nat := k.load 1 (entry + 11)
def order (k : Kernel) (entry : Nat) : Nat := k.load 1 entry
def firstClusterLow (k : Kernel) (entry : Nat) : Nat := k.load 2 (entry + 26)
def fileSize (k : Kernel) (entry : Nat) : Nat := k.load 4 (entry + 28)

/-- `name1`, `name2` and `name3` of a long-name entry. -/
def nameUnits (k : Kernel) (entry : Nat) : List Nat :=
  (List.range 5).map (fun l => k.load 2 (entry + 1 + 2 * l)) ++
    (List.range 6).map (fun l => k.load 2 (entry + 14 + 2 * l)) ++
    (List.range 2).map fun l => k.load 2 (entry + 28 + 2 * l)

end Kernel

/-- How the comparison of one entry with a name ends. -/
inductive NameMatch where
  | differs
  | ends
  | goesOn (name : List UInt8)

/-- The three loops over the parts of an entry's name.  The name is given from `name[k]` on,
    without its final zero. -/
def matchUnits : List Nat → List UInt8 → NameMatch
  | [], name => .goesOn name
  | u :: units, name =>
    if u ≠ (name.headD 0).toNat then .differs
    else if name.headD 0 = 0 then .ends
    else matchUnits units name.tail

/-- The loop over the entries of a long name, from the `j`-th. -/
def longNameEquals (k : Kernel) (fs : Fat16Fs) : Nat → Nat → List UInt8 → Option Bool
  | 0, _, _ => none
  | fuel + 1, j, name =>
    match matchUnits (k.nameUnits (fs.rootDir + 32 * j)) name with
    | .differs => some false
    | .ends => some true
    | .goesOn name =>
      if k.order (fs.rootDir + 32 * j) &&& 0x40 ≠ 0 then some true
      else longNameEquals k fs fuel ((j + 1) % 2 ^ 16) name

/-- The loop over the root directory, from entry `i`. -/
def searchLoop (k : Kernel) (fs : Fat16Fs) (name : List UInt8) : Nat → Nat → Option Nat
  | 0, _ => none
  | fuel + 1, i =>
    if i < fs.rootEntryCount then
      if k.attributes (fs.rootDir + 32 * i) &&& ATTR_LONG_NAME = ATTR_LONG_NAME then
        match longNameEquals k fs (name.length + 1) i name with
        | none => none
        | some true => some (fs.rootDir + 32 * (i + 1))
        | some false => searchLoop k fs name fuel (((i + 1) % 2 ^ 16 + 1) % 2 ^ 16)
      else searchLoop k fs name fuel ((i + 1) % 2 ^ 16)
    else some 0

/-- `find_file_in_root_directory`. -/
def findFileInRootDirectory (k : Kernel) (fs : Fat16Fs) (name : List UInt8) (fuel : Nat) :
    Option Nat :=
  searchLoop k fs name fuel 0

/-! ## 3. Clusters -/

/-- `get_fat_cluster_data`. -/
def getFatClusterData (fs : Fat16Fs) (clusterId : Nat) : Nat :=
  if clusterId > fs.clusterCount ∨ clusterId < 2 then 0
  else (fs.data + (clusterId - 2) * fs.sectorsPerCluster * fs.bytesPerSector % 2 ^ 32) % 2 ^ 64

/-- `fs->fat[cluster_id]`. -/
def fatEntry (k : Kernel) (fs : Fat16Fs) (clusterId : Nat) : Nat :=
  k.load 2 (fs.fat + 2 * clusterId)

/-- `get_next_cluster`. -/
def getNextCluster (k : Kernel) (fs : Fat16Fs) (clusterId : Nat) : Nat :=
  if clusterId > fs.clusterCount ∨ clusterId < 2 then 0
  else if fatEntry k fs clusterId > (fs.clusterCount + 2) % 2 ^ 32 then 0
  else fatEntry k fs clusterId

/-! ## 4. Reading a file -/

/-- The machine while a file is read.  `copied` is a ghost: the destinations of the copies, as
    pointers and lengths. -/
structure Reading where
  kernel : Kernel
  copied : List (Nat × Nat)

/-- A call of `memcpy`. -/
def Reading.copy (dest src n : Nat) (s : Reading) : Reading :=
  ⟨memcpy dest src n s.kernel, (dest, (dest + n) % 2 ^ 64 - dest) :: s.copied⟩

/-- The loop of `read_file_full`, from the `i`-th cluster. -/
def readClusters (fs : Fat16Fs) (data size : Nat) : Nat → Nat → Nat → Reading → Option Reading
  | 0, _, _, _ => none
  | fuel + 1, i, clusterId, s =>
    let clusterData := getFatClusterData fs clusterId
    if clusterData = 0 then some s
    else
      let s := s.copy ((data + i * size) % 2 ^ 64) clusterData size
      readClusters fs data size fuel (i + 1) (getNextCluster s.kernel fs clusterId) s

/-- The number of bytes in a cluster. -/
def Fat16Fs.clusterSize (fs : Fat16Fs) : Nat := fs.sectorsPerCluster * fs.bytesPerSector

/-- What `read_file_full` returns, and `*size_ptr` if it is set. -/
structure FileRead where
  data : Nat
  size : Option Nat
  heap : Heap
  copied : List (Nat × Nat)

/-- **`read_file_full`**, called from `origin`. -/
def readFileFull (L : Layout) (fs : Fat16Fs) (name : List UInt8) (origin fuel : Nat) (h : Heap) :
    Option FileRead :=
  match findFileInRootDirectory h.kernel fs name fuel with
  | none => none
  | some entry =>
    if entry = 0 then some ⟨0, none, h, []⟩
    else
      let (data, h) := malloc L (h.kernel.fileSize entry) origin h
      if data = 0 then some ⟨0, none, h, []⟩
      else
        match readClusters fs data fs.clusterSize fuel 0 (h.kernel.firstClusterLow entry)
          ⟨h.kernel, []⟩ with
        | none => none
        | some s =>
          some ⟨data, some (s.kernel.fileSize entry), { h with kernel := s.kernel }, s.copied⟩

end IloPali
