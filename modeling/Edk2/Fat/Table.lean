import Edk2.Base
import Edk2.Lib.Bytes

/-!
# The file allocation table

The table of a FAT12, FAT16 or FAT32 volume, as `FatPkg/EnhancedFatDxe/FileSpace.c` reads and writes
it: one entry at a time, through a buffer of the volume. A FAT12 entry is twelve bits, so two
neighbours share a byte; a FAT32 entry is 28 bits, below four that are kept. The disk is what
`FatDiskIo` shows of it: its accesses succeed inside the volume and fail outside.

## Main results

* `fatGetFatEntry_eq`: the value read is `entryAt`
* `rawEntry_putEntry_self`, `rawEntry_putEntry_of_ne`: what a write does to the entry and to others
* `fatSetFatEntry_spec`: the table after `FatSetFatEntry`
-/

namespace Edk2.Fat

/-- `FAT_VOLUME_TYPE`. -/
inductive FatType
  | fat12
  | fat16
  | fat32
  deriving DecidableEq, Repr

/-- What the boot sector says of a volume, in the fields of `FAT_VOLUME`. The number of sectors is
a 32-bit number, and some of them are in front of the clusters; `FatOpenDevice` chooses the type of
a smaller volume by its cluster count. -/
structure Layout where
  fatType : FatType
  maxCluster : ℕ
  fatPos : ℕ
  rootPos : ℕ
  firstClusterPos : ℕ
  volumeSize : ℕ
  clusterAlignment : ℕ
  dirtyValue : ℕ
  maxCluster_lt : maxCluster + 2 < 2 ^ 32
  maxCluster_fat12 : fatType = .fat12 → maxCluster < 0xFF5
  maxCluster_fat16 : fatType = .fat16 → maxCluster < 0xFFF5
  clusterAlignment_le : clusterAlignment ≤ 19

/-- The disk, and the fields of `FAT_VOLUME` that change. -/
structure Volume where
  disk : Memory
  diskError : Bool
  fatEntryPos : ℕ
  fatEntryBuffer : ℕ
  fatDirty : Bool
  freeInfoValid : Bool
  clusterCount : ℕ
  nextCluster : ℕ

def fatClusterSpecialExt : ℕ := 0xFFFFFFFFFFFFFFF0

def fatClusterSpecial : ℕ := 0xFFFFFFFFFFFFFFF7

def fatClusterFree : ℕ := 0

/-- `(UINTN) FAT_CLUSTER_LAST`. -/
def fatClusterLast : ℕ := 0xFFFFFFFFFFFFFFFF

def fatMinCluster : ℕ := 2

def FatEndOfFatChain (cluster : ℕ) : Prop := fatClusterSpecial < cluster

instance (cluster : ℕ) : Decidable (FatEndOfFatChain cluster) := inferInstanceAs (Decidable (_ < _))

namespace Layout

variable (g : Layout)

/-- `Volume->ClusterSize`. -/
def clusterSize : ℕ := 2 ^ g.clusterAlignment

/-- `Volume->FatEntrySize`. -/
def fatEntrySize : ℕ :=
  match g.fatType with
  | .fat12 => 2
  | .fat16 => 2
  | .fat32 => 4

/-- `FAT_POS_FAT12`, `FAT_POS_FAT16`, `FAT_POS_FAT32`. -/
def fatPosOf (index : ℕ) : ℕ :=
  match g.fatType with
  | .fat12 => index * 3 / 2
  | .fat16 => index * 2
  | .fat32 => index * 4

/-- Where entry `index` is on the disk. -/
def entryPos (index : ℕ) : ℕ := g.fatPos + g.fatPosOf index

/-- The entry is one of the table and inside the volume. -/
def Readable (index : ℕ) : Prop :=
  index ≤ g.maxCluster + 1 ∧ g.entryPos index + g.fatEntrySize ≤ g.volumeSize

instance (index : ℕ) : Decidable (g.Readable index) := inferInstanceAs (Decidable (_ ∧ _))

end Layout

variable (g : Layout)

/-! ## The functions -/

/-- `FatDiskIo` with `ReadFat`. -/
def readFat (v : Volume) (offset size : ℕ) : Option ℕ × Volume :=
  if offset + size ≤ g.volumeSize then (some (le v.disk offset size), v)
  else (none, { v with diskError := true })

/-- `FatDiskIo` with `WriteFat`. -/
def writeFat (v : Volume) (offset size buffer : ℕ) : EfiStatus × Volume :=
  if offset + size ≤ g.volumeSize then
    (.success, { v with disk := storeBytes v.disk offset (leBytes size buffer) })
  else (.volumeCorrupted, { v with diskError := true })

def fatLoadFatEntry (v : Volume) (index : ℕ) : Volume :=
  if g.maxCluster + 1 < index then { v with fatEntryBuffer := 0xFFFFFFFF }
  else
    let v := { v with fatEntryPos := g.entryPos index }
    match readFat g v v.fatEntryPos g.fatEntrySize with
    | (some entry, v) => { v with fatEntryBuffer := entry }
    | (none, v) => { v with fatEntryBuffer := 0xFFFFFFFF }

def rawOf (index buffer : ℕ) : ℕ :=
  match g.fatType with
  | .fat12 =>
    let accum := buffer % 2 ^ 16
    if index % 2 = 1 then accum >>> 4 else accum &&& 0xFFF
  | .fat16 => buffer % 2 ^ 16
  | .fat32 => buffer

/-- The value of an entry, from its bits. The upper values stand for the special ones. -/
def widen (raw : ℕ) : ℕ :=
  match g.fatType with
  | .fat12 => raw ||| (if 0xFF7 ≤ raw then fatClusterSpecialExt else 0)
  | .fat16 => raw ||| (if 0xFFF7 ≤ raw then fatClusterSpecialExt else 0)
  | .fat32 =>
    let accum := raw &&& 0x0FFFFFFF
    accum ||| (if 0x0FFFFFF7 ≤ accum then fatClusterSpecialExt else 0)

def fatGetFatEntry (v : Volume) (index : ℕ) : ℕ × Volume :=
  let v := fatLoadFatEntry g v index
  if g.maxCluster + 1 < index then (0xFFFFFFFFFFFFFFFF, v)
  else (widen g (rawOf g index v.fatEntryBuffer), v)

def encode (index buffer value : ℕ) : ℕ :=
  match g.fatType with
  | .fat12 =>
    let accum := buffer % 2 ^ 16
    let value := value &&& 0xFFF
    if index % 2 = 1 then value <<< 4 ||| accum &&& 0xF else value ||| accum &&& 0xF000
  | .fat16 => value % 2 ^ 16
  | .fat32 => buffer &&& 0xF0000000 ||| value &&& 0x0FFFFFFF

/-- `FatAccessVolumeDirty` with `WriteFat` and `Volume->DirtyValue`. -/
def fatAccessVolumeDirty (v : Volume) : Volume :=
  (writeFat g v (g.fatPos + g.fatEntrySize) g.fatEntrySize g.dirtyValue).2

/-- The free cluster count and the next free cluster, when an entry changes from `original`. -/
def countEntry (v : Volume) (index original value : ℕ) : Volume :=
  if value = fatClusterFree ∧ original ≠ fatClusterFree then
    { v with
      clusterCount := add32 v.clusterCount 1
      nextCluster := if index < v.nextCluster then index % 2 ^ 32 else v.nextCluster }
  else if value ≠ fatClusterFree ∧ original = fatClusterFree then
    if v.clusterCount ≠ 0 then { v with clusterCount := v.clusterCount - 1 } else v
  else v

/-- If the volume's dirty bit is not set, it is set now. -/
def markDirty (v : Volume) : Volume :=
  if v.fatDirty = false ∧ g.fatType ≠ .fat12 then
    fatAccessVolumeDirty g { v with fatDirty := true }
  else v

def fatSetFatEntry (v : Volume) (index value : ℕ) : EfiStatus × Volume :=
  if index < fatMinCluster then (.volumeCorrupted, v)
  else
    let (original, v) := fatGetFatEntry g v index
    let v := countEntry v index original value
    let v := fatLoadFatEntry g v index
    let v := { v with fatEntryBuffer := encode g index v.fatEntryBuffer value }
    let v := markDirty g v
    writeFat g v v.fatEntryPos g.fatEntrySize v.fatEntryBuffer

/-! ## The entries of a disk -/

/-- The bits of entry `index`. -/
def rawEntry (disk : Memory) (index : ℕ) : ℕ :=
  rawOf g index (le disk (g.entryPos index) g.fatEntrySize)

/-- The value of entry `index`. -/
def entryAt (disk : Memory) (index : ℕ) : ℕ :=
  if g.Readable index then widen g (rawEntry g disk index) else fatClusterLast

/-- The disk with a new value of entry `index`. -/
def putEntry (disk : Memory) (index value : ℕ) : Memory :=
  storeBytes disk (g.entryPos index)
    (leBytes g.fatEntrySize (encode g index (le disk (g.entryPos index) g.fatEntrySize) value))

/-- The bits of an entry with a new value: in FAT32 the upper four bits are kept. -/
def putRaw (raw value : ℕ) : ℕ :=
  match g.fatType with
  | .fat12 => value % 2 ^ 12
  | .fat16 => value % 2 ^ 16
  | .fat32 => raw / 2 ^ 28 * 2 ^ 28 + value % 2 ^ 28

def dirtyDisk (v : Volume) : Memory := (markDirty g v).disk

variable {g} {v : Volume} {disk : Memory} {i j x : ℕ}

theorem le_two (m : Memory) (a : ℕ) : le m a 2 = (m a).toNat + 256 * (m (a + 1)).toNat := by
  simp only [le, mul_zero, add_zero]

theorem and_low (x n : ℕ) : x &&& (2 ^ n - 1) = x % 2 ^ n := Nat.and_two_pow_sub_one_eq_mod x n

theorem fatEntrySize_fat12 (h : g.fatType = .fat12) : g.fatEntrySize = 2 := by
  simp only [Layout.fatEntrySize, h]

theorem fatEntrySize_fat16 (h : g.fatType = .fat16) : g.fatEntrySize = 2 := by
  simp only [Layout.fatEntrySize, h]

theorem fatEntrySize_fat32 (h : g.fatType = .fat32) : g.fatEntrySize = 4 := by
  simp only [Layout.fatEntrySize, h]

theorem entryPos_fat12 (h : g.fatType = .fat12) : g.entryPos i = g.fatPos + i * 3 / 2 := by
  simp only [Layout.entryPos, Layout.fatPosOf, h]

theorem entryPos_fat16 (h : g.fatType = .fat16) : g.entryPos i = g.fatPos + i * 2 := by
  simp only [Layout.entryPos, Layout.fatPosOf, h]

theorem entryPos_fat32 (h : g.fatType = .fat32) : g.entryPos i = g.fatPos + i * 4 := by
  simp only [Layout.entryPos, Layout.fatPosOf, h]

/-! ### Twelve bits -/

theorem rawEntry_fat12 (h : g.fatType = .fat12) :
    rawEntry g disk i =
      if i % 2 = 1 then le disk (g.entryPos i) 2 / 2 ^ 4
      else le disk (g.entryPos i) 2 % 2 ^ 12 := by
  have hlt : le disk (g.entryPos i) 2 < 2 ^ 16 := le_lt disk _ 2
  simp only [rawEntry, rawOf, h, fatEntrySize_fat12 h, Nat.mod_eq_of_lt hlt,
    Nat.shiftRight_eq_div_pow]
  split
  · rfl
  · exact and_low _ 12

theorem encode_fat12 (h : g.fatType = .fat12) {buffer : ℕ} (hlt : buffer < 2 ^ 16) :
    encode g i buffer x =
      if i % 2 = 1 then x % 2 ^ 12 * 2 ^ 4 + buffer % 2 ^ 4
      else buffer / 2 ^ 12 * 2 ^ 12 + x % 2 ^ 12 := by
  simp only [encode, h, Nat.mod_eq_of_lt hlt]
  rw [show x &&& 0xFFF = x % 2 ^ 12 from and_low x 12,
    show buffer &&& 0xF = buffer % 2 ^ 4 from and_low buffer 4,
    show buffer &&& 0xF000 = buffer / 2 ^ 12 * 2 ^ 12 from and_highMask (k := 4) hlt]
  split
  · exact shiftLeft_or_low (Nat.mod_lt _ (by decide))
  · rw [Nat.or_comm, ← Nat.shiftLeft_eq, shiftLeft_or_low (Nat.mod_lt _ (by decide)),
      Nat.shiftLeft_eq]

theorem rawEntry_fat16 (h : g.fatType = .fat16) :
    rawEntry g disk i = le disk (g.entryPos i) 2 := by
  simp only [rawEntry, rawOf, h, fatEntrySize_fat16 h]
  exact Nat.mod_eq_of_lt (le_lt disk _ 2)

theorem rawEntry_fat32 (h : g.fatType = .fat32) :
    rawEntry g disk i = le disk (g.entryPos i) 4 := by
  simp only [rawEntry, rawOf, h, fatEntrySize_fat32 h]

theorem encode_fat32 (h : g.fatType = .fat32) {buffer : ℕ} (hlt : buffer < 2 ^ 32) :
    encode g i buffer x = buffer / 2 ^ 28 * 2 ^ 28 + x % 2 ^ 28 := by
  simp only [encode, h]
  rw [show x &&& 0x0FFFFFFF = x % 2 ^ 28 from and_low x 28,
    show buffer &&& 0xF0000000 = buffer / 2 ^ 28 * 2 ^ 28 from and_highMask (k := 4) hlt,
    ← Nat.shiftLeft_eq, shiftLeft_or_low (Nat.mod_lt _ (by decide)), Nat.shiftLeft_eq]

/-- **A write gives the entry its new value.** -/
theorem rawEntry_putEntry_self (g : Layout) (disk : Memory) (i x : ℕ) :
    rawEntry g (putEntry g disk i x) i = putRaw g (rawEntry g disk i) x := by
  cases h : g.fatType with
  | fat12 =>
    have hlt : le disk (g.entryPos i) 2 < 2 ^ 16 := le_lt disk _ 2
    rw [rawEntry_fat12 h, putEntry, fatEntrySize_fat12 h, le_storeBytes, encode_fat12 h hlt]
    simp only [putRaw, h]
    split <;> omega
  | fat16 =>
    rw [rawEntry_fat16 h, putEntry, fatEntrySize_fat16 h, le_storeBytes]
    simp only [putRaw, encode, h]
    omega
  | fat32 =>
    have hlt : le disk (g.entryPos i) 4 < 2 ^ 32 := le_lt disk _ 4
    rw [rawEntry_fat32 h, rawEntry_fat32 h, putEntry, fatEntrySize_fat32 h, le_storeBytes,
      encode_fat32 h hlt]
    simp only [putRaw, h]
    omega

theorem storeBytes_two (m : Memory) (a e : ℕ) :
    (storeBytes m a (leBytes 2 e) a).toNat = e % 256 ∧
      (storeBytes m a (leBytes 2 e) (a + 1)).toNat = e / 256 % 256 := by
  constructor
  · rw [storeBytes, if_pos (by simp), Nat.sub_self]
    rfl
  · rw [storeBytes, if_pos (by simp), Nat.add_sub_cancel_left]
    rfl

theorem entryPos_odd (h : g.fatType = .fat12) (k : ℕ) :
    g.entryPos (2 * k + 1) = g.entryPos (2 * k) + 1 := by
  rw [entryPos_fat12 h, entryPos_fat12 h]
  omega

/-- In FAT12 an even entry and the odd one behind it share a byte: a write of the even one keeps the
upper half of that byte. -/
theorem rawEntry_putEntry_even (h : g.fatType = .fat12) (k : ℕ) :
    rawEntry g (putEntry g disk (2 * k) x) (2 * k + 1) = rawEntry g disk (2 * k + 1) := by
  have he : ¬ 2 * k % 2 = 1 := by omega
  have ho : (2 * k + 1) % 2 = 1 := by omega
  have hlt : le disk (g.entryPos (2 * k)) 2 < 2 ^ 16 := le_lt disk _ 2
  rw [rawEntry_fat12 h, rawEntry_fat12 h, putEntry, fatEntrySize_fat12 h, encode_fat12 h hlt,
    if_pos ho, if_pos ho, if_neg he, entryPos_odd h, le_two, le_two, le_two]
  generalize g.entryPos (2 * k) = a
  rw [storeBytes_of_le (x := a + 1 + 1) (by rw [length_leBytes]), (storeBytes_two disk a _).2]
  have h0 := (disk a).toNat_lt
  have h1 := (disk (a + 1)).toNat_lt
  omega

/-- A write of the odd one keeps the lower half. -/
theorem rawEntry_putEntry_odd (h : g.fatType = .fat12) (k : ℕ) :
    rawEntry g (putEntry g disk (2 * k + 1) x) (2 * k) = rawEntry g disk (2 * k) := by
  have he : ¬ 2 * k % 2 = 1 := by omega
  have ho : (2 * k + 1) % 2 = 1 := by omega
  have hlt : le disk (g.entryPos (2 * k + 1)) 2 < 2 ^ 16 := le_lt disk _ 2
  rw [rawEntry_fat12 h, rawEntry_fat12 h, putEntry, fatEntrySize_fat12 h, encode_fat12 h hlt,
    if_neg he, if_neg he, if_pos ho, entryPos_odd h, le_two, le_two, le_two]
  generalize g.entryPos (2 * k) = a
  rw [storeBytes_of_lt (Nat.lt_succ_self a), (storeBytes_two disk (a + 1) _).1]
  omega

theorem rawEntry_putEntry_fat12 (h : g.fatType = .fat12) (hne : j ≠ i) :
    rawEntry g (putEntry g disk i x) j = rawEntry g disk j := by
  by_cases hf : g.entryPos j + 2 ≤ g.entryPos i ∨ g.entryPos i + 2 ≤ g.entryPos j
  · rw [rawEntry_fat12 h, rawEntry_fat12 h, putEntry, fatEntrySize_fat12 h,
      le_storeBytes_of_disjoint (by rwa [length_leBytes])]
  · rw [entryPos_fat12 h, entryPos_fat12 h] at hf
    -- what is left is an even entry and the odd one behind it
    rcases Nat.even_or_odd' i with ⟨k, rfl | rfl⟩
    · obtain rfl : j = 2 * k + 1 := by omega
      exact rawEntry_putEntry_even h k
    · obtain rfl : j = 2 * k := by omega
      exact rawEntry_putEntry_odd h k

/-- **A write leaves every other entry as it is.** -/
theorem rawEntry_putEntry_of_ne (g : Layout) (disk : Memory) (x : ℕ) (hne : j ≠ i) :
    rawEntry g (putEntry g disk i x) j = rawEntry g disk j := by
  cases h : g.fatType with
  | fat12 => exact rawEntry_putEntry_fat12 h hne
  | fat16 =>
    rw [rawEntry_fat16 h, rawEntry_fat16 h, putEntry, fatEntrySize_fat16 h]
    refine le_storeBytes_of_disjoint ?_
    rw [length_leBytes, entryPos_fat16 h, entryPos_fat16 h]
    omega
  | fat32 =>
    rw [rawEntry_fat32 h, rawEntry_fat32 h, putEntry, fatEntrySize_fat32 h]
    refine le_storeBytes_of_disjoint ?_
    rw [length_leBytes, entryPos_fat32 h, entryPos_fat32 h]
    omega

/-! ### Values -/

/-- How many bits of an entry are its value. -/
def Layout.valueBits (g : Layout) : ℕ :=
  match g.fatType with
  | .fat12 => 12
  | .fat16 => 16
  | .fat32 => 28

/-- `FAT_CLUSTER_SPECIAL_FAT12`, `FAT_CLUSTER_SPECIAL_FAT16`, `FAT_CLUSTER_SPECIAL_FAT32`. -/
def Layout.special (g : Layout) : ℕ :=
  match g.fatType with
  | .fat12 => 0xFF7
  | .fat16 => 0xFFF7
  | .fat32 => 0x0FFFFFF7

theorem rawEntry_lt (g : Layout) (disk : Memory) (i : ℕ) :
    rawEntry g disk i < 2 ^ 32 := by
  cases h : g.fatType with
  | fat12 =>
    have hlt : le disk (g.entryPos i) 2 < 2 ^ 16 := le_lt disk _ 2
    rw [rawEntry_fat12 h]
    split <;> omega
  | fat16 =>
    have hlt : le disk (g.entryPos i) 2 < 2 ^ 16 := le_lt disk _ 2
    rw [rawEntry_fat16 h]
    omega
  | fat32 =>
    rw [rawEntry_fat32 h]
    exact le_lt disk _ 4

theorem or_special {a s : ℕ} (h : a < 2 ^ 32) :
    (a ||| if s ≤ a then fatClusterSpecialExt else 0) =
      if s ≤ a then fatClusterSpecialExt + a % 16 else a := by
  split
  · exact or_allOnes (k := 60) (n := 4) (by omega)
  · exact Nat.or_zero a

theorem widen_eq {raw : ℕ} (hlt : raw < 2 ^ 32)
    (hb : g.fatType ≠ .fat32 → raw < 2 ^ g.valueBits) :
    widen g raw = if g.special ≤ raw % 2 ^ g.valueBits
      then fatClusterSpecialExt + raw % 2 ^ g.valueBits % 16 else raw % 2 ^ g.valueBits := by
  cases h : g.fatType with
  | fat12 | fat16 =>
    have hm := Nat.mod_eq_of_lt (hb (by simp [h]))
    simp only [Layout.valueBits, h] at hm
    simp only [widen, Layout.special, Layout.valueBits, h, hm]
    exact or_special hlt
  | fat32 =>
    simp only [widen, Layout.special, Layout.valueBits, h]
    rw [show raw &&& 0x0FFFFFFF = raw % 2 ^ 28 from and_low raw 28]
    exact or_special (by omega)

theorem widen_putRaw (g : Layout) (disk : Memory) (i x : ℕ) :
    widen g (putRaw g (rawEntry g disk i) x) =
      if g.special ≤ x % 2 ^ g.valueBits
      then fatClusterSpecialExt + x % 2 ^ g.valueBits % 16 else x % 2 ^ g.valueBits := by
  have hlt := rawEntry_lt g disk i
  have hr : putRaw g (rawEntry g disk i) x < 2 ^ 32 ∧
      (g.fatType ≠ .fat32 → putRaw g (rawEntry g disk i) x < 2 ^ g.valueBits) ∧
      putRaw g (rawEntry g disk i) x % 2 ^ g.valueBits = x % 2 ^ g.valueBits := by
    cases h : g.fatType with
    | fat12 | fat16 =>
      simp only [putRaw, Layout.valueBits, h]
      omega
    | fat32 =>
      simp only [putRaw, Layout.valueBits, h]
      exact ⟨by omega, fun hne => absurd rfl hne, by omega⟩
  rw [widen_eq hr.1 hr.2.1, hr.2.2]

theorem entryAt_putEntry_self (disk : Memory) (x : ℕ) (h : g.Readable i) :
    entryAt g (putEntry g disk i x) i =
      if g.special ≤ x % 2 ^ g.valueBits
      then fatClusterSpecialExt + x % 2 ^ g.valueBits % 16 else x % 2 ^ g.valueBits := by
  rw [entryAt, if_pos h, rawEntry_putEntry_self, widen_putRaw]

theorem entryAt_putEntry_of_ne (g : Layout) (disk : Memory) (x : ℕ) (hne : j ≠ i) :
    entryAt g (putEntry g disk i x) j = entryAt g disk j := by
  rw [entryAt, entryAt, rawEntry_putEntry_of_ne g disk x hne]

theorem entryAt_putEntry_free (disk : Memory) (h : g.Readable i) :
    entryAt g (putEntry g disk i fatClusterFree) i = fatClusterFree := by
  have hspecial : ¬ g.special ≤ 0 := by
    cases ht : g.fatType <;> simp [Layout.special, ht]
  rw [entryAt_putEntry_self disk _ h, fatClusterFree, Nat.zero_mod, if_neg hspecial]

theorem entryAt_putEntry_last (disk : Memory) (h : g.Readable i) :
    entryAt g (putEntry g disk i fatClusterLast) i = fatClusterLast := by
  rw [entryAt_putEntry_self disk _ h]
  cases ht : g.fatType <;> simp [Layout.special, Layout.valueBits, ht, fatClusterLast,
    fatClusterSpecialExt]

/-- The numbers of the clusters are below the special values of their entries. FAT12 and FAT16
volumes are such, by their cluster counts; of a FAT32 volume `FatOpenDevice` does not ask it. -/
def Layout.NumbersFit (g : Layout) : Prop := g.maxCluster + 1 < g.special

instance (g : Layout) : Decidable g.NumbersFit := inferInstanceAs (Decidable (_ < _))

theorem special_lt (g : Layout) : g.special < 2 ^ g.valueBits := by
  cases h : g.fatType <;> simp [Layout.special, Layout.valueBits, h]

theorem entryAt_putEntry_cluster (hf : g.NumbersFit) (disk : Memory) (hx : x ≤ g.maxCluster + 1)
    (h : g.Readable i) : entryAt g (putEntry g disk i x) i = x := by
  have hlt := special_lt g
  unfold Layout.NumbersFit at hf
  rw [entryAt_putEntry_self disk _ h, Nat.mod_eq_of_lt (by omega), if_neg (by omega)]

/-! ### Loads -/

theorem fatLoadFatEntry_readable (v : Volume) (h : g.Readable i) :
    fatLoadFatEntry g v i = { v with
      fatEntryPos := g.entryPos i
      fatEntryBuffer := le v.disk (g.entryPos i) g.fatEntrySize } := by
  rw [fatLoadFatEntry, if_neg (not_lt.mpr h.1)]
  simp only [readFat, if_pos h.2]

theorem widen_allOnes (g : Layout) (i : ℕ) :
    widen g (rawOf g i 0xFFFFFFFF) = fatClusterLast := by
  cases h : g.fatType with
  | fat12 =>
    simp only [widen, rawOf, h]
    split <;> rfl
  | fat16 =>
    simp only [widen, rawOf, h]
    rfl
  | fat32 =>
    simp only [widen, rawOf, h]
    rfl

/-- **The value `FatGetFatEntry` returns**, and the load it makes. -/
theorem fatGetFatEntry_eq (g : Layout) (v : Volume) (i : ℕ) :
    fatGetFatEntry g v i = (entryAt g v.disk i, fatLoadFatEntry g v i) := by
  rw [fatGetFatEntry]
  by_cases hmax : g.maxCluster + 1 < i
  · have hno : ¬ g.Readable i := fun h => absurd h.1 (not_le.mpr hmax)
    rw [if_pos hmax, entryAt, if_neg hno, fatClusterLast]
  · rw [if_neg hmax]
    by_cases h : g.Readable i
    · rw [fatLoadFatEntry_readable v h, entryAt, if_pos h, rawEntry]
    · have hr : ¬ g.entryPos i + g.fatEntrySize ≤ g.volumeSize :=
        fun hle => h ⟨Nat.le_of_not_lt hmax, hle⟩
      rw [entryAt, if_neg h, fatLoadFatEntry, if_neg hmax]
      simp only [readFat, if_neg hr, widen_allOnes]

/-- What a load leaves as it is. -/
structure SameTable (v v' : Volume) : Prop where
  disk : v'.disk = v.disk
  fatDirty : v'.fatDirty = v.fatDirty
  freeInfoValid : v'.freeInfoValid = v.freeInfoValid
  clusterCount : v'.clusterCount = v.clusterCount
  nextCluster : v'.nextCluster = v.nextCluster

theorem SameTable.refl (v : Volume) : SameTable v v := ⟨rfl, rfl, rfl, rfl, rfl⟩

theorem SameTable.trans {u w : Volume} (h : SameTable v u) (h' : SameTable u w) : SameTable v w :=
  ⟨h'.disk.trans h.disk, h'.fatDirty.trans h.fatDirty, h'.freeInfoValid.trans h.freeInfoValid,
    h'.clusterCount.trans h.clusterCount, h'.nextCluster.trans h.nextCluster⟩

theorem sameTable_fatLoadFatEntry (g : Layout) (v : Volume) (i : ℕ) :
    SameTable v (fatLoadFatEntry g v i) := by
  rw [fatLoadFatEntry]
  split
  · exact ⟨rfl, rfl, rfl, rfl, rfl⟩
  · simp only [readFat]
    split
    · rename_i heq
      split at heq <;> cases heq
      exact ⟨rfl, rfl, rfl, rfl, rfl⟩
    · rename_i heq
      split at heq <;> cases heq
      exact ⟨rfl, rfl, rfl, rfl, rfl⟩

/-! ### Writes -/

theorem readable_of_le (h : g.Readable i) (hij : j ≤ i) : g.Readable j := by
  obtain ⟨hmax, hpos⟩ := h
  refine ⟨hij.trans hmax, ?_⟩
  cases ht : g.fatType with
  | fat12 => rw [entryPos_fat12 ht] at *; omega
  | fat16 => rw [entryPos_fat16 ht] at *; omega
  | fat32 => rw [entryPos_fat32 ht] at *; omega

/-- The place of the dirty flag is entry 1. -/
theorem entryPos_one (h : g.fatType ≠ .fat12) : g.fatPos + g.fatEntrySize = g.entryPos 1 := by
  cases ht : g.fatType with
  | fat12 => exact absurd ht h
  | fat16 => rw [entryPos_fat16 ht, fatEntrySize_fat16 ht]
  | fat32 => rw [entryPos_fat32 ht, fatEntrySize_fat32 ht]

theorem entryPos_disjoint (h : g.fatType ≠ .fat12) (hne : i ≠ j) :
    g.entryPos j + g.fatEntrySize ≤ g.entryPos i ∨
      g.entryPos i + g.fatEntrySize ≤ g.entryPos j := by
  cases ht : g.fatType with
  | fat12 => exact absurd ht h
  | fat16 => rw [entryPos_fat16 ht, entryPos_fat16 ht, fatEntrySize_fat16 ht]; omega
  | fat32 => rw [entryPos_fat32 ht, entryPos_fat32 ht, fatEntrySize_fat32 ht]; omega

theorem dirtyDisk_congr {w : Volume} (hd : w.disk = v.disk)
    (hdi : w.fatDirty = v.fatDirty) : dirtyDisk g w = dirtyDisk g v := by
  simp only [dirtyDisk, markDirty, fatAccessVolumeDirty, writeFat, hdi]
  split
  · split <;> simp only [hd]
  · exact hd

theorem le_dirtyDisk (g : Layout) (v : Volume) (hne : i ≠ 1) :
    le (dirtyDisk g v) (g.entryPos i) g.fatEntrySize =
      le v.disk (g.entryPos i) g.fatEntrySize := by
  simp only [dirtyDisk, markDirty, fatAccessVolumeDirty, writeFat]
  split
  · rename_i hd
    split
    · refine le_storeBytes_of_disjoint ?_
      rw [length_leBytes, entryPos_one hd.2]
      exact entryPos_disjoint hd.2 hne.symm
    · rfl
  · rfl

theorem rawEntry_dirtyDisk (g : Layout) (v : Volume) (hne : i ≠ 1) :
    rawEntry g (dirtyDisk g v) i = rawEntry g v.disk i := by
  rw [rawEntry, rawEntry, le_dirtyDisk g v hne]

theorem entryAt_dirtyDisk (g : Layout) (v : Volume) (hne : i ≠ 1) :
    entryAt g (dirtyDisk g v) i = entryAt g v.disk i := by
  rw [entryAt, entryAt, rawEntry_dirtyDisk g v hne]

/-- The free cluster count when an entry changes from `original` to `value`. -/
def newCount (count original value : ℕ) : ℕ :=
  if value = fatClusterFree ∧ original ≠ fatClusterFree then add32 count 1
  else if value ≠ fatClusterFree ∧ original = fatClusterFree then count - 1
  else count

/-- The next free cluster when entry `index` changes. -/
def newNext (next index original value : ℕ) : ℕ :=
  if value = fatClusterFree ∧ original ≠ fatClusterFree ∧ index < next then index % 2 ^ 32 else next

theorem countEntry_eq (v : Volume) (i o x : ℕ) : countEntry v i o x = { v with
    clusterCount := newCount v.clusterCount o x
    nextCluster := newNext v.nextCluster i o x } := by
  rw [countEntry, newCount, newNext]
  split
  · rename_i h
    simp only [h.1, h.2, ne_eq, not_false_eq_true, true_and]
  · rename_i h
    have hnext : ¬ (x = fatClusterFree ∧ o ≠ fatClusterFree ∧ i < v.nextCluster) :=
      fun hn => h ⟨hn.1, hn.2.1⟩
    split
    · split
      · rfl
      · rename_i hz
        cases v
        simp_all
    · rfl

/-- The volume after a write of entry `i`. -/
structure Sets (g : Layout) (v : Volume) (i x : ℕ) (v' : Volume) : Prop where
  disk : v'.disk = putEntry g (dirtyDisk g v) i x
  diskError : v'.diskError = v.diskError
  fatDirty : v'.fatDirty = (v.fatDirty || decide (g.fatType ≠ .fat12))
  freeInfoValid : v'.freeInfoValid = v.freeInfoValid
  clusterCount : v'.clusterCount = newCount v.clusterCount (entryAt g v.disk i) x
  nextCluster : v'.nextCluster = newNext v.nextCluster i (entryAt g v.disk i) x

theorem markDirty_eq (g : Layout) (v : Volume)
    (hr : g.entryPos 1 + g.fatEntrySize ≤ g.volumeSize) :
    markDirty g v = { v with
      disk := dirtyDisk g v
      fatDirty := v.fatDirty || decide (g.fatType ≠ .fat12) } := by
  simp only [dirtyDisk, markDirty]
  split
  · rename_i h
    simp [fatAccessVolumeDirty, writeFat, entryPos_one h.2, hr, h.1, h.2]
  · rename_i h
    have hdi : (v.fatDirty || decide (g.fatType ≠ .fat12)) = v.fatDirty := by
      cases hd : v.fatDirty with
      | false => simpa [hd] using h
      | true => rfl
    rw [hdi]

/-- **What `FatSetFatEntry` does** to an entry that can be read. -/
theorem fatSetFatEntry_spec (v : Volume) (x : ℕ) (hm : fatMinCluster ≤ i) (h : g.Readable i) :
    ∃ v', fatSetFatEntry g v i x = (.success, v') ∧ Sets g v i x v' := by
  have ho : g.Readable 1 := readable_of_le h (Nat.le_of_succ_le hm)
  have hne : i ≠ 1 := by
    rintro rfl
    exact absurd hm (by decide)
  simp only [fatSetFatEntry, if_neg (not_lt.mpr hm), fatGetFatEntry_eq]
  rw [countEntry_eq, fatLoadFatEntry_readable _ h, fatLoadFatEntry_readable _ h,
    markDirty_eq _ _ ho.2]
  simp only [writeFat, if_pos h.2]
  refine ⟨_, rfl, ⟨?_, rfl, rfl, rfl, rfl, rfl⟩⟩
  rw [putEntry, le_dirtyDisk g v hne]
  exact congrArg (fun d => storeBytes d (g.entryPos i) _) (dirtyDisk_congr rfl rfl)

theorem Sets.of_load {v' : Volume} (hj : g.Readable j) (h : Sets g (fatLoadFatEntry g v j) i x v') :
    Sets g v i x v' := by
  rw [fatLoadFatEntry_readable v hj] at h
  refine ⟨?_, h.diskError, h.fatDirty, h.freeInfoValid, h.clusterCount, h.nextCluster⟩
  rw [h.disk]
  exact congrArg (putEntry g · i x) (dirtyDisk_congr rfl rfl)

/-- A write of an entry leaves every other entry of a cluster as it is, also where the entry is
outside the volume. -/
theorem entryAt_fatSetFatEntry_of_ne (v : Volume) (x : ℕ) (hm : fatMinCluster ≤ i)
    (hmax : i ≤ g.maxCluster + 1) (hne : j ≠ i) (ho : j ≠ 1) :
    entryAt g (fatSetFatEntry g v i x).2.disk j = entryAt g v.disk j := by
  by_cases h : g.Readable i
  · obtain ⟨v', hse, hs⟩ := fatSetFatEntry_spec v x hm h
    rw [hse, hs.disk, entryAt_putEntry_of_ne g _ x hne, entryAt_dirtyDisk g v ho]
  · have hr : ¬ g.entryPos i + g.fatEntrySize ≤ g.volumeSize := fun hle => h ⟨hmax, hle⟩
    have hl : ∀ u, fatLoadFatEntry g u i = { u with
        fatEntryPos := g.entryPos i, diskError := true, fatEntryBuffer := 0xFFFFFFFF } := by
      intro u
      simp only [fatLoadFatEntry, readFat, if_neg (not_lt.mpr hmax), if_neg hr]
    simp only [fatSetFatEntry, if_neg (not_lt.mpr hm), fatGetFatEntry_eq, countEntry_eq,
      hl]
    generalize hu : ({ v with
      diskError := true, fatEntryPos := g.entryPos i
      fatEntryBuffer := encode g i 0xFFFFFFFF x
      clusterCount := newCount v.clusterCount (entryAt g v.disk i) x
      nextCluster := newNext v.nextCluster i (entryAt g v.disk i) x } : Volume) = u
    have hpos : (markDirty g u).fatEntryPos = g.entryPos i := by
      rw [markDirty, ← hu]
      split
      · simp only [fatAccessVolumeDirty, writeFat]
        split <;> rfl
      · rfl
    have hd : dirtyDisk g u = dirtyDisk g v := by
      rw [← hu]
      exact dirtyDisk_congr rfl rfl
    rw [writeFat, hpos, if_neg hr]
    exact (congrArg (entryAt g · j) hd).trans (entryAt_dirtyDisk g v ho)

theorem Sets.entryAt_of_ne {v' : Volume} (h : Sets g v i x v') (hne : j ≠ i) (ho : j ≠ 1) :
    entryAt g v'.disk j = entryAt g v.disk j := by
  rw [h.disk, entryAt_putEntry_of_ne g _ x hne, entryAt_dirtyDisk g v ho]

end Edk2.Fat
