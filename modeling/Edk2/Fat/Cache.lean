import Edk2.Fat.Table

/-!
# The disk cache

`FatPkg/EnhancedFatDxe/DiskCache.c`: two direct-mapped write-back caches, one for the file
allocation table and one for the root directory and the clusters. Whole pages of data go around the
cache. The table is read from its first copy and written to all of them. The disk may refuse any
request, which then has no effect; calls are blocking.
-/

namespace Edk2.Fat

/-- `IO_MODE`, for raw access. -/
inductive IoMode
  | readDisk
  | writeDisk
  deriving DecidableEq, Repr

inductive CacheDataType
  | fat
  | data
  deriving DecidableEq, Repr

/-- The fields of `FAT_VOLUME` that say where things are. `FatOpenDevice` puts the root directory
behind the copies of the table, and takes no volume without a table. -/
structure Geometry where
  fatType : FatType
  fatPos : ℕ
  fatSize : ℕ
  numFats : ℕ
  rootPos : ℕ
  volumeSize : ℕ
  numFats_pos : 0 < numFats
  copies_le : fatPos + numFats * fatSize ≤ rootPos
  rootPos_le : rootPos ≤ volumeSize

structure CacheTag where
  pageNo : ℕ
  realSize : ℕ
  dirty : Bool

/-- `DISK_CACHE`, without the fields that stay as `FatInitializeDiskCache` sets them; the memory is
counted from `CacheBase`. -/
structure DiskCache where
  cacheBase : Memory
  dirty : Bool
  cacheTag : ℕ → CacheTag

/-- The disk and the caches of a `FAT_VOLUME`. -/
structure CachedVolume where
  disk : Memory
  /-- The requests to come that the disk refuses. -/
  refuses : ℕ → Bool
  /-- The requests to write so far, the last one first. -/
  written : List (ℕ × List UInt8)
  diskError : Bool
  diskCache : CacheDataType → DiskCache

namespace Geometry

variable (g : Geometry)

/-- `DiskCache->PageAlignment`. -/
def pageAlignment : CacheDataType → ℕ
  | .fat => if g.fatType = .fat12 then 13 else 15
  | .data => if g.fatType = .fat12 then 13 else 16

def pageSize (t : CacheDataType) : ℕ := 2 ^ g.pageAlignment t

/-- The binary logarithm of `FatCacheGroupCount` and of `FAT_DATACACHE_GROUP_COUNT`. -/
def groupBits : CacheDataType → ℕ
  | .fat => if g.fatType = .fat12 then 0 else 4
  | .data => 6

/-- `DiskCache->GroupMask`. -/
def groupMask (t : CacheDataType) : ℕ := 2 ^ g.groupBits t - 1

/-- `DiskCache->BaseAddress`. -/
def baseAddress : CacheDataType → ℕ
  | .fat => g.fatPos
  | .data => g.rootPos

/-- `DiskCache->LimitAddress`. -/
def limitAddress : CacheDataType → ℕ
  | .fat => g.fatPos + g.fatSize
  | .data => g.volumeSize

/-- `WriteCount`, when a page is written. -/
def writeCount : CacheDataType → ℕ
  | .fat => g.numFats
  | .data => 1

end Geometry

namespace CachedVolume

variable (v : CachedVolume) (t : CacheDataType)

def tag (index : ℕ) : CacheTag := (v.diskCache t).cacheTag index

def setTag (index : ℕ) (tag : CacheTag) : CachedVolume :=
  { v with
    diskCache := Function.update v.diskCache t
      { v.diskCache t with cacheTag := Function.update (v.diskCache t).cacheTag index tag } }

/-- The bytes of the cache with new ones at an offset. -/
def store (address : ℕ) (bytes : List UInt8) : CachedVolume :=
  { v with
    diskCache := Function.update v.diskCache t
      { v.diskCache t with cacheBase := storeBytes (v.diskCache t).cacheBase address bytes } }

/-- `DiskCache->Dirty`. -/
def setDirty (dirty : Bool) : CachedVolume :=
  { v with diskCache := Function.update v.diskCache t { v.diskCache t with dirty } }

def decided : CachedVolume := { v with refuses := fun n => v.refuses (n + 1) }

end CachedVolume

variable (g : Geometry)

/-- `FatDiskIo` in a raw mode, without a task: the status, and the buffer. -/
def fatDiskIo (v : CachedVolume) (mode : IoMode) (offset : ℕ) (buffer : List UInt8) :
    EfiStatus × CachedVolume × List UInt8 :=
  if offset + buffer.length ≤ g.volumeSize then
    if v.refuses 0 then (.deviceError, { v.decided with diskError := true }, buffer)
    else
      match mode with
      | .readDisk => (.success, v.decided, bytesAt v.disk offset buffer.length)
      | .writeDisk =>
        (.success,
          { v.decided with
            disk := storeBytes v.disk offset buffer
            written := (offset, buffer) :: v.written },
          buffer)
  else (.volumeCorrupted, { v with diskError := true }, buffer)

/-- The loop of `FatExchangeCachePage`, when it writes. -/
def writeCopies : ℕ → CachedVolume → ℕ → List UInt8 → EfiStatus × CachedVolume
  | 0, v, _, _ => (.success, v)
  | count + 1, v, entryPos, page =>
    let (status, v, _) := fatDiskIo g v .writeDisk entryPos page
    if status.isError then (status, v) else writeCopies count v (entryPos + g.fatSize) page

section

variable (v : CachedVolume) (t : CacheDataType)

/-- `FatExchangeCachePage`, for the tag of this index. -/
def fatExchangeCachePage (mode : IoMode) (index : ℕ) : EfiStatus × CachedVolume :=
  let tag := v.tag t index
  let groupNo := tag.pageNo &&& g.groupMask t
  let pageAddress := groupNo <<< g.pageAlignment t
  let entryPos := g.baseAddress t + tag.pageNo <<< g.pageAlignment t
  match mode with
  | .readDisk =>
    let realSize := min (g.limitAddress t - entryPos) (g.pageSize t)
    let (status, v, page) :=
      fatDiskIo g v .readDisk entryPos (bytesAt (v.diskCache t).cacheBase pageAddress realSize)
    if status.isError then (status, v)
    else
      (.success, (v.store t pageAddress page).setTag t index { tag with dirty := false, realSize })
  | .writeDisk =>
    let page := bytesAt (v.diskCache t).cacheBase pageAddress tag.realSize
    let (status, v) := writeCopies g (g.writeCount t) v entryPos page
    if status.isError then (status, v)
    else (.success, v.setTag t index { tag with dirty := false })

/-- `FatGetCachePage`, for the tag of this index. -/
def fatGetCachePage (pageNo index : ℕ) : EfiStatus × CachedVolume :=
  let tag := v.tag t index
  if 0 < tag.realSize ∧ tag.pageNo = pageNo then (.success, v)
  else
    let (status, v) :=
      if 0 < tag.realSize ∧ tag.dirty then fatExchangeCachePage g v t .writeDisk index
      else (.success, v)
    if status.isError then (status, v)
    else
      -- the tag names the new page before the page is there
      let v := v.setTag t index { v.tag t index with pageNo }
      fatExchangeCachePage g v t .readDisk index

/-- `FatAccessUnalignedCachePage`: the status, and the buffer. -/
def fatAccessUnalignedCachePage (mode : IoMode)
    (pageNo offset : ℕ) (buffer : List UInt8) : EfiStatus × CachedVolume × List UInt8 :=
  let groupNo := pageNo &&& g.groupMask t
  let (status, v) := fatGetCachePage g v t pageNo groupNo
  if status.isError then (status, v, buffer)
  else
    let address := groupNo <<< g.pageAlignment t + offset
    match mode with
    | .readDisk => (status, v, bytesAt (v.diskCache t).cacheBase address buffer.length)
    | .writeDisk =>
      let v := (v.setTag t groupNo { v.tag t groupNo with dirty := true }).setDirty t true
      (status, v.store t address buffer, buffer)

end

def copyInto (buffer : List UInt8) (offset : ℕ) (bytes : List UInt8) : List UInt8 :=
  buffer.take offset ++ bytes ++ buffer.drop (offset + bytes.length)

/-- One round of `FatFlushDataCacheRange`. -/
def flushPage (mode : IoMode) (startPageNo pageNo : ℕ) (v : CachedVolume) (buffer : List UInt8) :
    CachedVolume × List UInt8 :=
  let groupNo := pageNo &&& g.groupMask .data
  let tag := v.tag .data groupNo
  if 0 < tag.realSize ∧ tag.pageNo = pageNo then
    match mode with
    | .readDisk =>
      if tag.dirty then
        (v, copyInto buffer ((pageNo - startPageNo) <<< g.pageAlignment .data)
          (bytesAt (v.diskCache .data).cacheBase (groupNo <<< g.pageAlignment .data)
            (g.pageSize .data)))
      else (v, buffer)
    | .writeDisk => (v.setTag .data groupNo { tag with realSize := 0 }, buffer)
  else (v, buffer)

/-- `FatFlushDataCacheRange`: `count` pages from `pageNo` on are left. -/
def fatFlushDataCacheRange (mode : IoMode) (startPageNo : ℕ) :
    ℕ → ℕ → CachedVolume → List UInt8 → CachedVolume × List UInt8
  | 0, _, v, buffer => (v, buffer)
  | count + 1, pageNo, v, buffer =>
    let (v, buffer) := flushPage g mode startPageNo pageNo v buffer
    fatFlushDataCacheRange mode startPageNo count (pageNo + 1) v buffer

section

variable (v : CachedVolume) (t : CacheDataType) (mode : IoMode)

/-- The aligned pages of `FatAccessCache`: the status, and the buffer. They are pages of data, as
the `ASSERT` there says. -/
def accessAligned (pageNo count : ℕ)
    (buffer : List UInt8) : EfiStatus × CachedVolume × List UInt8 :=
  let entryPos := g.rootPos + pageNo <<< g.pageAlignment t
  let (status, v, buffer) := fatDiskIo g v mode entryPos buffer
  if status.isError then (status, v, buffer)
  else
    let (v, buffer) := fatFlushDataCacheRange g mode pageNo count pageNo v buffer
    (status, v, buffer)

/-- What `FatAccessCache` does behind the under-run: the status, and the buffer. -/
def accessRest (pageNo : ℕ) (buffer : List UInt8) : EfiStatus × CachedVolume × List UInt8 :=
  let count := buffer.length >>> g.pageAlignment t
  let alignedSize := count <<< g.pageAlignment t
  let aligned := buffer.take alignedSize
  let overRun := buffer.drop alignedSize
  let (status, v, aligned) :=
    if 0 < count then accessAligned g v t mode pageNo count aligned else (.success, v, aligned)
  if status.isError then (status, v, aligned ++ overRun)
  else if overRun = [] then (status, v, aligned)
  else
    let (status, v, overRun) :=
      fatAccessUnalignedCachePage g v t mode (pageNo + count) 0 overRun
    (status, v, aligned ++ overRun)

/-- `FatAccessCache`, without a task: the status, and the buffer. -/
def fatAccessCache (offset : ℕ) (buffer : List UInt8) : EfiStatus × CachedVolume × List UInt8 :=
  let entryPos := offset - g.baseAddress t
  let pageNo := entryPos >>> g.pageAlignment t
  let underRun := entryPos &&& (g.pageSize t - 1)
  if 0 < underRun then
    let length := min (g.pageSize t - underRun) buffer.length
    let (status, v, head) :=
      fatAccessUnalignedCachePage g v t mode pageNo underRun (buffer.take length)
    if status.isError then (status, v, head ++ buffer.drop length)
    else
      let (status, v, rest) := accessRest g v t mode (pageNo + 1) (buffer.drop length)
      (status, v, head ++ rest)
  else accessRest g v t mode pageNo buffer

end

/-- The loop of `FatVolumeFlushCache` over the groups of a cache. -/
def flushGroups (t : CacheDataType) : List ℕ → CachedVolume → EfiStatus × CachedVolume
  | [], v => (.success, v)
  | index :: rest, v =>
    let tag := v.tag t index
    if 0 < tag.realSize ∧ tag.dirty then
      let (status, v) := fatExchangeCachePage g v t .writeDisk index
      if status.isError then (status, v) else flushGroups t rest v
    else flushGroups t rest v

/-- What `FatVolumeFlushCache` does for one cache. -/
def flushType (v : CachedVolume) (t : CacheDataType) : EfiStatus × CachedVolume :=
  if (v.diskCache t).dirty then
    let (status, v) := flushGroups g t (List.range (g.groupMask t + 1)) v
    if status.isError then (status, v) else (.success, v.setDirty t false)
  else (.success, v)

/-- `FatVolumeFlushCache`, without a task. The last request is `FlushBlocks`. -/
def fatVolumeFlushCache (v : CachedVolume) : EfiStatus × CachedVolume :=
  let (status, v) := flushType g v .fat
  if status.isError then (status, v)
  else
    let (status, v) := flushType g v .data
    if status.isError then (status, v)
    else (if v.refuses 0 then .deviceError else .success, v.decided)

/-- The caches as `FatInitializeDiskCache` leaves them, in a volume from `AllocateZeroPool`. -/
def fatInitializeDiskCache (disk : Memory) (refuses : ℕ → Bool) : CachedVolume where
  disk
  refuses
  written := []
  diskError := false
  diskCache _ :=
    { cacheBase := fun _ => 0
      dirty := false
      cacheTag := fun _ => { pageNo := 0, realSize := 0, dirty := false } }

end Edk2.Fat
