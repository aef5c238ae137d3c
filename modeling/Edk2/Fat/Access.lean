import Edk2.Fat.Space

/-!
# Reading and writing files

`FatPkg/EnhancedFatDxe/ReadWrite.c`: the bytes of an open file are read and written in runs of
consecutive clusters, a file is expanded with zeros and truncated, and a handle of a file has a
position that reads and writes move. The accesses are the blocking ones, of files that are no
directories. What a failure makes `FatOFileFlush` and `FatCleanupVolume` store beside the files is a
parameter.
-/

namespace Edk2.Fat

/-- `IO_MODE`, for access to files. -/
inductive DataMode
  | readData
  | writeData
  deriving DecidableEq

/-- The fields of `FAT_OFILE` that an access uses. -/
structure OpenFile extends OFile where
  archive : Bool
  error : EfiStatus
  deriving DecidableEq

/-- The fields of `FAT_IFILE`. The file is named by its number. -/
structure IFile where
  oFile : ℕ
  position : ℕ
  readOnly : Bool
  deriving DecidableEq

def fatMaxAllocateSize : ℕ := 0xA00000

variable (g : Layout)

/-- `FatDiskIo` with `ReadData` and `WriteData`. What is read is put behind the buffer, what is
written is taken from its front. -/
def dataIo (v : Volume) (ioMode : DataMode) (offset bufferSize : ℕ) (buffer : List UInt8) :
    EfiStatus × Volume × List UInt8 :=
  if add64 offset bufferSize ≤ g.volumeSize then
    match ioMode with
    | .readData => (.success, v, buffer ++ bytesAt v.disk offset bufferSize)
    | .writeData =>
      (.success, { v with disk := storeBytes v.disk offset (buffer.take bufferSize) },
        buffer.drop bufferSize)
  else (.volumeCorrupted, { v with diskError := true }, buffer)

/-- The variables of the loop of `FatAccessOFile`. -/
structure Access where
  volume : Volume
  file : OpenFile
  position : ℕ
  bufferSize : ℕ
  userBuffer : List UInt8

/-- The transfer of one run, once `FatOFilePosition` has found it. -/
def transfer (ioMode : DataMode) (s : Access) (v : Volume) (o : OFile) :
    Access ⊕ EfiStatus × Access :=
  let file := { s.file with toOFile := o }
  let len := if o.posRem < s.bufferSize then o.posRem else s.bufferSize
  match dataIo g v ioMode o.posDisk len s.userBuffer with
  | (status, v, userBuffer) =>
    if status.isError then .inr (status, { s with volume := v, file := file })
    else
      .inl {
        volume := v
        file :=
          if ioMode = .writeData then { file with dirty := true, archive := true } else file
        position := add64 s.position len
        bufferSize := s.bufferSize - len
        userBuffer := userBuffer }

/-- One round of `FatAccessOFile`. -/
def accessStep (ioMode : DataMode) (fuel : ℕ) (s : Access) :
    Option (Access ⊕ EfiStatus × Access) :=
  if s.bufferSize = 0 then some (.inr (.success, s))
  else
    (fatOFilePosition g fuel s.volume s.file.toOFile s.position s.bufferSize).map
      fun (status, v, o) =>
        if status.isError then
          .inr (status, { s with volume := v, file := { s.file with toOFile := o } })
        else transfer g ioMode s v o

/-- `FatAccessOFile`: its status, the number of bytes accessed and the buffer, which holds what was
read or what is left to be written. -/
def fatAccessOFile (fuel : ℕ) (v : Volume) (file : OpenFile) (ioMode : DataMode)
    (position dataBufferSize : ℕ) (userBuffer : List UInt8) :
    Option (EfiStatus × ℕ × List UInt8 × Volume × OpenFile) :=
  (nestedLoop (accessStep g ioMode) fuel
    ⟨v, file, position, dataBufferSize, userBuffer⟩).map fun (status, s) =>
      (status, dataBufferSize - s.bufferSize, s.userBuffer, s.volume, s.file)

/-- One round of `FatWriteZeroPool`, with a buffer of `bufferSize` zeros: the position and the
number of bytes that are still to be written. -/
def zeroStep (bufferSize fuel : ℕ) :
    Volume × OpenFile × ℕ × ℕ → Option ((Volume × OpenFile × ℕ × ℕ) ⊕ EfiStatus × Volume × OpenFile)
  | (v, file, writePos, appendedSize) =>
    let writeSize := if bufferSize < appendedSize then bufferSize else appendedSize
    (fatAccessOFile g fuel v file .writeData writePos writeSize (List.replicate bufferSize 0)).map
      fun (status, writeSize', _, v, file) =>
        if status.isError then .inr (status, v, file)
        else if 0 < appendedSize - writeSize then
          .inl (v, file, add64 writePos writeSize', appendedSize - writeSize)
        else .inr (status, v, file)

/-- `FatWriteZeroPool`. `zeroPool` says whether the buffer can be allocated. -/
def fatWriteZeroPool (fuel : ℕ) (zeroPool : Bool) (v : Volume) (file : OpenFile) (writePos : ℕ) :
    Option (EfiStatus × Volume × OpenFile) :=
  let appendedSize := sub64 file.fileSize writePos
  let bufferSize := if fatMaxAllocateSize < appendedSize then fatMaxAllocateSize else appendedSize
  if zeroPool then nestedLoop (zeroStep g bufferSize) fuel (v, file, writePos, appendedSize)
  else some (.outOfResources, v, file)

def fatExpandOFile (fuel : ℕ) (zeroPool : Bool) (v : Volume) (file : OpenFile)
    (expandedSize : ℕ) : Option (EfiStatus × Volume × OpenFile) :=
  (fatGrowEof g fuel v file.toOFile expandedSize).bind fun (status, v, o) =>
    let grown := { file with toOFile := o }
    if status.isError then some (status, v, grown)
    else fatWriteZeroPool g fuel zeroPool v grown file.fileSize

/-! ## Handles -/

/-- `FatSetPosition`, for a file. -/
def fatSetPosition (iFile : IFile) (file : OpenFile) (position : ℕ) : EfiStatus × IFile :=
  if file.error = .notFound then (.deviceError, iFile)
  else
    (.success, { iFile with position := if position = 2 ^ 64 - 1 then file.fileSize else position })

/-- What `FatIFileAccess` leaves: its status, `*BufferSize`, the buffer and what has changed. -/
structure Accessed where
  status : EfiStatus
  bufferSize : ℕ
  buffer : List UInt8
  volume : Volume
  file : OpenFile
  iFile : IFile

/-- What is stored beside the files: by `FatOFileFlush` the directory entry of a file and those of its
parents, and by `FatCleanupVolume` those of files without handles, the information sector and the
dirty flag. -/
inductive Stored
  | dirEnt
  | parents
  | volume

abbrev Flush := Stored → Volume → EfiStatus × Volume

def fatOFileFlush (flush : Flush) (v : Volume) (file : OpenFile) : Volume × OpenFile :=
  if file.error.isError then (v, file)
  else if file.dirty then
    let (status, v) := flush .dirEnt v
    if status.isError then (v, { file with archive := false })
    else ((flush .parents v).2, { file with archive := false, dirty := false })
  else ((flush .parents v).2, file)

/-- `FatCleanupVolume`, but for the flag of the file. -/
def fatCleanupVolume (flush : Flush) (v : Volume) (efiStatus : EfiStatus) : EfiStatus × Volume :=
  let (status, v) := flush .volume v
  (if status.isError then status else efiStatus, v)

/-- The end of `FatIFileAccess`: `FatCleanupVolume` flags the file that failed. -/
def accessDone (flush : Flush) (iFile : IFile) (status : EfiStatus) (bufferSize : ℕ)
    (buffer : List UInt8) (v : Volume) (file : OpenFile) : Accessed :=
  let iFile := { iFile with position := add64 iFile.position bufferSize }
  if status.isError then
    let (returned, v) := fatCleanupVolume flush v status
    ⟨returned, bufferSize, buffer, v, { file with error := status }, iFile⟩
  else ⟨status, bufferSize, buffer, v, file, iFile⟩

/-- `FatIFileAccess` with a file that has no error, behind its checks. -/
def accessFile (flush : Flush) (fuel : ℕ) (v : Volume) (iFile : IFile) (file : OpenFile)
    (ioMode : DataMode) (bufferSize : ℕ) (buffer : List UInt8) : Option Accessed :=
  let endPosition := add64 iFile.position bufferSize
  let access (v : Volume) (file : OpenFile) (bufferSize : ℕ) : Option Accessed :=
    (fatAccessOFile g fuel v file ioMode iFile.position bufferSize buffer).map
      fun (status, bufferSize, buffer, v, file) =>
        accessDone flush iFile status bufferSize buffer v file
  if file.fileSize < endPosition then
    match ioMode with
    | .readData => access v file (sub64 bufferSize (sub64 endPosition file.fileSize))
    | .writeData =>
      (fatGrowEof g fuel v file.toOFile endPosition).bind fun (status, v, o) =>
        let grown := { file with toOFile := o }
        if status.isError then
          -- the file is not flagged
          let (v, file) := fatOFileFlush flush v grown
          let (status, v) := fatCleanupVolume flush v status
          some ⟨status, 0, buffer, v, file, iFile⟩
        else access v grown bufferSize
  else access v file bufferSize

/-- `FatIFileAccess`, blocking. `volumeReadOnly` is `Volume->ReadOnly`. -/
def fatIFileAccess (flush : Flush) (fuel : ℕ) (volumeReadOnly : Bool) (v : Volume)
    (iFile : IFile) (file : OpenFile) (ioMode : DataMode) (bufferSize : ℕ) (buffer : List UInt8) :
    Option Accessed :=
  let refused (status : EfiStatus) : Accessed := ⟨status, bufferSize, buffer, v, file, iFile⟩
  if file.error = .notFound then some (refused .deviceError)
  else if ioMode = .readData ∧ file.fileSize < iFile.position then some (refused .deviceError)
  else if ioMode = .writeData ∧ volumeReadOnly then some (refused .writeProtected)
  else if ioMode = .writeData ∧ iFile.readOnly then some (refused .accessDenied)
  else if file.error.isError then
    let (status, v) := fatCleanupVolume flush v file.error
    some { refused status with volume := v }
  else accessFile g flush fuel v iFile file ioMode bufferSize buffer

/-! ## More rounds -/

section Steady

variable (v : Volume) (file : OpenFile)

theorem steady_fatOFilePosition (o : OFile) (position posLimit : ℕ) :
    Steady fun fuel => fatOFilePosition g fuel v o position posLimit := by
  simp only [fatOFilePosition]
  split
  · exact steady_const _
  · refine (steady_loop _ _).bind fun x => ?_
    obtain ⟨_ | ⟨cluster, startPos⟩, v⟩ := x
    · exact steady_const _
    · exact steady_foundCluster ..

theorem steady_accessStep (ioMode : DataMode) (s : Access) :
    Steady fun fuel => accessStep g ioMode fuel s := by
  simp only [accessStep]
  split
  · exact steady_const _
  · exact (steady_fatOFilePosition ..).map _

theorem steady_fatAccessOFile (ioMode : DataMode) (position dataBufferSize : ℕ)
    (userBuffer : List UInt8) :
    Steady fun fuel => fatAccessOFile g fuel v file ioMode position dataBufferSize userBuffer :=
  (steady_nestedLoop (steady_accessStep g ioMode) _).map _

theorem steady_zeroStep (bufferSize : ℕ) (s : Volume × OpenFile × ℕ × ℕ) :
    Steady fun fuel => zeroStep g bufferSize fuel s :=
  (steady_fatAccessOFile ..).map _

theorem steady_fatWriteZeroPool (zeroPool : Bool) (writePos : ℕ) :
    Steady fun fuel => fatWriteZeroPool g fuel zeroPool v file writePos := by
  simp only [fatWriteZeroPool]
  split
  · exact steady_nestedLoop (steady_zeroStep g _) _
  · exact steady_const _

theorem steady_fatExpandOFile (zeroPool : Bool) (expandedSize : ℕ) :
    Steady fun fuel => fatExpandOFile g fuel zeroPool v file expandedSize := by
  refine (steady_fatGrowEof g v file.toOFile expandedSize).bind fun x => ?_
  simp only
  split
  · exact steady_const _
  · exact steady_fatWriteZeroPool ..

theorem steady_fatIFileAccess (flush : Flush) (volumeReadOnly : Bool) (iFile : IFile)
    (ioMode : DataMode) (bufferSize : ℕ) (buffer : List UInt8) :
    Steady fun fuel =>
      fatIFileAccess g flush fuel volumeReadOnly v iFile file ioMode bufferSize buffer := by
  have ha : Steady fun fuel =>
      accessFile g flush fuel v iFile file ioMode bufferSize buffer := by
    simp only [accessFile]
    split
    · cases ioMode with
      | readData => exact (steady_fatAccessOFile ..).map _
      | writeData =>
        refine (steady_fatGrowEof g v file.toOFile _).bind fun x => ?_
        obtain ⟨status, v, o⟩ := x
        split
        · exact steady_const _
        · exact (steady_fatAccessOFile ..).map _
    · exact (steady_fatAccessOFile ..).map _
  simp only [fatIFileAccess]
  split
  · exact steady_const _
  split
  · exact steady_const _
  split
  · exact steady_const _
  split
  · exact steady_const _
  split
  · exact steady_const _
  · exact ha

end Steady

end Edk2.Fat
