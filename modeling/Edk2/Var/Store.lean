import Edk2.Base

/-!
# The variable stores

The variable driver keeps its variables in up to three stores, searched in this order: the volatile
store, the store the earlier boot phase handed over (the HOB store) and the non-volatile store. A
store is a log of entries. An update adds an entry and then retires the old one by clearing bits of
its state byte, so an entry is added, in transition to deletion, deleted, or was never completed.

This module has the entries, the searches of `VariableParsing.c` and `Variable.c`, and the service
that lists the variables. A store is the list of its entries; that a store is bytes, and where its
entries begin, does not matter to these functions. An entry's fields are those the modelled
functions read: the monotonic count and the public key index are stored and read by none of them.
-/

namespace Edk2.Var

/-! ## Attributes and states of an entry -/

def efiVariableNonVolatile : BitVec 32 := 0x00000001#32
def efiVariableBootserviceAccess : BitVec 32 := 0x00000002#32
def efiVariableRuntimeAccess : BitVec 32 := 0x00000004#32
def efiVariableHardwareErrorRecord : BitVec 32 := 0x00000008#32
def efiVariableAuthenticatedWriteAccess : BitVec 32 := 0x00000010#32
def efiVariableTimeBasedAuthenticatedWriteAccess : BitVec 32 := 0x00000020#32
def efiVariableAppendWrite : BitVec 32 := 0x00000040#32

def variableAttributeAtAw : BitVec 32 :=
  efiVariableTimeBasedAuthenticatedWriteAccess ||| efiVariableAuthenticatedWriteAccess

/-- `(Attributes & Mask) != 0`. -/
def hasAttribute (attributes mask : BitVec 32) : Bool := attributes &&& mask != 0#32

def varInDeletedTransition : BitVec 8 := 0xfe#8
def varDeleted : BitVec 8 := 0xfd#8
def varAdded : BitVec 8 := 0x3f#8

structure EfiTime where
  year : ℕ
  month : ℕ
  day : ℕ
  hour : ℕ
  minute : ℕ
  second : ℕ
  pad1 : ℕ
  nanosecond : ℕ
  timeZone : ℕ
  daylight : ℕ
  pad2 : ℕ
  deriving DecidableEq, Repr

/-- The time `ZeroMem` writes. -/
def EfiTime.zero : EfiTime := ⟨0, 0, 0, 0, 0, 0, 0, 0, 0, 0, 0⟩

/-- `VariableCompareTimeStampInternal` and `AuthServiceInternalCompareTimeStamp`, two copies of one
function: the first time is not later than the second. -/
def compareTimeStamp (firstTime secondTime : EfiTime) : Bool :=
  if firstTime.year ≠ secondTime.year then firstTime.year < secondTime.year
  else if firstTime.month ≠ secondTime.month then firstTime.month < secondTime.month
  else if firstTime.day ≠ secondTime.day then firstTime.day < secondTime.day
  else if firstTime.hour ≠ secondTime.hour then firstTime.hour < secondTime.hour
  else if firstTime.minute ≠ secondTime.minute then firstTime.minute < secondTime.minute
  else firstTime.second ≤ secondTime.second

/-- What identifies a variable: its name and its vendor GUID. -/
abbrev VarKey := Char16String × EfiGuid

/-- An entry of a variable store. -/
structure VarRecord where
  state : BitVec 8
  attributes : BitVec 32
  timeStamp : EfiTime
  key : VarKey
  data : List UInt8
  deriving DecidableEq, Repr

namespace VarRecord

section

variable (r : VarRecord)

def isAdded : Bool := r.state == varAdded

/-- The entry is in transition to deletion. -/
def isInTransition : Bool := r.state == varInDeletedTransition &&& varAdded

/-- The entry is one a search considers. -/
def isLive : Bool := r.isAdded || r.isInTransition

/-- `State &= mask`. -/
def clearState (mask : BitVec 8) : VarRecord := { r with state := r.state &&& mask }

/-- The entry with the state `VAR_ADDED`. -/
def asAdded : VarRecord := { r with state := varAdded }

end

end VarRecord

/-! ## The driver's state -/

/-- `VARIABLE_STORE_TYPE`. -/
inductive StoreType
  | volatile
  | hob
  | nv
  deriving DecidableEq, Repr

/-- What the driver reads of its platform and of the phase of the boot it is called in, and which of
its accesses to the flash device succeed. -/
structure Env where
  /-- `AuthFormat`. -/
  authFormat : Bool
  /-- `EmuNvMode`. -/
  emuNvMode : Bool
  /-- `FvbInstance != NULL`. -/
  fvbReady : Bool
  /-- `AtRuntime ()`. -/
  atRuntime : Bool
  /-- `mEndOfDxe`. -/
  endOfDxe : Bool
  /-- The size of the volatile store. -/
  volatileSize : ℕ
  /-- The size of the non-volatile store. -/
  nvSize : ℕ
  /-- `PcdHwErrStorageSize`. -/
  hwErrStorageSize : ℕ
  commonVariableSpace : ℕ
  commonRuntimeVariableSpace : ℕ
  commonMaxUserVariableSpace : ℕ
  maxAuthVariableSize : ℕ
  maxVariableSize : ℕ
  maxVolatileVariableSize : ℕ
  /-- `PcdMaxHardwareErrorVariableSize`. -/
  maxHardwareErrorVariableSize : ℕ
  /-- `VarCheckLibVariablePropertyGet` finds a property of the variable. -/
  hasProperty : VarKey → Bool
  /-- The `i`-th access to the flash device, or the `i`-th pool allocation, succeeds. -/
  accessOk : ℕ → Bool

/-- The stores and the counters of `mVariableModuleGlobal`. -/
structure VarState where
  volatileStore : List VarRecord
  /-- The store at `HobVariableBase`; `none` where that is 0. -/
  hobStore : Option (List VarRecord)
  nvStore : List VarRecord
  volatileLastVariableOffset : ℕ
  hwErrVariableTotalSize : ℕ
  commonVariableTotalSize : ℕ
  commonUserVariableTotalSize : ℕ
  /-- `mCurrentBootVarErrFlag`. -/
  currentBootVarErrFlag : UInt8
  /-- How many accesses were made so far. -/
  accesses : ℕ
  deriving DecidableEq

namespace VarState

def records (s : VarState) : StoreType → List VarRecord
  | .volatile => s.volatileStore
  | .hob => s.hobStore.getD []
  | .nv => s.nvStore

def setRecords (s : VarState) (store : StoreType) (records : List VarRecord) : VarState :=
  match store with
  | .volatile => { s with volatileStore := records }
  | .hob => { s with hobStore := s.hobStore.map fun _ => records }
  | .nv => { s with nvStore := records }

end VarState

/-! ## Searching -/

/-- `VARIABLE_POINTER_TRACK` without the bounds of the store: the entries are given by their
position in the store. -/
structure PointerTrack where
  store : StoreType
  currPtr : Option ℕ
  inDeletedTransitionPtr : Option ℕ
  deriving DecidableEq, Repr

/-- The check of an entry against the variable searched for; the empty name stands for any. -/
def matchesKey (env : Env) (ignoreRtCheck : Bool) (key : VarKey) (r : VarRecord) : Bool :=
  (ignoreRtCheck || !env.atRuntime || hasAttribute r.attributes efiVariableRuntimeAccess) &&
    (key.1 == [] || key == r.key)

/-- The loop of `FindVariableEx` over the entries from position `i` on. -/
def findLoop (sought : VarRecord → Bool) :
    ℕ → Option ℕ → List VarRecord → Option ℕ × Option ℕ
  | _, inDeleted, [] => (inDeleted, none)
  | i, inDeleted, r :: rest =>
    if r.isAdded && sought r then (some i, inDeleted)
    else if r.isInTransition && sought r then findLoop sought (i + 1) (some i) rest
    else findLoop sought (i + 1) inDeleted rest

def findVariableEx (env : Env) (ignoreRtCheck : Bool) (key : VarKey) (store : StoreType)
    (records : List VarRecord) : PointerTrack :=
  let found := findLoop (matchesKey env ignoreRtCheck key) 0 none records
  ⟨store, found.1, found.2⟩

/-- `FindVariable`: the stores in their order, up to the first that has the variable. -/
def findVariable (env : Env) (s : VarState) (key : VarKey) (ignoreRtCheck : Bool) : PointerTrack :=
  let inStore := fun store => findVariableEx env ignoreRtCheck key store (s.records store)
  if (inStore .volatile).currPtr.isSome then inStore .volatile
  else if (inStore .hob).currPtr.isSome then inStore .hob
  else inStore .nv

/-- The entry a search found. -/
def PointerTrack.found (track : PointerTrack) (s : VarState) : Option VarRecord :=
  track.currPtr.bind fun i => (s.records track.store)[i]?

section

variable (env : Env) (s : VarState)

/-- The entry `FindVariable` finds for a variable. -/
def lookup (key : VarKey) : Option VarRecord :=
  (findVariable env s key false).found s

/-! ## Listing -/

/-- The checks on an entry the listing comes across: it is live, is no `IN_DELETED_TRANSITION` twin
of an added entry, and is not overridden by the HOB store. -/
def isListed (store : StoreType) (r : VarRecord) : Bool :=
  r.isLive && (!env.atRuntime || hasAttribute r.attributes efiVariableRuntimeAccess) &&
    !(r.isInTransition &&
      (((findVariableEx env false r.key store (s.records store)).found s).any
        VarRecord.isAdded)) &&
    !(s.hobStore.isSome && store == .nv &&
      (findVariableEx env false r.key .hob (s.records .hob)).currPtr.isSome)

/-- The first entry to list at or after a position of a store, or else in the stores that follow. -/
def nextListed (store : StoreType) (i : ℕ) : Option VarRecord :=
  match ((s.records store).drop i).find? (isListed env s store) with
  | some r => some r
  | none =>
    match store with
    | .volatile =>
      match (s.records .hob).find? (isListed env s .hob) with
      | some r => some r
      | none => (s.records .nv).find? (isListed env s .nv)
    | .hob => (s.records .nv).find? (isListed env s .nv)
    | .nv => none

/-- `VariableServiceGetNextVariableInternal`. -/
def getNextVariableInternal (key : VarKey) : EfiStatus × Option VarRecord :=
  let track := findVariable env s key false
  match track.currPtr with
  | none => if key.1 ≠ [] then (.invalidParameter, none) else (.notFound, none)
  | some i =>
    match nextListed env s track.store (if key.1 ≠ [] then i + 1 else i) with
    | some r => (.success, some r)
    | none => (.notFound, none)

end

/-- `StrSize`: the bytes of a name with its terminator. -/
def strSize (name : Char16String) : ℕ := 2 * (name.length + 1)

/-- `VariableServiceGetNextVariableName`, with the size of the buffer, the size it returns there and
the variable it writes to the buffers. -/
def getNextVariableName (env : Env) (s : VarState) (variableNameSize : ℕ) (key : VarKey) :
    EfiStatus × ℕ × VarKey :=
  if variableNameSize / 2 = 0 ∨ variableNameSize / 2 ≤ key.1.length then
    (.invalidParameter, variableNameSize, key)
  else
    match getNextVariableInternal env s key with
    | (status, none) => (status, variableNameSize, key)
    | (_, some r) =>
      if strSize r.key.1 ≤ variableNameSize then (.success, strSize r.key.1, r.key)
      else (.bufferTooSmall, strSize r.key.1, key)

end Edk2.Var
