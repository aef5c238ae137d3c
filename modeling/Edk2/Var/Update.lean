import Edk2.Var.Store

/-!
# Updating a variable

`UpdateVariable` of `Variable.c` with what it calls: the reclaim of a store, the record of a
variable error and the flush of the HOB store. A set, an append and a delete are all calls of this
function; it is given the result of the search that its caller made.

Accesses to the flash device may fail. A new entry whose write failed is not in the store: the next
entry is written to the same place. The runtime caches that mirror the stores are left out.
-/

namespace Edk2.Var

/-! ## Sizes -/

/-- `GetVariableHeaderSize`. -/
def variableHeaderSize (env : Env) : ℕ := if env.authFormat then 60 else 32

/-- `sizeof (VARIABLE_STORE_HEADER)`. -/
def variableStoreHeaderSize : ℕ := 28

def headerAlign (n : ℕ) : ℕ := (n + 3) / 4 * 4

/-- `GetVariableDataOffset`: the size of the header and the name. -/
def dataOffset (env : Env) (key : VarKey) : ℕ := variableHeaderSize env + strSize key.1

def varSize (env : Env) (r : VarRecord) : ℕ := dataOffset env r.key + r.data.length

def recordSize (env : Env) (r : VarRecord) : ℕ := headerAlign (varSize env r)

def recordsSize (env : Env) (l : List VarRecord) : ℕ := (l.map (recordSize env)).sum

def isUserVariable (env : Env) (key : VarKey) : Bool :=
  env.endOfDxe && env.commonMaxUserVariableSpace != env.commonVariableSpace && !env.hasProperty key

def VarRecord.isHwErr (r : VarRecord) : Bool :=
  hasAttribute r.attributes efiVariableHardwareErrorRecord

section

variable (env : Env) (l : List VarRecord)

/-- The three totals over the entries of a store: hardware error records, other entries, and those
of them that are user variables. -/
def hwErrTotal : ℕ :=
  recordsSize env (l.filter VarRecord.isHwErr)

def commonTotal : ℕ :=
  recordsSize env (l.filter fun r => !r.isHwErr)

def commonUserTotal : ℕ :=
  recordsSize env (l.filter fun r => !r.isHwErr && isUserVariable env r.key)

end

/-! ## Accesses to the stores -/

structure Outcome where
  status : EfiStatus
  state : VarState

/-- Whether an access to a store succeeds: only the flash device fails. -/
def accessSucceeds (env : Env) (s : VarState) (store : StoreType) : Bool :=
  store != .nv || env.emuNvMode || env.accessOk s.accesses

def VarState.accessed (s : VarState) : VarState := { s with accesses := s.accesses + 1 }

/-- `UpdateVariableStore` on the state byte of an entry. -/
def updateState (env : Env) (s : VarState) (store : StoreType) (i : ℕ) (mask : BitVec 8) :
    Outcome :=
  if accessSucceeds env s store then
    ⟨.success, s.accessed.setRecords store
      ((s.records store).modify i fun r => r.clearState mask)⟩
  else ⟨.deviceError, s.accessed⟩

/-- Marks the entry found as deleted, and before it the twin in transition. -/
def deleteFound (env : Env) (s : VarState) (track : PointerTrack) : Outcome :=
  let deleteCurr := fun s : VarState =>
    match track.currPtr with
    | some i => updateState env s track.store i varDeleted
    | none => ⟨.success, s⟩
  match track.inDeletedTransitionPtr with
  | some j =>
    let o := updateState env s track.store j varDeleted
    if o.status.isError then o else deleteCurr o.state
  | none => deleteCurr s

/-- The writes of a new entry, one after another. -/
def writeAll (env : Env) (store : StoreType) : ℕ → VarState → Bool × VarState
  | 0, s => (true, s)
  | n + 1, s =>
    if accessSucceeds env s store then writeAll env store n s.accessed else (false, s.accessed)

/-! ## Variable errors -/

def varErrorFlagSystemError : UInt8 := 0xEF
def varErrorFlagUserError : UInt8 := 0xFE

/-- `VAR_ERROR_FLAG_NAME` and `gEdkiiVarErrorFlagGuid`. -/
def varErrorFlagKey : VarKey :=
  ([0x56, 0x61, 0x72, 0x45, 0x72, 0x72, 0x6f, 0x72, 0x46, 0x6c, 0x61, 0x67],
    efiGuid 0x4b37fe8 0xf6ae 0x480b [0xbd, 0xd5, 0x37, 0xd9, 0x8c, 0x5e, 0x89, 0xaa])

/-- `RecordVarErrorFlag`: after the end of the DXE phase the flag is cleared in the variable's data,
in place. -/
def recordVarErrorFlag (env : Env) (s : VarState) (flag : UInt8) : VarState :=
  if !env.endOfDxe then { s with currentBootVarErrFlag := s.currentBootVarErrFlag &&& flag }
  else
    let track := findVariable env s varErrorFlagKey false
    match track.currPtr, (track.found s).map VarRecord.data with
    | some i, some (varErrFlag :: rest) =>
      if varErrFlag &&& flag = varErrFlag then s
      else if accessSucceeds env s .nv then
        s.accessed.setRecords track.store
          ((s.records track.store).modify i fun r => { r with data := (varErrFlag &&& flag) :: rest })
      else s.accessed
    | _, _ => s

/-! ## Reclaiming a store -/

/-- The entries that the first pass of `Reclaim` copies: the added ones, without the one updated. -/
def reclaimAdded (updating : Option ℕ) (l : List VarRecord) : List VarRecord :=
  (l.zipIdx.filter fun e => some e.2 != updating && e.1.isAdded).map Prod.fst

/-- The second pass of `Reclaim`: an entry in transition is added again where the buffer has no
entry of its variable yet. -/
def reclaimTransition (updating inDeleted : Option ℕ) (buffer : List VarRecord)
    (l : List VarRecord) : List VarRecord :=
  l.zipIdx.foldl
    (fun buffer e =>
      if some e.2 != updating && some e.2 != inDeleted && e.1.isInTransition &&
          !buffer.any fun a => a.key == e.1.key then
        buffer ++ [e.1.asAdded]
      else buffer)
    buffer

/-- The entries `Reclaim` keeps. -/
def reclaimed (updating inDeleted : Option ℕ) (l : List VarRecord) : List VarRecord :=
  reclaimTransition updating inDeleted (reclaimAdded updating l) l

def storeSize (env : Env) : StoreType → ℕ
  | .volatile => env.volatileSize
  | .hob => 0
  | .nv => env.nvSize

/-- Whether the new entry does not fit what is left after a reclaim. -/
def reclaimTooSmall (env : Env) (store : StoreType) (kept : List VarRecord) (new : VarRecord) :
    Bool :=
  decide (storeSize env store < variableStoreHeaderSize + recordsSize env kept + recordSize env new) ||
    (store == .nv &&
      (decide (env.hwErrStorageSize < hwErrTotal env (kept ++ [new])) ||
        decide (env.commonVariableSpace < commonTotal env (kept ++ [new])) ||
        decide (env.commonMaxUserVariableSpace < commonUserTotal env (kept ++ [new]))))

/-- The driver's counters after a store was written anew. -/
def VarState.recount (env : Env) (s : VarState) (store : StoreType) (l : List VarRecord) :
    VarState :=
  match store with
  | .nv =>
    { s with
      hwErrVariableTotalSize := hwErrTotal env l
      commonVariableTotalSize := commonTotal env l
      commonUserVariableTotalSize := commonUserTotal env l }
  | _ => { s with volatileLastVariableOffset := variableStoreHeaderSize + recordsSize env l }

/-- `Reclaim` of a store in the middle of an update: the dead entries and the old entry of the
variable go, the new entry is added. -/
def reclaim (env : Env) (s : VarState) (store : StoreType) (track : PointerTrack)
    (new : VarRecord) : Outcome :=
  -- Entries are identified by their address, so the entry updated counts in its own store only.
  let updating := if track.store = store then track.currPtr else none
  let inDeleted := if track.store = store then track.inDeletedTransitionPtr else none
  let kept := reclaimed updating inDeleted (s.records store)
  let usesPool := store == .volatile || env.emuNvMode
  if usesPool && !env.accessOk s.accesses then ⟨.outOfResources, s.accessed⟩
  else if reclaimTooSmall env store kept new then ⟨.outOfResources, s.accessed⟩
  else if !usesPool && !env.accessOk s.accesses then
    -- `FtwVariableSpace` failed: the totals are taken again from all entries of the store.
    ⟨.deviceError, s.accessed.recount env store (s.records store)⟩
  else ⟨.success, (s.accessed.setRecords store (kept ++ [new])).recount env store (kept ++ [new])⟩

/-! ## `UpdateVariable` -/

/-- The arguments of `UpdateVariable`. -/
structure UpdateArgs where
  key : VarKey
  data : List UInt8
  attributes : BitVec 32
  timeStamp : Option EfiTime

namespace UpdateArgs

section

variable (args : UpdateArgs)

/-- `EFI_VARIABLE_APPEND_WRITE` is set. -/
def isAppend : Bool := hasAttribute args.attributes efiVariableAppendWrite

def isNonVolatile : Bool := hasAttribute args.attributes efiVariableNonVolatile

def hasAccess : Bool :=
  hasAttribute args.attributes (efiVariableRuntimeAccess ||| efiVariableBootserviceAccess)

/-- The call deletes the variable it finds. -/
def isDelete : Bool := (!args.isAppend && args.data == []) || !args.hasAccess

def store : StoreType := if args.isNonVolatile then .nv else .volatile

end

end UpdateArgs

/-- The time stamp of the new entry, from the entry found. -/
def newTimeStamp (env : Env) (args : UpdateArgs) (old : Option VarRecord) : EfiTime :=
  if env.authFormat && hasAttribute args.attributes efiVariableTimeBasedAuthenticatedWriteAccess then
    match args.timeStamp with
    | none => .zero
    | some timeStamp =>
      if !args.isAppend then timeStamp
      else
        match old with
        | none => .zero
        | some old => if compareTimeStamp old.timeStamp timeStamp then timeStamp else old.timeStamp
  else .zero

/-- The data of the new entry: an append goes behind the data of the entry found. -/
def newData (args : UpdateArgs) (old : Option VarRecord) : List UInt8 :=
  match old with
  | none => args.data
  | some old => if args.isAppend then old.data ++ args.data else args.data

def newRecord (env : Env) (args : UpdateArgs) (old : Option VarRecord) : VarRecord where
  state := varAdded
  attributes := args.attributes &&& ~~~efiVariableAppendWrite
  timeStamp := newTimeStamp env args old
  key := args.key
  data := newData args old

/-- The largest size of the variable, header and name included. -/
def maxVariableSizeOf (env : Env) (args : UpdateArgs) : ℕ :=
  if hasAttribute args.attributes efiVariableHardwareErrorRecord then env.maxHardwareErrorVariableSize
  else if hasAttribute args.attributes variableAttributeAtAw then env.maxAuthVariableSize
  else if args.isNonVolatile then env.maxVariableSize
  else env.maxVolatileVariableSize

/-- An outcome, and whether the HOB store is flushed next. -/
structure UpdateOutcome extends Outcome where
  flush : Bool

section

variable (env : Env) (s : VarState)

/-- The user variable exceeds the space of the user variables. -/
def exceedsUserSpace (new : VarRecord) : Bool :=
  !new.isHwErr && isUserVariable env new.key &&
    decide (env.commonMaxUserVariableSpace < varSize env new + s.commonUserVariableTotalSize)

/-- The entry exceeds the given space of the common variables. -/
def exceedsSpace (space : ℕ) (new : VarRecord) : Bool :=
  !new.isHwErr && decide (space < varSize env new + s.commonVariableTotalSize)

/-- The new non-volatile entry does not fit without a reclaim. -/
def needsReclaim (new : VarRecord) : Bool :=
  (new.isHwErr && decide (env.hwErrStorageSize < varSize env new + s.hwErrVariableTotalSize)) ||
    exceedsSpace env s env.commonVariableSpace new ||
    (env.atRuntime && exceedsSpace env s env.commonRuntimeVariableSpace new) ||
    exceedsUserSpace env s new

/-- The variable errors recorded where a new non-volatile entry does not fit. -/
def recordSpaceErrors (space : ℕ) (new : VarRecord) : VarState :=
  let s₁ := if exceedsUserSpace env s new then recordVarErrorFlag env s varErrorFlagUserError else s
  if exceedsSpace env s₁ space new then recordVarErrorFlag env s₁ varErrorFlagSystemError else s₁

def VarState.countNew (store : StoreType) (new : VarRecord) : VarState :=
  match store with
  | .nv =>
    if new.isHwErr then
      { s with hwErrVariableTotalSize := s.hwErrVariableTotalSize + recordSize env new }
    else
      { s with
        commonVariableTotalSize := s.commonVariableTotalSize + recordSize env new
        commonUserVariableTotalSize := s.commonUserVariableTotalSize +
          (if isUserVariable env new.key then recordSize env new else 0) }
  | _ =>
    { s with volatileLastVariableOffset := s.volatileLastVariableOffset + recordSize env new }

/-- The end of an update: the new entry is written and the old one deleted. -/
def writeNew (track : PointerTrack) (store : StoreType) (new : VarRecord) : UpdateOutcome :=
  -- A non-volatile entry takes four writes: header, header state, name and data, final state.
  let written := writeAll env store (if store = .nv ∧ env.emuNvMode = false then 4 else 1) s
  if !written.1 then ⟨⟨.deviceError, written.2⟩, false⟩
  else
    let added := (written.2.setRecords store (written.2.records store ++ [new])).countNew env store new
    let o := deleteFound env added track
    ⟨o, !o.status.isError && store == .nv⟩

/-- From the entry found, or from none, to the new entry. -/
def createNew (args : UpdateArgs) (track : PointerTrack) (new : VarRecord) : UpdateOutcome :=
  if args.isNonVolatile then
    if needsReclaim env s new then
      if env.atRuntime then
        ⟨⟨.outOfResources, recordSpaceErrors env s env.commonRuntimeVariableSpace new⟩, false⟩
      else
        let o := reclaim env s .nv track new
        if o.status.isError then
          ⟨⟨o.status, recordSpaceErrors env o.state env.commonVariableSpace new⟩, false⟩
        else ⟨o, true⟩
    else writeNew env s track .nv new
  else if (varSize env new + s.volatileLastVariableOffset) % 2 ^ 32 > env.volatileSize then
    ⟨reclaim env s .volatile track new, false⟩
  else writeNew env s track .volatile new

/-- `UpdateVariable` from the search result on, where that is not in the HOB store. -/
def updateFound (args : UpdateArgs) (track : PointerTrack) : UpdateOutcome :=
  match track.currPtr, track.found s with
  | some i, some old =>
    if env.atRuntime && track.store == .volatile then ⟨⟨.writeProtected, s⟩, false⟩
    else if env.atRuntime && !hasAttribute old.attributes efiVariableNonVolatile then
      ⟨⟨.invalidParameter, s⟩, false⟩
    else if env.atRuntime && !hasAttribute old.attributes efiVariableRuntimeAccess then
      ⟨⟨.invalidParameter, s⟩, false⟩
    else if args.isDelete then
      let o := deleteFound env s track
      ⟨o, !o.status.isError && track.store == .nv⟩
    else if old.data = args.data ∧ args.isAppend = false ∧ args.timeStamp = none then
      ⟨⟨.success, s⟩, false⟩
    else if args.isAppend && decide (sub64 (maxVariableSizeOf env args) (dataOffset env args.key) <
        old.data.length + args.data.length) then
      ⟨⟨.invalidParameter, s⟩, false⟩
    else
      let o := updateState env s track.store i varInDeletedTransition
      if o.status.isError then ⟨o, false⟩
      else createNew env o.state args track (newRecord env args (some old))
  | _, _ =>
    if args.data = [] ∧ args.isAppend then ⟨⟨.success, s⟩, false⟩
    else if args.data = [] ∨ !args.hasAccess then ⟨⟨.notFound, s⟩, false⟩
    else if env.atRuntime && !(hasAttribute args.attributes efiVariableRuntimeAccess &&
        args.isNonVolatile) then
      ⟨⟨.invalidParameter, s⟩, false⟩
    else createNew env s args track (newRecord env args none)

end

/-- The flash device is not ready for the variable. -/
def notWritable (env : Env) (args : UpdateArgs) : Bool :=
  !env.fvbReady && !env.emuNvMode &&
    (args.isNonVolatile || hasAttribute args.attributes variableAttributeAtAw)

/-- The call of `UpdateVariable` that `FlushHobVariableToFlash` makes for an entry of the HOB store,
with that store taken away. -/
def flushRecord (env : Env) (s : VarState) (r : VarRecord) : Outcome :=
  let args : UpdateArgs := ⟨r.key, r.data, r.attributes, none⟩
  if notWritable env args then ⟨.notAvailableYet, s⟩
  else (updateFound env s args (findVariable env s r.key false)).toOutcome

/-- The loop of `FlushHobVariableToFlash`: the entries with those flushed marked as deleted, the
state, and whether an entry could not be flushed. -/
def flushLoop (env : Env) (key : VarKey) :
    List VarRecord → VarState → List VarRecord × VarState × Bool
  | [], s => ([], s, false)
  | r :: rest, s =>
    if !r.isAdded then
      let tail := flushLoop env key rest s
      (r :: tail.1, tail.2.1, tail.2.2)
    else
      let o := if r.key = key then ⟨.success, s⟩ else flushRecord env s r
      let tail := flushLoop env key rest o.state
      if o.status.isError then (r :: tail.1, tail.2.1, true)
      else (r.clearState varDeleted :: tail.1, tail.2.1, tail.2.2)

/-- `FlushHobVariableToFlash`. The store is kept where an entry could not be flushed. -/
def flushHobVariableToFlash (env : Env) (s : VarState) (key : VarKey) : VarState :=
  match s.hobStore with
  | none => s
  | some l =>
    let flushed := flushLoop env key l { s with hobStore := none }
    if flushed.2.2 then { flushed.2.1 with hobStore := some flushed.1 } else flushed.2.1

/-- The flush at the end of an update. -/
def UpdateOutcome.finish (o : UpdateOutcome) (env : Env) (key : VarKey) : Outcome :=
  ⟨o.status, if o.flush then flushHobVariableToFlash env o.state key else o.state⟩

/-- `UpdateVariable`. A variable found in the HOB store is searched for again in the non-volatile
store, so that the HOB entry counts as no entry at all. -/
def updateVariable (env : Env) (s : VarState) (args : UpdateArgs) (track : PointerTrack) :
    Outcome :=
  if notWritable env args then ⟨.notAvailableYet, s⟩
  else if track.currPtr.isSome && track.store == .hob then
    let nvTrack := findVariableEx env false args.key .nv (s.records .nv)
    if nvTrack.currPtr.isNone &&
        ((!args.isAppend && args.data == []) || args.attributes == 0#32) then
      ⟨.success, flushHobVariableToFlash env s args.key⟩
    else (updateFound env s args nvTrack).finish env args.key
  else (updateFound env s args track).finish env args.key

end Edk2.Var
