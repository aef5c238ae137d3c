import Edk2.Base
import Mathlib.Data.List.Nodup
import Mathlib.Logic.Function.Basic

/-!
# The handle database

The handle database of `Handle.c`: handles carry protocol interfaces, each interface is also on the
list of its protocol entry, and has a list of those who opened it. `CoreInstallProtocolInterface`,
`CoreUninstallProtocolInterface`, `CoreOpenProtocol` and `CoreCloseProtocol` edit these lists.

An exclusive open and an uninstall disconnect drivers: they call `CoreDisconnectController`, which
calls the `Stop` functions of drivers, and these call the database again. What such a call does is a
script (`Calls`) of open and close calls, whose own disconnections are scripts in turn; the
functions take the scripts of their disconnections as an argument, as they take the results of
allocations.

A result `none` stands for a failed `ASSERT`, or for a script that ends before the drivers are
disconnected.

## Main results

* `openWith_cases`: what an open call does
* `openEdit_runCalls`: callbacks edit the lists of open entries only
-/

namespace Edk2.Hand

open List Option
open Function (update update_self update_of_ne)

/-! ## Data -/

def openByHandleProtocol : BitVec 32 := 0x00000001#32
def openGetProtocol : BitVec 32 := 0x00000002#32
def openTestProtocol : BitVec 32 := 0x00000004#32
def openByChildController : BitVec 32 := 0x00000008#32
def openByDriver : BitVec 32 := 0x00000010#32
def openExclusive : BitVec 32 := 0x00000020#32

/-- `OPEN_PROTOCOL_DATA`. -/
structure OpenData where
  agentHandle : ℕ
  controllerHandle : ℕ
  attributes : BitVec 32
  openCount : ℕ
  deriving DecidableEq

/-- The entry has the `EFI_OPEN_PROTOCOL_BY_DRIVER` attribute. -/
def OpenData.ByDriver (d : OpenData) : Prop := d.attributes &&& openByDriver ≠ 0

/-- The entry has the `EFI_OPEN_PROTOCOL_EXCLUSIVE` attribute. -/
def OpenData.Exclusive (d : OpenData) : Prop := d.attributes &&& openExclusive ≠ 0

instance (d : OpenData) : Decidable d.ByDriver := inferInstanceAs (Decidable (_ ≠ _))

instance (d : OpenData) : Decidable d.Exclusive := inferInstanceAs (Decidable (_ ≠ _))

/-- `PROTOCOL_INTERFACE`. A protocol entry is known by its GUID. -/
structure ProtocolInterface where
  handle : ℕ
  protocol : EfiGuid
  interface : ℕ
  openList : List OpenData
  openListCount : ℕ
  deriving DecidableEq

/-- **The handle database**: `gHandleList`, the `Protocols` of each handle, `mProtocolDatabase`, the
`Protocols` of each protocol entry, the protocol interfaces in memory, `gHandleDatabaseKey` and the
`Key` of each handle. Handles and protocol interfaces are addresses; the address zero is `NULL`. -/
structure HandleDb where
  handleList : List ℕ
  protocols : ℕ → List ℕ
  entries : List EfiGuid
  byProtocol : EfiGuid → List ℕ
  prot : ℕ → Option ProtocolInterface
  dxeCoreImageHandle : ℕ
  databaseKey : ℕ
  key : ℕ → ℕ

def HandleDb.setProt (db : HandleDb) (p : ℕ) (r : ProtocolInterface) : HandleDb :=
  { db with prot := update db.prot p (some r) }

@[simp] theorem HandleDb.prot_setProt_self (db : HandleDb) (p : ℕ) (r : ProtocolInterface) :
    (db.setProt p r).prot p = some r := update_self ..

theorem HandleDb.prot_setProt_of_ne {p p' : ℕ} (db : HandleDb) (r : ProtocolInterface)
    (h : p' ≠ p) : (db.setProt p r).prot p' = db.prot p' := update_of_ne h ..

theorem HandleDb.forall_setProt {db : HandleDb} {P : ℕ → ProtocolInterface → Prop} {p : ℕ}
    {r : ProtocolInterface} (h : ∀ p' r', db.prot p' = some r' → P p' r') (hr : P p r) :
    ∀ p' r', (db.setProt p r).prot p' = some r' → P p' r' := by
  intro p' r' hpr
  by_cases hp : p' = p
  · subst hp
    rw [prot_setProt_self] at hpr
    obtain rfl := some.inj hpr
    exact hr
  · rw [prot_setProt_of_ne db r hp] at hpr
    exact h p' r' hpr

/-- `CoreValidateHandle` succeeds. -/
def HandleDb.Valid (db : HandleDb) (h : ℕ) : Prop := h ≠ 0 ∧ h ∈ db.handleList

instance (db : HandleDb) (h : ℕ) : Decidable (db.Valid h) := inferInstanceAs (Decidable (_ ∧ _))

/-- The first protocol interface of a handle with a property. -/
def HandleDb.find (db : HandleDb) (h : ℕ) (q : ProtocolInterface → Bool) :
    Option (ℕ × ProtocolInterface) :=
  (db.protocols h).findSome? fun p => (db.prot p).bind fun r => if q r then some (p, r) else none

def coreFindProtocolInterface (db : HandleDb) (h : ℕ) (protocol : EfiGuid) (interface : ℕ) :
    Option (ℕ × ProtocolInterface) :=
  if protocol ∈ db.entries then
    db.find h fun r => r.interface = interface ∧ r.protocol = protocol
  else none

def coreGetProtocolInterface (db : HandleDb) (h : ℕ) (protocol : EfiGuid) :
    Option (ℕ × ProtocolInterface) :=
  if db.Valid h then db.find h fun r => r.protocol = protocol else none

/-! ## Opening and closing -/

/-- The arguments of `CoreOpenProtocol`; `interfaceNull` is whether `Interface` is `NULL`. -/
structure OpenArgs where
  userHandle : ℕ
  protocol : Option EfiGuid
  interfaceNull : Bool
  imageHandle : ℕ
  controllerHandle : ℕ
  attributes : BitVec 32

/-- The arguments of `CoreCloseProtocol`. -/
structure CloseArgs where
  userHandle : ℕ
  protocol : Option EfiGuid
  agentHandle : ℕ
  controllerHandle : ℕ

/-- The attributes are known, and the handles they need are valid. -/
def OpenArgs.Accepted (db : HandleDb) (a : OpenArgs) : Prop :=
  if a.attributes = openByChildController then
    db.Valid a.imageHandle ∧ db.Valid a.controllerHandle ∧ a.userHandle ≠ a.controllerHandle
  else if a.attributes = openByDriver ∨ a.attributes = openByDriver ||| openExclusive then
    db.Valid a.imageHandle ∧ db.Valid a.controllerHandle
  else if a.attributes = openExclusive then db.Valid a.imageHandle
  else
    a.attributes = openByHandleProtocol ∨ a.attributes = openGetProtocol ∨
      a.attributes = openTestProtocol

instance (db : HandleDb) (a : OpenArgs) : Decidable (a.Accepted db) := by
  unfold OpenArgs.Accepted
  infer_instance

def OpenArgs.ExactMatch (a : OpenArgs) (d : OpenData) : Prop :=
  d.agentHandle = a.imageHandle ∧ d.attributes = a.attributes ∧
    d.controllerHandle = a.controllerHandle

instance (a : OpenArgs) (d : OpenData) : Decidable (a.ExactMatch d) :=
  inferInstanceAs (Decidable (_ ∧ _))

/-- The result of the search through the open list: `ByDriver` and `Exclusive` if there is no exact
match. -/
inductive Scan
  | alreadyStarted
  | counted (openList : List OpenData)
  | unmatched (byDriver exclusive : Bool)

/-- The search through the open list. -/
def scan (a : OpenArgs) : List OpenData → Scan
  | [] => .unmatched false false
  | d :: ds =>
    if d.ByDriver ∧ a.ExactMatch d then .alreadyStarted
    else if ¬ d.Exclusive ∧ a.ExactMatch d then
      .counted ({ d with openCount := (d.openCount + 1) % 2 ^ 32 } :: ds)
    else
      match scan a ds with
      | .alreadyStarted => .alreadyStarted
      | .counted l => .counted (d :: l)
      | .unmatched byDriver exclusive =>
        .unmatched (d.ByDriver ∨ byDriver) (d.Exclusive ∨ exclusive)

def OpenArgs.openData (a : OpenArgs) : OpenData :=
  ⟨a.imageHandle, a.controllerHandle, a.attributes, 1⟩

/-- The result of `CoreOpenProtocol`; `interface` is what is stored to `*Interface`, if anything. -/
structure OpenResult where
  status : EfiStatus
  interface : Option ℕ
  db : HandleDb

/-- The end of `CoreOpenProtocol`, at `Done`. -/
def openDone (a : OpenArgs) (db : HandleDb) (r : Option ProtocolInterface) (status : EfiStatus) :
    OpenResult :=
  { status := status
    interface :=
      if a.attributes = openTestProtocol then none
      else if ¬ status.isError ∨ status = .alreadyStarted then r.map ProtocolInterface.interface
      else if status = .unsupported then some 0
      else none
    db := db }

/-- The new entry is put on the open list, unless there is no `ImageHandle` to put it down to. -/
def createOpenData (a : OpenArgs) (db : HandleDb) (p : ℕ) (alloc : Bool) : OpenResult :=
  match db.prot p with
  | none => openDone a db none .unsupported
  | some r =>
    if a.imageHandle = 0 then openDone a db (some r) .success
    else if alloc then
      openDone a (db.setProt p
        { r with openList := r.openList ++ [a.openData], openListCount := r.openListCount + 1 })
        (some r) .success
    else openDone a db (some r) .outOfResources

/-- `CoreOpenProtocol`, with what disconnecting the drivers of an interface does: the database
behind it, and whether all of them were disconnected. -/
def openWith (disconnect : ℕ → HandleDb → Option (HandleDb × Bool)) (db : HandleDb) (a : OpenArgs)
    (alloc : Bool) : Option OpenResult :=
  match a.protocol with
  | none => some ⟨.invalidParameter, none, db⟩
  | some protocol =>
    if a.attributes ≠ openTestProtocol ∧ a.interfaceNull then some ⟨.invalidParameter, none, db⟩
    else if ¬ db.Valid a.userHandle then some ⟨.invalidParameter, none, db⟩
    else if ¬ a.Accepted db then some ⟨.invalidParameter, none, db⟩
    else
      match coreGetProtocolInterface db a.userHandle protocol with
      | none => some (openDone a db none .unsupported)
      | some (p, r) =>
        match scan a r.openList with
        | .alreadyStarted => some (openDone a db (some r) .alreadyStarted)
        | .counted l => some (openDone a (db.setProt p { r with openList := l }) (some r) .success)
        | .unmatched byDriver exclusive =>
          if a.attributes = openByDriver then
            if exclusive ∨ byDriver then some (openDone a db (some r) .accessDenied)
            else some (createOpenData a db p alloc)
          else if a.attributes = openByDriver ||| openExclusive ∨ a.attributes = openExclusive then
            if exclusive then some (openDone a db (some r) .accessDenied)
            else if byDriver then
              (disconnect p db).map fun (db, disconnected) =>
                if disconnected then createOpenData a db p alloc
                else openDone a db (some r) .accessDenied
            else some (createOpenData a db p alloc)
          else some (createOpenData a db p alloc)

/-- The entry is one that `CoreCloseProtocol` removes. -/
def CloseArgs.Closes (a : CloseArgs) (d : OpenData) : Prop :=
  d.agentHandle = a.agentHandle ∧ d.controllerHandle = a.controllerHandle

instance (a : CloseArgs) (d : OpenData) : Decidable (a.Closes d) :=
  inferInstanceAs (Decidable (_ ∧ _))

/-- Entries are removed from the open list of an interface, and counted. -/
def ProtocolInterface.remove (r : ProtocolInterface) (q : OpenData → Bool) : ProtocolInterface :=
  { r with
    openList := r.openList.filter fun d => ¬ q d
    openListCount := r.openListCount - r.openList.countP q }

def coreCloseProtocol (db : HandleDb) (a : CloseArgs) : EfiStatus × HandleDb :=
  if ¬ db.Valid a.userHandle then (.invalidParameter, db)
  else if ¬ db.Valid a.agentHandle then (.invalidParameter, db)
  else if a.controllerHandle ≠ 0 ∧ ¬ db.Valid a.controllerHandle then (.invalidParameter, db)
  else
    match a.protocol with
    | none => (.invalidParameter, db)
    | some protocol =>
      match coreGetProtocolInterface db a.userHandle protocol with
      | none => (.notFound, db)
      | some (p, r) =>
        (if r.openList.any fun d => a.Closes d then .success else .notFound,
          db.setProt p (r.remove fun d => a.Closes d))

/-! ## Callbacks -/

mutual

/-- What a callback does: open and close calls. An open call comes with the result of its allocation
and with what disconnecting drivers does. -/
inductive Calls
  | nil
  | openProtocol (a : OpenArgs) (alloc : Bool) (stops : Stops) (rest : Calls)
  | closeProtocol (a : CloseArgs) (rest : Calls)

/-- What the calls of `CoreDisconnectController` in a loop do, and whether they succeed. -/
inductive Stops
  | nil
  | stop (calls : Calls) (success : Bool) (rest : Stops)

end

def HandleDb.Driven (db : HandleDb) (p : ℕ) : Prop :=
  ∃ d ∈ (db.prot p).elim [] ProtocolInterface.openList, d.ByDriver

instance (db : HandleDb) (p : ℕ) : Decidable (db.Driven p) :=
  inferInstanceAs (Decidable (∃ d ∈ _, _))

mutual

/-- A callback runs. -/
def runCalls : Calls → HandleDb → Option HandleDb
  | .nil, db => some db
  | .openProtocol a alloc stops rest, db =>
    (openWith (fun p db => runStops stops p db) db a alloc).bind fun r => runCalls rest r.db
  | .closeProtocol a rest, db => runCalls rest (coreCloseProtocol db a).2

/-- The loop that calls `CoreDisconnectController` while a driver has the interface open, until a
call fails. -/
def runStops : Stops → ℕ → HandleDb → Option (HandleDb × Bool)
  | .nil, p, db => if db.Driven p then none else some (db, true)
  | .stop calls success rest, p, db =>
    if db.Driven p then
      (runCalls calls db).bind fun db => if success then runStops rest p db else some (db, false)
    else some (db, true)

end

def coreOpenProtocol (db : HandleDb) (a : OpenArgs) (alloc : Bool) (stops : Stops) :
    Option OpenResult :=
  openWith (runStops stops) db a alloc

def coreHandleProtocol (db : HandleDb) (h : ℕ) (protocol : EfiGuid) (alloc : Bool) :
    Option OpenResult :=
  coreOpenProtocol db
    ⟨h, some protocol, false, db.dxeCoreImageHandle, 0, openByHandleProtocol⟩ alloc .nil

/-! ## Installing -/

/-- The results of the allocations of an install call: the open entry of `CoreHandleProtocol`, the
protocol entry, the protocol interface and the handle. -/
structure InstallAlloc where
  openData : Bool
  entry : Bool
  prot : Option ℕ
  handle : Option ℕ

/-- The protocol interface that is allocated: memory that is not in use. -/
def HandleDb.newProt (db : HandleDb) (alloc : InstallAlloc) : Option ℕ :=
  alloc.prot.filter fun p => (db.prot p).isNone

/-- The handle that is allocated: memory that is not in use. -/
def HandleDb.newHandle (db : HandleDb) (alloc : InstallAlloc) : Option ℕ :=
  alloc.handle.filter fun h => h ≠ 0 ∧ h ∉ db.handleList

/-- The result of an install call: the status, `*UserHandle` and the database. -/
structure InstallResult where
  status : EfiStatus
  handle : ℕ
  db : HandleDb

section

variable (db : HandleDb)

/-- `CoreFindProtocolEntry` with `Create`; `none` if the entry cannot be allocated. -/
def coreFindProtocolEntry (protocol : EfiGuid) (alloc : Bool) : Option HandleDb :=
  if protocol ∈ db.entries then some db
  else if alloc then
    some { db with
      entries := db.entries ++ [protocol]
      byProtocol := update db.byProtocol protocol [] }
  else none

/-- `gHandleDatabaseKey` is counted up, and is the `Key` of the handle. -/
def HandleDb.advanceKey (h : ℕ) : HandleDb :=
  { db with
    databaseKey := add64 db.databaseKey 1
    key := update db.key h (add64 db.databaseKey 1) }

/-- A new handle is put on `gHandleList`. -/
def HandleDb.addHandle (h : ℕ) : HandleDb :=
  { db.advanceKey h with
    handleList := db.handleList ++ [h]
    protocols := update db.protocols h [] }

/-- A protocol interface is put on the list of its handle and on that of its entry. -/
def HandleDb.addInterface (p h : ℕ) (protocol : EfiGuid) (interface : ℕ) : HandleDb :=
  { db with
    protocols := update db.protocols h (p :: db.protocols h)
    byProtocol := update db.byProtocol protocol (db.byProtocol protocol ++ [p])
    prot := update db.prot p (some ⟨h, protocol, interface, [], 0⟩) }

/-- `CoreInstallProtocolInterfaceNotify` from the lock of the database on; `status` is what
`CoreHandleProtocol` returned, or `EFI_OUT_OF_RESOURCES`. -/
def installLocked (h : ℕ) (protocol : EfiGuid) (interface : ℕ) (status : EfiStatus)
    (alloc : InstallAlloc) : Option InstallResult :=
  match coreFindProtocolEntry db protocol alloc.entry with
  | none => some ⟨status, h, db⟩
  | some db =>
    match db.newProt alloc with
    | none => some ⟨.outOfResources, h, db⟩
    | some p =>
      if h = 0 then
        match db.newHandle alloc with
        | none => some ⟨.outOfResources, h, db⟩
        | some h' => some ⟨.success, h', (db.addHandle h').addInterface p h' protocol interface⟩
      else if ¬ db.Valid h then some ⟨.invalidParameter, h, db⟩
      else if coreFindProtocolInterface db h protocol interface ≠ none then none
      else some ⟨.success, h, db.addInterface p h protocol interface⟩

/-- `CoreInstallProtocolInterface` for a handle variable and a native interface. -/
def installNative (h : ℕ) (protocol : EfiGuid) (interface : ℕ)
    (alloc : InstallAlloc) : Option InstallResult :=
  if h = 0 then installLocked db h protocol interface .outOfResources alloc
  else
    (coreHandleProtocol db h protocol alloc.openData).bind fun r =>
      if r.status.isError then installLocked r.db h protocol interface r.status alloc
      else some ⟨.invalidParameter, h, r.db⟩

/-- `CoreInstallProtocolInterface`. The pointers `UserHandle` and `Protocol` are `none` if `NULL`;
`native` is whether `InterfaceType` is `EFI_NATIVE_INTERFACE`. -/
def coreInstallProtocolInterface (userHandle : Option ℕ) (protocol : Option EfiGuid)
    (native : Bool) (interface : ℕ) (alloc : InstallAlloc) : Option InstallResult :=
  match userHandle, protocol with
  | some h, some protocol =>
    if native then installNative db h protocol interface alloc
    else some ⟨.invalidParameter, h, db⟩
  | userHandle, _ => some ⟨.invalidParameter, userHandle.getD 0, db⟩

end

/-! ## Uninstalling -/

/-- What the callbacks of an uninstall call do: those that disconnect drivers, and
`CoreConnectController` if they fail. -/
structure UninstallCalls where
  stops : Stops
  connect : Calls

/-- The entry was opened by handle, to get or to test the protocol. -/
def OpenData.Informational (d : OpenData) : Prop :=
  d.attributes &&& (openByHandleProtocol ||| openGetProtocol ||| openTestProtocol) ≠ 0

instance (d : OpenData) : Decidable d.Informational := inferInstanceAs (Decidable (_ ≠ _))

section

variable (db : HandleDb)

/-- The informational entries of an interface are removed. -/
def HandleDb.dropInformational (p : ℕ) : HandleDb :=
  match db.prot p with
  | none => db
  | some r => db.setProt p (r.remove fun d => d.Informational)

/-- `CoreDisconnectControllersUsingProtocolInterface`: whether all users are disconnected. -/
def coreDisconnectControllers (p : ℕ) (calls : UninstallCalls) : Option (HandleDb × Bool) :=
  (runStops calls.stops p db).bind fun (db, disconnected) =>
    let db := if disconnected then db.dropInformational p else db
    if disconnected ∧ (db.prot p).all fun r => r.openListCount = 0 then some (db, true)
    else (runCalls calls.connect db).map fun db => (db, false)

/-- A protocol interface is taken off its lists and freed. -/
def HandleDb.removeInterface (p h : ℕ) (r : ProtocolInterface) : HandleDb :=
  { db.advanceKey h with
    protocols := update db.protocols h ((db.protocols h).erase p)
    byProtocol := update db.byProtocol r.protocol ((db.byProtocol r.protocol).erase p)
    prot := update db.prot p none }

/-- A handle without protocols is freed. -/
def HandleDb.freeHandle (h : ℕ) : HandleDb :=
  if db.protocols h = [] then { db with handleList := db.handleList.erase h } else db

def coreUninstallProtocolInterface (h : ℕ) (protocol : Option EfiGuid)
    (interface : ℕ) (calls : UninstallCalls) : Option (EfiStatus × HandleDb) :=
  match protocol with
  | none => some (.invalidParameter, db)
  | some protocol =>
    if ¬ db.Valid h then some (.invalidParameter, db)
    else
      match coreFindProtocolInterface db h protocol interface with
      | none => some (.notFound, db)
      | some (p, _) =>
        (coreDisconnectControllers db p calls).map fun (db, disconnected) =>
          if disconnected then
            match coreFindProtocolInterface db h protocol interface with
            | none => (.notFound, db.freeHandle h)
            | some (p, r) => (.success, (db.removeInterface p h r).freeHandle h)
          else (.accessDenied, db)

end

/-! ## What a search finds -/

section Find

variable {db : HandleDb} {h p : ℕ} {r : ProtocolInterface} {q : ProtocolInterface → Bool}
  {protocol : EfiGuid} {interface : ℕ}

theorem find_eq_some (hf : db.find h q = some (p, r)) :
    p ∈ db.protocols h ∧ db.prot p = some r ∧ q r = true := by
  obtain ⟨p', hmem, hs⟩ := exists_of_findSome?_eq_some hf
  obtain ⟨r', hp, hite⟩ := bind_eq_some_iff.mp hs
  split at hite
  · rename_i hq
    cases hite
    exact ⟨hmem, hp, hq⟩
  · cases hite

theorem find_eq_none (hf : db.find h q = none) (hmem : p ∈ db.protocols h)
    (hp : db.prot p = some r) : q r = false := by
  have hnone := List.findSome?_eq_none_iff.mp hf p hmem
  rw [hp, bind_some] at hnone
  split at hnone
  · cases hnone
  · rename_i hq
    simpa using hq

theorem coreGetProtocolInterface_eq_some
    (hg : coreGetProtocolInterface db h protocol = some (p, r)) :
    p ∈ db.protocols h ∧ db.prot p = some r ∧ r.protocol = protocol := by
  unfold coreGetProtocolInterface at hg
  split at hg
  · simpa using find_eq_some hg
  · cases hg

theorem coreFindProtocolInterface_eq_some
    (hg : coreFindProtocolInterface db h protocol interface = some (p, r)) :
    p ∈ db.protocols h ∧ db.prot p = some r ∧ r.interface = interface ∧ r.protocol = protocol := by
  unfold coreFindProtocolInterface at hg
  split at hg
  · simpa using find_eq_some hg
  · cases hg

end Find

/-! ## What an open call does -/

section Open

variable {db db' : HandleDb} {a : OpenArgs} {alloc : Bool} {p : ℕ} {l l' : List OpenData}
  {byDriver exclusive : Bool} {disconnect : ℕ → HandleDb → Option (HandleDb × Bool)}

/-- The entry keeps others out: it has the attribute `BY_DRIVER` or `EXCLUSIVE`. -/
def OpenData.Owns (d : OpenData) : Prop := d.ByDriver ∨ d.Exclusive

instance (d : OpenData) : Decidable d.Owns := inferInstanceAs (Decidable (_ ∨ _))

theorem map_attributes_of_counted (h : scan a l = .counted l') :
    l'.map OpenData.attributes = l.map OpenData.attributes := by
  induction l generalizing l' with
  | nil => cases h
  | cons d ds ih =>
    rw [scan] at h
    split at h
    · cases h
    · split at h
      · cases h
        rfl
      · split at h
        · cases h
        · rename_i l'' hs
          cases h
          rw [map_cons, map_cons, ih hs]
        · cases h

/-- `ByDriver` and `Exclusive` are what the list says. -/
theorem scan_unmatched (h : scan a l = .unmatched byDriver exclusive) :
    (byDriver = true ↔ ∃ d ∈ l, d.ByDriver) ∧ (exclusive = true ↔ ∃ d ∈ l, d.Exclusive) := by
  induction l generalizing byDriver exclusive with
  | nil =>
    cases h
    simp
  | cons d ds ih =>
    rw [scan] at h
    split at h
    · cases h
    · split at h
      · cases h
      · split at h
        · cases h
        · cases h
        · rename_i byDriver' exclusive' hs
          cases h
          obtain ⟨hd, he⟩ := ih hs
          constructor
          · rw [decide_eq_true_eq, hd, exists_mem_cons_iff]
          · rw [decide_eq_true_eq, he, exists_mem_cons_iff]

section

variable (a : OpenArgs) (db : HandleDb)

/-- A new entry was put on the open list of an interface. -/
def Created (p : ℕ) (db' : HandleDb) : Prop :=
  ∃ r, db.prot p = some r ∧ db' = db.setProt p
    { r with openList := r.openList ++ [a.openData], openListCount := r.openListCount + 1 }

theorem createOpenData_cases (p : ℕ) (alloc : Bool) :
    (createOpenData a db p alloc).db = db ∨ Created a db p (createOpenData a db p alloc).db := by
  unfold createOpenData
  split
  · exact .inl rfl
  · rename_i r hp
    split
    · exact .inl rfl
    · split
      · exact .inr ⟨r, hp, rfl⟩
      · exact .inl rfl

end

/-- Attributes that are accepted and not those of a driver or of exclusive use do not keep others
out. -/
theorem not_owns_of_accepted (ha : a.Accepted db) (hd : a.attributes ≠ openByDriver)
    (he : ¬ (a.attributes = openByDriver ||| openExclusive ∨ a.attributes = openExclusive)) :
    ¬ a.openData.Owns := by
  rw [not_or] at he
  have hk : a.attributes = openByChildController ∨ a.attributes = openByHandleProtocol ∨
      a.attributes = openGetProtocol ∨ a.attributes = openTestProtocol := by
    unfold OpenArgs.Accepted at ha
    split at ha
    · exact .inl ‹_›
    · rw [if_neg (not_or.mpr ⟨hd, he.1⟩), if_neg he.2] at ha
      exact .inr ha
  unfold OpenData.Owns OpenData.ByDriver OpenData.Exclusive OpenArgs.openData
  dsimp only
  rcases hk with h | h | h | h <;> rw [h] <;> decide

/-- **What an open call does**: it leaves the database as it is, counts an entry, creates one, or
disconnects drivers first. An entry that keeps others out is created only if none was there. -/
theorem openWith_cases {res : OpenResult} (h : openWith disconnect db a alloc = some res) :
    res.db = db ∨
    ∃ protocol p r, a.protocol = some protocol ∧
      coreGetProtocolInterface db a.userHandle protocol = some (p, r) ∧
      ((∃ l, scan a r.openList = .counted l ∧ res.db = db.setProt p { r with openList := l }) ∨
        (Created a db p res.db ∧ (a.openData.Owns → ∀ d ∈ r.openList, ¬ d.Owns)) ∨
        (a.openData.Exclusive ∧ (∀ d ∈ r.openList, ¬ d.Exclusive) ∧
          ∃ db₁ disconnected, disconnect p db = some (db₁, disconnected) ∧
            (res.db = db₁ ∨ disconnected = true ∧ Created a db₁ p res.db))) := by
  unfold openWith at h
  split at h
  · cases h
    exact .inl rfl
  rename_i protocol hp
  split at h
  · cases h
    exact .inl rfl
  split at h
  · cases h
    exact .inl rfl
  split at h
  · cases h
    exact .inl rfl
  rename_i ha
  split at h
  · cases h
    exact .inl rfl
  rename_i p r hg
  have hcre : ∀ byDriver exclusive, scan a r.openList = .unmatched byDriver exclusive →
      (a.openData.Owns → byDriver = false ∧ exclusive = false) →
      some (createOpenData a db p alloc) = some res →
      res.db = db ∨ Created a db p res.db ∧ (a.openData.Owns → ∀ d ∈ r.openList, ¬ d.Owns) := by
    intro byDriver exclusive hs hfree hr
    obtain rfl := some.inj hr
    refine (createOpenData_cases a db p alloc).imp_right fun hcr => ⟨hcr, ?_⟩
    intro how d hd
    obtain ⟨hdr, he⟩ := scan_unmatched hs
    obtain ⟨rfl, rfl⟩ := hfree how
    rintro (hd' | hd')
    · exact Bool.false_ne_true (hdr.mpr ⟨d, hd, hd'⟩)
    · exact Bool.false_ne_true (he.mpr ⟨d, hd, hd'⟩)
  split at h
  · cases h
    exact .inl rfl
  · rename_i l hs
    cases h
    exact .inr ⟨protocol, p, r, hp, hg, .inl ⟨l, hs, rfl⟩⟩
  · rename_i byDriver exclusive hs
    split at h
    · split at h
      · cases h
        exact .inl rfl
      · rename_i hfree
        refine (hcre _ _ hs (fun _ => ?_) h).imp_right fun hc =>
          ⟨protocol, p, r, hp, hg, .inr (.inl hc)⟩
        simpa [and_comm] using hfree
    · rename_i hdr
      split at h
      · rename_i hattr
        have hex : a.openData.Exclusive := by
          unfold OpenData.Exclusive OpenArgs.openData
          dsimp only
          rcases hattr with h | h <;> rw [h] <;> decide
        split at h
        · cases h
          exact .inl rfl
        · rename_i hnone
          have hnone : exclusive = false := by simpa using hnone
          subst hnone
          split at h
          · obtain ⟨⟨db₁, disconnected⟩, hdi, hr⟩ := map_eq_some_iff.mp h
            refine .inr ⟨protocol, p, r, hp, hg, .inr (.inr ⟨hex, ?_, db₁, disconnected,
              hdi, ?_⟩)⟩
            · intro d hd hd'
              exact Bool.false_ne_true ((scan_unmatched hs).2.mpr ⟨d, hd, hd'⟩)
            · dsimp only at hr
              split at hr
              · obtain rfl := hr
                exact (createOpenData_cases a db₁ p alloc).imp_right fun hc => ⟨‹_›, hc⟩
              · obtain rfl := hr
                exact .inl rfl
          · rename_i hno
            refine (hcre _ _ hs (fun _ => ⟨by simpa using hno, rfl⟩) h).imp_right fun hc =>
              ⟨protocol, p, r, hp, hg, .inr (.inl hc)⟩
      · rename_i ho
        have hn := not_owns_of_accepted (not_not.mp ha) hdr ho
        exact (hcre _ _ hs (fun how => absurd how hn) h).imp_right fun hc =>
          ⟨protocol, p, r, hp, hg, .inr (.inl hc)⟩

end Open

/-! ## Callbacks edit the lists of open entries only -/

section Links

variable {db db₁ db₂ db' : HandleDb} {p : ℕ} {r r' : ProtocolInterface}

/-- Where a protocol interface belongs: its handle, its protocol and its interface. -/
def ProtocolInterface.links (r : ProtocolInterface) : ℕ × EfiGuid × ℕ :=
  (r.handle, r.protocol, r.interface)

/-- **The two databases differ in lists of open entries only.** -/
structure SameLinks (db db' : HandleDb) : Prop where
  handleList : db'.handleList = db.handleList
  protocols : db'.protocols = db.protocols
  entries : db'.entries = db.entries
  byProtocol : db'.byProtocol = db.byProtocol
  dxeCoreImageHandle : db'.dxeCoreImageHandle = db.dxeCoreImageHandle
  databaseKey : db'.databaseKey = db.databaseKey
  key : db'.key = db.key
  prot : ∀ p, (db'.prot p).map ProtocolInterface.links = (db.prot p).map ProtocolInterface.links

def Counted (db : HandleDb) : Prop :=
  ∀ p r, db.prot p = some r → r.openListCount = r.openList.length

theorem SameLinks.refl (db : HandleDb) : SameLinks db db :=
  ⟨rfl, rfl, rfl, rfl, rfl, rfl, rfl, fun _ => rfl⟩

theorem SameLinks.trans (h₁ : SameLinks db db₁) (h₂ : SameLinks db₁ db₂) : SameLinks db db₂ :=
  ⟨h₂.handleList.trans h₁.handleList, h₂.protocols.trans h₁.protocols,
    h₂.entries.trans h₁.entries, h₂.byProtocol.trans h₁.byProtocol,
    h₂.dxeCoreImageHandle.trans h₁.dxeCoreImageHandle, h₂.databaseKey.trans h₁.databaseKey,
    h₂.key.trans h₁.key, fun p => (h₂.prot p).trans (h₁.prot p)⟩

theorem SameLinks.setProt (hpr : db.prot p = some r) (hl : r'.links = r.links) :
    SameLinks db (db.setProt p r') := by
  refine ⟨rfl, rfl, rfl, rfl, rfl, rfl, rfl, fun p' => ?_⟩
  by_cases hp : p' = p
  · subst hp
    rw [HandleDb.prot_setProt_self, hpr, map_some, map_some, hl]
  · rw [HandleDb.prot_setProt_of_ne db r' hp]

theorem SameLinks.exists_prot (h : SameLinks db db') (hp : db.prot p = some r) :
    ∃ r', db'.prot p = some r' ∧ r'.links = r.links := by
  have hl := h.prot p
  rw [hp] at hl
  exact map_eq_some_iff.mp hl

theorem SameLinks.symm (h : SameLinks db db') : SameLinks db' db :=
  ⟨h.handleList.symm, h.protocols.symm, h.entries.symm, h.byProtocol.symm,
    h.dxeCoreImageHandle.symm, h.databaseKey.symm, h.key.symm, fun p => (h.prot p).symm⟩

theorem Counted.setProt (h : Counted db) (hr : r.openListCount = r.openList.length) :
    Counted (db.setProt p r) :=
  HandleDb.forall_setProt h hr

/-- What an edit of open entries keeps: the links, and the right counts. -/
structure OpenEdit (db db' : HandleDb) : Prop where
  links : SameLinks db db'
  counted : Counted db → Counted db'

theorem OpenEdit.refl (db : HandleDb) : OpenEdit db db := ⟨.refl db, id⟩

theorem OpenEdit.trans (h₁ : OpenEdit db db₁) (h₂ : OpenEdit db₁ db₂) : OpenEdit db db₂ :=
  ⟨h₁.links.trans h₂.links, h₂.counted ∘ h₁.counted⟩

theorem OpenEdit.created {a : OpenArgs} (h : Created a db p db') : OpenEdit db db' := by
  obtain ⟨r, hp, rfl⟩ := h
  refine ⟨.setProt hp rfl, fun hc => hc.setProt ?_⟩
  rw [length_append, length_singleton, ← hc p r hp]

theorem OpenEdit.openWith {disconnect : ℕ → HandleDb → Option (HandleDb × Bool)} {a : OpenArgs}
    {alloc : Bool} {res : OpenResult} (he : OpenEdit db₁ db)
    (hd : ∀ p db' ok, disconnect p db = some (db', ok) → OpenEdit db₁ db')
    (h : openWith disconnect db a alloc = some res) : OpenEdit db₁ res.db := by
  rcases openWith_cases h with hsa | ⟨protocol, p, r, -, hg, hca⟩
  · rwa [hsa]
  obtain ⟨-, hp, -⟩ := coreGetProtocolInterface_eq_some hg
  rcases hca with ⟨l, hs, hr⟩ | ⟨hc, -⟩ | ⟨-, -, db₂, ok, hstop, hr⟩
  · rw [hr]
    refine he.trans ⟨.setProt hp rfl, fun hcn => hcn.setProt ?_⟩
    have hl := congrArg List.length (map_attributes_of_counted hs)
    rw [length_map, length_map] at hl
    rw [hl]
    exact hcn p r hp
  · exact he.trans (.created hc)
  · have hf := hd p db₂ ok hstop
    rcases hr with hr | ⟨-, hc⟩
    · rwa [hr]
    · exact hf.trans (.created hc)

theorem OpenEdit.remove {q : OpenData → Bool} (hp : db.prot p = some r) :
    OpenEdit db (db.setProt p (r.remove q)) := by
  refine ⟨.setProt hp rfl, fun hc => hc.setProt ?_⟩
  have hl : r.openList.length
      = r.openList.countP q + r.openList.countP (fun d => ¬ q d) := by
    rw [length_eq_countP_add_countP q]
  show r.openListCount - r.openList.countP q = (r.openList.filter fun d => ¬ q d).length
  rw [← countP_eq_length_filter, hc p r hp]
  omega

/-- **What a close call does**: entries of one interface are removed, if any. -/
theorem coreCloseProtocol_cases (db : HandleDb) (a : CloseArgs) :
    (coreCloseProtocol db a).2 = db ∨ ∃ p r q, db.prot p = some r ∧
      (coreCloseProtocol db a).2 = db.setProt p (r.remove q) := by
  unfold coreCloseProtocol
  split
  · exact .inl rfl
  split
  · exact .inl rfl
  split
  · exact .inl rfl
  split
  · exact .inl rfl
  split
  · exact .inl rfl
  · rename_i p r hg
    exact .inr ⟨p, r, _, (coreGetProtocolInterface_eq_some hg).2.1, rfl⟩

theorem openEdit_coreCloseProtocol (db : HandleDb) (a : CloseArgs) :
    OpenEdit db (coreCloseProtocol db a).2 := by
  rcases coreCloseProtocol_cases db a with hs | ⟨p, r, q, hp, hs⟩
  · rw [hs]
    exact .refl db
  · rw [hs]
    exact .remove hp

section Kept

variable (I : HandleDb → Prop) (C : Calls → Prop) (S : Stops → Prop)

/-- **What callbacks keep**: an invariant that the open and close calls of admitted scripts keep.
The scripts of an open call are those of the drivers it disconnects. -/
structure Kept : Prop where
  openProtocol : ∀ {a alloc stops rest db res}, C (.openProtocol a alloc stops rest) → I db →
    (∀ p db₁ ok, runStops stops p db = some (db₁, ok) → I db₁) →
    openWith (runStops stops) db a alloc = some res → I res.db
  closeProtocol : ∀ {db} a, I db → I (coreCloseProtocol db a).2
  behindOpen : ∀ {a alloc stops rest}, C (.openProtocol a alloc stops rest) → S stops ∧ C rest
  behindClose : ∀ {a rest}, C (.closeProtocol a rest) → C rest
  stop : ∀ {calls success rest}, S (.stop calls success rest) → C calls ∧ S rest

variable {I C S} (hk : Kept I C S)

include hk

mutual

theorem Kept.runCalls : ∀ {calls : Calls} {db db' : HandleDb}, C calls → I db →
    runCalls calls db = some db' → I db'
  | .nil, db, db', _, hi, h => by
    obtain rfl := some.inj h
    exact hi
  | .openProtocol a alloc stops rest, db, db', hc, hi, h => by
    rw [Hand.runCalls] at h
    obtain ⟨res, ho, hr⟩ := bind_eq_some_iff.mp h
    obtain ⟨hs, hrest⟩ := hk.behindOpen hc
    exact Kept.runCalls hrest (hk.openProtocol hc hi (fun _ _ _ => Kept.runStops hs hi) ho) hr
  | .closeProtocol a rest, db, db', hc, hi, h => by
    rw [Hand.runCalls] at h
    exact Kept.runCalls (hk.behindClose hc) (hk.closeProtocol a hi) h

theorem Kept.runStops : ∀ {stops : Stops} {p : ℕ} {db db' : HandleDb} {ok : Bool}, S stops → I db →
    runStops stops p db = some (db', ok) → I db'
  | .nil, p, db, db', ok, _, hi, h => by
    rw [Hand.runStops] at h
    split at h
    · cases h
    · cases h
      exact hi
  | .stop calls success rest, p, db, db', ok, hs, hi, h => by
    rw [Hand.runStops] at h
    split at h
    · obtain ⟨db₁, hc, hr⟩ := bind_eq_some_iff.mp h
      have hf := Kept.runCalls (hk.stop hs).1 hi hc
      split at hr
      · exact Kept.runStops (hk.stop hs).2 hf hr
      · cases hr
        exact hf
    · cases h
      exact hi

end

end Kept

theorem kept_openEdit (db : HandleDb) : Kept (OpenEdit db) (fun _ => True) fun _ => True where
  openProtocol _ he hd ho := he.openWith hd ho
  closeProtocol a he := he.trans (openEdit_coreCloseProtocol _ a)
  behindOpen _ := ⟨trivial, trivial⟩
  behindClose _ := trivial
  stop _ := ⟨trivial, trivial⟩

/-- **Callbacks edit the lists of open entries only**, and keep the counts right. -/
theorem openEdit_runCalls {calls : Calls} (h : runCalls calls db = some db') : OpenEdit db db' :=
  (kept_openEdit db).runCalls trivial (.refl db) h

theorem openEdit_runStops {stops : Stops} {ok : Bool} (h : runStops stops p db = some (db', ok)) :
    OpenEdit db db' :=
  (kept_openEdit db).runStops trivial (.refl db) h

theorem openEdit_coreOpenProtocol {a : OpenArgs} {alloc : Bool} {stops : Stops} {res : OpenResult}
    (h : coreOpenProtocol db a alloc stops = some res) : OpenEdit db res.db :=
  (OpenEdit.refl db).openWith (fun _ _ _ => openEdit_runStops) h

/-- When the loop ends well, no driver has the interface open. -/
theorem not_driven_of_runStops : ∀ {stops : Stops} {p : ℕ} {db db' : HandleDb},
    runStops stops p db = some (db', true) → ¬ db'.Driven p
  | .nil, p, db, db', h => by
    rw [runStops] at h
    split at h
    · cases h
    · cases h
      assumption
  | .stop calls success rest, p, db, db', h => by
    rw [runStops] at h
    split at h
    · obtain ⟨db₁, -, hr⟩ := bind_eq_some_iff.mp h
      split at hr
      · exact not_driven_of_runStops hr
      · cases hr
    · cases h
      assumption

end Links

end Edk2.Hand
