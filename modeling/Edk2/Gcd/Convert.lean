import Edk2.Gcd.Map

/-!
# The GCD services

`CoreConvertSpace` and `CoreAllocateSpace` with the services of `Gcd.c` that call them. The two
calls out of the module are part of each request's environment: whether the pool has memory for
the two pad entries, and the CPU architectural protocol. A service returns its status with the
new maps; `none` means that an assertion failed or that the search loop did not end.
-/

namespace Edk2.Gcd

/-- The `GCD_*_OPERATION` codes that `CoreConvertSpace` handles. -/
inductive ConvertOperation
  | addMemory
  | freeMemory
  | removeMemory
  | setAttributesMemory
  | setCapabilitiesMemory
  | addIo
  | freeIo
  | removeIo
  deriving DecidableEq, Repr

/-- `(Operation & GCD_MEMORY_SPACE_OPERATION) != 0`. -/
def ConvertOperation.isMemory : ConvertOperation → Bool
  | addMemory | freeMemory | removeMemory | setAttributesMemory | setCapabilitiesMemory => true
  | addIo | freeIo | removeIo => false

/-- What a request finds outside the GCD: pool memory for the pad entries, and `gCpu`
(`none` for `NULL`) with its `SetMemoryAttributes`. -/
structure GcdEnv where
  poolAvailable : Bool
  gCpu : Option (ℕ → ℕ → BitVec 64 → EfiStatus)

/-- `mGcdMemorySpaceMap` and `mGcdIoSpaceMap`. -/
structure GcdState where
  memorySpaceMap : List GcdMapEntry
  ioSpaceMap : List GcdMapEntry
  deriving DecidableEq

def GcdState.map (st : GcdState) (isMemory : Bool) : List GcdMapEntry :=
  if isMemory then st.memorySpaceMap else st.ioSpaceMap

def GcdState.setMap (st : GcdState) (isMemory : Bool) (map : List GcdMapEntry) : GcdState :=
  if isMemory then { st with memorySpaceMap := map } else { st with ioSpaceMap := map }

/-- `mGcdMemorySpaceMapEntryTemplate` and `mGcdIoSpaceMapEntryTemplate`, with the `EndAddress` that
`CoreInitializeGcdServices` computes from the size of the space in bits. -/
def gcdMapEntryTemplate (sizeOfSpace : ℕ) : GcdMapEntry where
  baseAddress := 0
  endAddress := 2 ^ sizeOfSpace - 1
  capabilities := 0
  attributes := 0
  gcdMemoryType := .nonExistent
  gcdIoType := .nonExistent
  imageHandle := 0
  deviceHandle := 0

/-- The two maps as `CoreInitializeGcdServices` sets them up, before the HOB list is walked. -/
def coreInitializeGcdServices (sizeOfMemorySpace sizeOfIoSpace : ℕ) : GcdState :=
  ⟨[gcdMapEntryTemplate sizeOfMemorySpace], [gcdMapEntryTemplate sizeOfIoSpace]⟩

def converToCpuArchAttributes (attributes : BitVec 64) : BitVec 64 :=
  let cpuArch := attributes &&& efiMemoryAttributeMask
  if attributes &&& efiMemoryUc = efiMemoryUc then cpuArch ||| efiMemoryUc
  else if attributes &&& efiMemoryWc = efiMemoryWc then cpuArch ||| efiMemoryWc
  else if attributes &&& efiMemoryWt = efiMemoryWt then cpuArch ||| efiMemoryWt
  else if attributes &&& efiMemoryWb = efiMemoryWb then cpuArch ||| efiMemoryWb
  else if attributes &&& efiMemoryUce = efiMemoryUce then cpuArch ||| efiMemoryUce
  else if attributes &&& efiMemoryWp = efiMemoryWp then cpuArch ||| efiMemoryWp
  else cpuArch

/-- The arguments of `CoreConvertSpace` after the operation. -/
structure ConvertArgs where
  gcdMemoryType : GcdMemoryType
  gcdIoType : GcdIoType
  baseAddress : ℕ
  length : ℕ
  capabilities : BitVec 64
  attributes : BitVec 64

/-- The check of one entry in `CoreConvertSpace`, before anything is changed. -/
def checkEntry (op : ConvertOperation) (args : ConvertArgs) (entry : GcdDescriptor) : EfiStatus :=
  match op with
  | .addMemory =>
    if entry.gcdMemoryType ≠ .nonExistent ∨ entry.imageHandle ≠ 0 then .accessDenied else .success
  | .addIo =>
    if entry.gcdIoType ≠ .nonExistent ∨ entry.imageHandle ≠ 0 then .accessDenied else .success
  | .freeMemory | .freeIo => if entry.imageHandle = 0 then .notFound else .success
  | .removeMemory =>
    if entry.gcdMemoryType = .nonExistent then .notFound
    else if entry.imageHandle ≠ 0 then .accessDenied else .success
  | .removeIo =>
    if entry.gcdIoType = .nonExistent then .notFound
    else if entry.imageHandle ≠ 0 then .accessDenied else .success
  | .setAttributesMemory =>
    if args.attributes &&& efiMemoryRuntime ≠ 0 ∧
        ¬ (PageAligned args.baseAddress ∧ PageAligned args.length) then .invalidParameter
    else if entry.capabilities &&& args.attributes ≠ args.attributes then .unsupported
    else .success
  | .setCapabilitiesMemory =>
    if ¬ (PageAligned args.baseAddress ∧ PageAligned args.length) then .invalidParameter
    else if args.capabilities &&& entry.attributes ≠ entry.attributes then .unsupported
    else .success

/-- The verification loop: the status of the first entry that fails its check. -/
def checkEntries (check : GcdDescriptor → EfiStatus) : List GcdMapEntry → EfiStatus
  | [] => .success
  | entry :: rest =>
    if (check entry.toGcdDescriptor).isError then check entry.toGcdDescriptor
    else checkEntries check rest

/-- The bits that `CoreConvertSpace` keeps when no CPU arch attribute is requested. -/
def cpuArchMask : BitVec 64 := efiCacheAttributeMask ||| efiMemoryAttributeMask

/-- `CpuArchAttributes` of `CoreConvertSpace`: nonzero in the set-attributes operation only. -/
def cpuArchAttributes (op : ConvertOperation) (args : ConvertArgs) : BitVec 64 :=
  if op = .setAttributesMemory then converToCpuArchAttributes args.attributes else 0

/-- The capabilities that the add operation gives to an entry. -/
def addedCapabilities (gcdMemoryType : GcdMemoryType) (capabilities : BitVec 64) : BitVec 64 :=
  if gcdMemoryType = .memoryMappedIo then capabilities ||| efiMemoryRuntime ||| efiMemoryPortIo
  else capabilities ||| efiMemoryRuntime

/-- The update of one entry in `CoreConvertSpace`. The first component is the parameter
`Attributes`, which the loop shares between the entries. -/
def updateEntry (op : ConvertOperation) (args : ConvertArgs) (attributes : BitVec 64)
    (entry : GcdDescriptor) : BitVec 64 × GcdDescriptor :=
  match op with
  | .addMemory =>
    (attributes, { entry with
      gcdMemoryType := args.gcdMemoryType
      capabilities := addedCapabilities args.gcdMemoryType args.capabilities })
  | .addIo => (attributes, { entry with gcdIoType := args.gcdIoType })
  | .freeMemory | .freeIo => (attributes, { entry with imageHandle := 0, deviceHandle := 0 })
  | .removeMemory => (attributes, { entry with gcdMemoryType := .nonExistent, capabilities := 0 })
  | .removeIo => (attributes, { entry with gcdIoType := .nonExistent })
  | .setAttributesMemory =>
    let attributes :=
      if cpuArchAttributes op args = 0 then attributes ||| (entry.attributes &&& cpuArchMask)
      else attributes
    (attributes, { entry with attributes := attributes })
  | .setCapabilitiesMemory => (attributes, { entry with capabilities := args.capabilities })

/-- The status of the call to `gCpu->SetMemoryAttributes`, made for CPU arch attributes only. -/
def setCpuAttributes (env : GcdEnv) (op : ConvertOperation) (args : ConvertArgs) : EfiStatus :=
  if cpuArchAttributes op args ≠ 0 then
    match env.gCpu with
    | none => .notAvailableYet
    | some setMemoryAttributes =>
      setMemoryAttributes args.baseAddress args.length (cpuArchAttributes op args)
  else .success

/-- `CoreConvertSpace` on the map of its operation. -/
def coreConvertSpace (env : GcdEnv) (op : ConvertOperation) (args : ConvertArgs)
    (map : List GcdMapEntry) : Option (EfiStatus × List GcdMapEntry) :=
  if args.length = 0 then some (.invalidParameter, map)
  else match coreSearchGcdMapEntry args.baseAddress args.length map with
  | none => some (.unsupported, map)
  | some links =>
    let checked := checkEntries (checkEntry op args) links.range
    if checked.isError then some (checked, map)
    else if !env.poolAvailable then some (.outOfResources, map)
    else if (setCpuAttributes env op args).isError then some (setCpuAttributes env op args, map)
    else
      (convertEntries (updateEntry op args) args.baseAddress args.length false args.attributes
          links.range).map fun c =>
        (.success, coreCleanupGcdMapEntry (links.before ++ c.bottom.toList) c.entries
          (c.top.toList ++ links.after))

/-! ## Allocation -/

/-- `EFI_GCD_ALLOCATE_TYPE`; `maxAllocateType` stands for every value the range check refuses. -/
inductive GcdAllocateType
  | anySearchBottomUp
  | maxAddressSearchBottomUp
  | address
  | anySearchTopDown
  | maxAddressSearchTopDown
  | maxAllocateType
  deriving DecidableEq, Repr

def GcdAllocateType.isTopDown : GcdAllocateType → Bool
  | anySearchTopDown | maxAddressSearchTopDown => true
  | _ => false

def GcdAllocateType.hasMaxAddress : GcdAllocateType → Bool
  | maxAddressSearchBottomUp | maxAddressSearchTopDown => true
  | _ => false

/-- The arguments of `CoreAllocateSpace`; `isMemory` tells the memory operation from the I/O
operation, `baseAddress` is the value behind the pointer. -/
structure AllocateArgs where
  isMemory : Bool
  gcdAllocateType : GcdAllocateType
  gcdMemoryType : GcdMemoryType
  gcdIoType : GcdIoType
  alignment : ℕ
  length : ℕ
  baseAddress : ℕ
  imageHandle : ℕ
  deviceHandle : ℕ

def coreAllocateSpaceCheckEntry (args : AllocateArgs) (entry : GcdDescriptor) : EfiStatus :=
  if entry.imageHandle ≠ 0 then .notFound
  else if args.isMemory then
    if entry.gcdMemoryType ≠ args.gcdMemoryType then .notFound else .success
  else if entry.gcdIoType ≠ args.gcdIoType then .notFound else .success

/-- Round down to a multiple of `2 ^ alignment`: `Value & (~AlignmentMask)`. -/
def alignDown (value alignment : ℕ) : ℕ := value / 2 ^ alignment * 2 ^ alignment

/-- What one turn of the search loop makes of a usable entry: it goes on to the next entry, ends
the search with the value it leaves in `*BaseAddress`, or tries an address. -/
inductive Candidate
  | skip
  | giveUp (base : ℕ)
  | tryAddress (base : ℕ)

/-- The candidate address of one turn of the search loop; `base` is the value of `*BaseAddress`
before it. -/
def candidate (args : AllocateArgs) (maxAddress base : ℕ) (entry : GcdMapEntry) : Candidate :=
  if args.gcdAllocateType.isTopDown then
    if maxAddress < add64 entry.baseAddress args.length then .skip
    else if add64 entry.endAddress 1 < args.length then .giveUp base
    else
      let highest := if maxAddress < entry.endAddress then maxAddress else entry.endAddress
      .tryAddress (alignDown (sub64 (add64 highest 1) args.length) args.alignment)
  else
    let base := alignDown (add64 entry.baseAddress (2 ^ args.alignment - 1)) args.alignment
    if maxAddress < lastAddress base args.length then .giveUp base else .tryAddress base

/-- The index of the first entry of the range that the allocation cannot use. -/
def firstUnusable (args : AllocateArgs) (range : List GcdMapEntry) : Option ℕ :=
  range.findIdx? fun entry => (coreAllocateSpaceCheckEntry args entry.toGcdDescriptor).isError

/-- The outcome of a search: the status of a failure with the value left in `*BaseAddress`, or
the address and the entries it lies in. -/
abbrev SearchResult := Except (EfiStatus × ℕ) (ℕ × LinkRange)

/-- The search loop of `CoreAllocateSpace`. `link` is the index the loop looks at next: it runs
upward to the length of the map, or downward to `0` with the entry at `link - 1`. -/
def searchSpace (args : AllocateArgs) (maxAddress : ℕ) (map : List GcdMapEntry) :
    ℕ → ℕ → ℕ → Option SearchResult
  | 0, _, _ => none
  | fuel + 1, base, link =>
    let current := if args.gcdAllocateType.isTopDown then link - 1 else link
    if args.gcdAllocateType.isTopDown ∧ link = 0 then some (.error (.notFound, base))
    else match map[current]? with
    | none => some (.error (.notFound, base))
    | some entry =>
      let next := if args.gcdAllocateType.isTopDown then current else current + 1
      if (coreAllocateSpaceCheckEntry args entry.toGcdDescriptor).isError then
        searchSpace args maxAddress map fuel base next
      else match candidate args maxAddress base entry with
      | .skip => searchSpace args maxAddress map fuel base next
      | .giveUp base => some (.error (.notFound, base))
      | .tryAddress base =>
        match coreSearchGcdMapEntry base args.length map with
        | none => some (.error (.notFound, base))
        | some links =>
          match firstUnusable args links.range with
          | none => some (.ok (base, links))
          | some i =>
            -- `Link = SubLink`: the loop goes on at the entry that stopped the check
            let stopped := links.before.length + i
            searchSpace args maxAddress map fuel base
              (if args.gcdAllocateType.isTopDown then stopped + 1 else stopped)

/-- The place `CoreAllocateSpace` chooses: the address and the entries it lies in. -/
def findSpace (args : AllocateArgs) (map : List GcdMapEntry) : Option SearchResult :=
  if args.gcdAllocateType = .address then
    if args.baseAddress % 2 ^ args.alignment ≠ 0 then some (.error (.notFound, args.baseAddress))
    else match coreSearchGcdMapEntry args.baseAddress args.length map with
    | none => some (.error (.notFound, args.baseAddress))
    | some links =>
      let checked := checkEntries (coreAllocateSpaceCheckEntry args) links.range
      if checked.isError then some (.error (checked, args.baseAddress))
      else some (.ok (args.baseAddress, links))
  else
    match map.getLast? with
    | none => none
    | some lastEntry =>
      let maxAddress :=
        if args.gcdAllocateType.hasMaxAddress then args.baseAddress else lastEntry.endAddress
      searchSpace args maxAddress map (map.length + 1) args.baseAddress
        (if args.gcdAllocateType.isTopDown then map.length else 0)

/-- The update of one allocated entry. -/
def allocateEntry (args : AllocateArgs) (u : Unit) (entry : GcdDescriptor) :
    Unit × GcdDescriptor :=
  (u, { entry with imageHandle := args.imageHandle, deviceHandle := args.deviceHandle })

/-- `CoreAllocateSpace` on the map of its operation: the status, the value left in `*BaseAddress`
and the new map. -/
def coreAllocateSpace (env : GcdEnv) (args : AllocateArgs) (map : List GcdMapEntry) :
    Option (EfiStatus × ℕ × List GcdMapEntry) :=
  if args.gcdAllocateType = .maxAllocateType ∨ args.gcdMemoryType = .maximum ∨
      args.gcdIoType = .maximum ∨ args.imageHandle = 0 then
    some (.invalidParameter, args.baseAddress, map)
  else if 64 ≤ args.alignment then some (.notFound, args.baseAddress, map)
  else if args.length = 0 then some (.invalidParameter, args.baseAddress, map)
  else match findSpace args map with
  | none => none
  | some (.error (status, base)) => some (status, base, map)
  | some (.ok (base, links)) =>
    if !env.poolAvailable then some (.outOfResources, base, map)
    else
      (convertEntries (allocateEntry args) base args.length false () links.range).map fun c =>
        (.success, base, coreCleanupGcdMapEntry (links.before ++ c.bottom.toList) c.entries
          (c.top.toList ++ links.after))

/-! ## Requests -/

/-- A request to the GCD services, each with its environment. -/
inductive GcdRequest
  /-- `CoreInternalAddMemorySpace` -/
  | addMemorySpace (memoryType : GcdMemoryType) (base length : ℕ) (capabilities : BitVec 64)
  /-- `CoreFreeMemorySpace` -/
  | freeMemorySpace (base length : ℕ)
  /-- `CoreRemoveMemorySpace` -/
  | removeMemorySpace (base length : ℕ)
  /-- `CoreSetMemorySpaceAttributes` -/
  | setMemorySpaceAttributes (base length : ℕ) (attributes : BitVec 64)
  /-- `CoreSetMemorySpaceCapabilities` -/
  | setMemorySpaceCapabilities (base length : ℕ) (capabilities : BitVec 64)
  /-- `CoreAddIoSpace` -/
  | addIoSpace (ioType : GcdIoType) (base length : ℕ)
  /-- `CoreFreeIoSpace` -/
  | freeIoSpace (base length : ℕ)
  /-- `CoreRemoveIoSpace` -/
  | removeIoSpace (base length : ℕ)
  /-- `CoreAllocateMemorySpace` and `CoreAllocateIoSpace` -/
  | allocateSpace (args : AllocateArgs)

/-- The service that answers a request: its status, the base address of its range, the maps. -/
def gcdService (env : GcdEnv) (st : GcdState) : GcdRequest → Option (EfiStatus × ℕ × GcdState)
  | .addMemorySpace memoryType base length capabilities =>
    if memoryType = .nonExistent ∨ memoryType = .maximum then
      some (.invalidParameter, base, st)
    else convert .addMemory ⟨memoryType, .nonExistent, base, length, capabilities, 0⟩
  | .freeMemorySpace base length =>
    convert .freeMemory ⟨.nonExistent, .nonExistent, base, length, 0, 0⟩
  | .removeMemorySpace base length =>
    convert .removeMemory ⟨.nonExistent, .nonExistent, base, length, 0, 0⟩
  | .setMemorySpaceAttributes base length attributes =>
    convert .setAttributesMemory ⟨.nonExistent, .nonExistent, base, length, 0, attributes⟩
  | .setMemorySpaceCapabilities base length capabilities =>
    convert .setCapabilitiesMemory ⟨.nonExistent, .nonExistent, base, length, capabilities, 0⟩
  | .addIoSpace ioType base length =>
    if ioType = .nonExistent ∨ ioType = .maximum then some (.invalidParameter, base, st)
    else convert .addIo ⟨.nonExistent, ioType, base, length, 0, 0⟩
  | .freeIoSpace base length => convert .freeIo ⟨.nonExistent, .nonExistent, base, length, 0, 0⟩
  | .removeIoSpace base length =>
    convert .removeIo ⟨.nonExistent, .nonExistent, base, length, 0, 0⟩
  | .allocateSpace args =>
    (coreAllocateSpace env args (st.map args.isMemory)).map fun r =>
      (r.1, r.2.1, st.setMap args.isMemory r.2.2)
where
  /-- `CoreConvertSpace` on the state. -/
  convert (op : ConvertOperation) (args : ConvertArgs) : Option (EfiStatus × ℕ × GcdState) :=
    (coreConvertSpace env op args (st.map op.isMemory)).map fun r =>
      (r.1, args.baseAddress, st.setMap op.isMemory r.2)

end Edk2.Gcd
