import Edk2.Base
import Edk2.Lib.Bytes

/-!
# The variable policy engine

`VariablePolicyLib.c`: the check of a candidate structure, the match of an entry with a variable,
the search for the best match, the registration of a policy and the verdict on a `SetVariable` call.
Candidates are pointers into memory that holds anything beyond the candidate; the table is memory of
its own, filled from the front.
-/

namespace Edk2.Policy

def variablePolicyEntryRevision : ℕ := 0x00010000

/-- `sizeof (VARIABLE_POLICY_ENTRY)`. -/
def policyEntrySize : ℕ := 44

/-- `sizeof (VARIABLE_LOCK_ON_VAR_STATE_POLICY)`. -/
def lockOnVarStateSize : ℕ := 18

def variablePolicyTypeNoLock : ℕ := 0
def variablePolicyTypeLockNow : ℕ := 1
def variablePolicyTypeLockOnCreate : ℕ := 2
def variablePolicyTypeLockOnVarState : ℕ := 3

def matchPriorityExact : ℕ := 0
def matchPriorityMin : ℕ := 255

/-- The character `#`. -/
def wildcard : ℕ := 0x23

def efiVariableAppendWrite : BitVec 32 := 0x00000040#32

/-- The `CHAR16` at an address. -/
def char16 (m : Memory) (a : ℕ) : ℕ := le m a 2

/-! ## Entries -/

/-- A pointer to a `VARIABLE_POLICY_ENTRY`. -/
structure EntryPtr where
  mem : Memory
  addr : ℕ

namespace EntryPtr

variable (e : EntryPtr)

def version : ℕ := le e.mem e.addr 4
def size : ℕ := le e.mem (e.addr + 4) 2
def offsetToName : ℕ := le e.mem (e.addr + 6) 2
def namespaceGuid : EfiGuid := bytesAt e.mem (e.addr + 8) 16
def minSize : ℕ := le e.mem (e.addr + 24) 4
def maxSize : ℕ := le e.mem (e.addr + 28) 4
def attributesMustHave : BitVec 32 := BitVec.ofNat 32 (le e.mem (e.addr + 32) 4)
def attributesCantHave : BitVec 32 := BitVec.ofNat 32 (le e.mem (e.addr + 36) 4)
def lockPolicyType : ℕ := le e.mem (e.addr + 40) 1

/-- The end of the structure, `EntryEnd`. -/
def entryEnd : ℕ := e.addr + e.size

def getPolicyName (i : ℕ) : ℕ := char16 e.mem (e.addr + e.offsetToName + 2 * i)

/-- The `Size` bytes of the structure. -/
def bytes : List UInt8 := bytesAt e.mem e.addr e.size

/-- The fields of the `VARIABLE_LOCK_ON_VAR_STATE_POLICY` that follows the entry. -/
def stateNamespace : EfiGuid := bytesAt e.mem (e.addr + 44) 16
def stateValue : ℕ := le e.mem (e.addr + 60) 1

/-- The name that follows the lock policy. -/
def stateVarName (i : ℕ) : ℕ := char16 e.mem (e.addr + 62 + 2 * i)

end EntryPtr

/-! ## The check of a candidate -/

/-- The loop over the state variable's name: where its terminator stands, unless the scan leaves the
structure first. The character is read before the bound is checked. -/
def scanStateName (m : Memory) (entryEnd : ℕ) : ℕ → ℕ → Option ℕ
  | 0, _ => none
  | fuel + 1, checkChar =>
    if char16 m checkChar = 0 then some checkChar
    else if entryEnd ≤ checkChar then none
    else scanStateName m entryEnd fuel (checkChar + 2)

/-- The loop over the name, which also counts the wildcards. -/
def scanName (m : Memory) (entryEnd : ℕ) : ℕ → ℕ → ℕ → Option ℕ
  | 0, _, _ => none
  | fuel + 1, wildcardCount, checkChar =>
    if char16 m checkChar = 0 then some checkChar
    else if char16 m checkChar = wildcard ∧ wildcardCount + 1 > matchPriorityMin then none
    else if entryEnd ≤ checkChar then none
    else
      scanName m entryEnd fuel
        (if char16 m checkChar = wildcard then wildcardCount + 1 else wildcardCount) (checkChar + 2)

/-- The check of the lock policy and of `OffsetToName`. -/
def lockPolicyValid (e : EntryPtr) : Bool :=
  if e.lockPolicyType = variablePolicyTypeLockOnVarState then
    let checkChar := e.addr + policyEntrySize + lockOnVarStateSize
    if 2 ^ 64 ≤ checkChar ∨ e.entryEnd ≤ checkChar then false
    else
      match scanStateName e.mem e.entryEnd (e.entryEnd - checkChar + 1) checkChar with
      | none => false
      | some last => last + 2 == e.addr + e.offsetToName
  else
    -- any other lock policy has no structure of its own
    e.offsetToName == policyEntrySize

/-- The check that the name ends with the structure. -/
def nameValid (e : EntryPtr) : Bool :=
  if e.size = e.offsetToName then true
  else
    let checkChar := e.addr + e.offsetToName
    match scanName e.mem e.entryEnd (e.entryEnd - checkChar + 1) 0 checkChar with
    | none => false
    | some last => last + 2 == e.entryEnd

def isValidVariablePolicyStructure (e : EntryPtr) : Bool :=
  if e.addr = 0 ∨ e.size = 0 ∨ e.size < policyEntrySize ∨ e.version ≠ variablePolicyEntryRevision then
    false
  else if 2 ^ 64 ≤ e.addr + e.size then false
  else if e.maxSize = 0 then false
  else if e.lockPolicyType ≠ variablePolicyTypeNoLock ∧ e.lockPolicyType ≠ variablePolicyTypeLockNow ∧
      e.lockPolicyType ≠ variablePolicyTypeLockOnCreate ∧
      e.lockPolicyType ≠ variablePolicyTypeLockOnVarState then false
  else lockPolicyValid e && nameValid e

/-! ## Matching -/

/-- A character that `#` stands for. -/
def isHexDigit (c : ℕ) : Bool :=
  (0x30 ≤ c && c ≤ 0x39) || (0x41 ≤ c && c ≤ 0x46) || (0x61 ≤ c && c ≤ 0x66)

/-- The loop over both names, with the priority so far. -/
def matchLoop (policyName variableName : ℕ → ℕ) : ℕ → ℕ → ℕ → Option ℕ
  | 0, _, _ => none
  | fuel + 1, index, calculatedPriority =>
    if policyName index = 0 ∧ variableName index = 0 then some calculatedPriority
    else if policyName index ≠ variableName index ∨ policyName index = wildcard then
      if policyName index = wildcard ∧ isHexDigit (variableName index) then
        matchLoop policyName variableName fuel (index + 1)
          (if calculatedPriority < matchPriorityMin then calculatedPriority + 1
            else calculatedPriority)
      else none
    else matchLoop policyName variableName fuel (index + 1) calculatedPriority

/-- `EvaluatePolicyMatch`: the priority of the match, when there is one. A name has fewer characters
than its structure has bytes. -/
def evaluatePolicyMatch (e : EntryPtr) (variableName : ℕ → ℕ) (vendorGuid : EfiGuid) : Option ℕ :=
  if e.namespaceGuid ≠ vendorGuid then none
  else if e.size = e.offsetToName then some matchPriorityMin
  else matchLoop e.getPolicyName variableName e.size 0 matchPriorityExact

/-- The best match so far: the entry's offset in the table and its priority. -/
structure BestMatch where
  entry : ℕ
  matchPriority : ℕ
  deriving DecidableEq, Repr

/-- The match at `current` is taken when it is the first or better than the best so far. -/
def takeBetter (best : Option BestMatch) (current priority : ℕ) : BestMatch :=
  match best with
  | none => ⟨current, priority⟩
  | some b => if priority < b.matchPriority then ⟨current, priority⟩ else b

/-- The loop over the table, `n` entries to go. -/
def bestLoop (table : Memory) (variableName : ℕ → ℕ) (vendorGuid : EfiGuid) :
    ℕ → ℕ → Option BestMatch → Option BestMatch
  | 0, _, best => best
  | n + 1, current, best =>
    match evaluatePolicyMatch ⟨table, current⟩ variableName vendorGuid with
    | none => bestLoop table variableName vendorGuid n (current + EntryPtr.size ⟨table, current⟩) best
    | some priority =>
      -- nothing beats an exact match
      if (takeBetter best current priority).matchPriority = 0 then
        some (takeBetter best current priority)
      else
        bestLoop table variableName vendorGuid n (current + EntryPtr.size ⟨table, current⟩)
          (some (takeBetter best current priority))

/-! ## The library -/

/-- The globals of the library. The first says whether `mGetVariableHelper` is set. -/
structure PolicyState where
  initialized : Bool
  interfaceLocked : Bool
  protectionDisabled : Bool
  policyTable : Memory
  currentTableSize : ℕ
  currentTableUsage : ℕ
  currentTableCount : ℕ

/-- What `InitVariablePolicyLib` leaves; the table is empty. -/
def initVariablePolicyLib : PolicyState :=
  ⟨true, false, false, fun _ => 0, 0, 0, 0⟩

def getBestPolicyMatch (s : PolicyState) (variableName : ℕ → ℕ) (vendorGuid : EfiGuid) :
    Option BestMatch :=
  bestLoop s.policyTable variableName vendorGuid s.currentTableCount 0 none

def policyTableStepSize : ℕ := 0x1000

/-- The size of the grown table, in steps. -/
def tableSteps (newSize : ℕ) : ℕ :=
  if newSize % policyTableStepSize > 0 then newSize / policyTableStepSize + 1
  else newSize / policyTableStepSize

/-- A call: the candidate, and the memory that `AllocateRuntimePool` would return. -/
structure RegisterCall where
  newPolicy : EntryPtr
  pool : Option Memory

/-- What a call of the library returns, and the globals it leaves. -/
structure Outcome where
  status : EfiStatus
  state : PolicyState

/-- The candidate is copied behind the entries there are. -/
def appendPolicy (s : PolicyState) (newPolicy : EntryPtr) : PolicyState :=
  { s with
    policyTable :=
      copyMem s.policyTable s.currentTableUsage newPolicy.mem newPolicy.addr newPolicy.size
    currentTableUsage := s.currentTableUsage + newPolicy.size
    currentTableCount := s.currentTableCount + 1 }

def registerVariablePolicy (s : PolicyState) (call : RegisterCall) : Outcome :=
  if s.initialized = false then ⟨.notReady, s⟩
  else if s.interfaceLocked then ⟨.writeProtected, s⟩
  else if isValidVariablePolicyStructure call.newPolicy = false then ⟨.invalidParameter, s⟩
  else if (getBestPolicyMatch s call.newPolicy.getPolicyName
      call.newPolicy.namespaceGuid).any (·.matchPriority = matchPriorityExact) then
    ⟨.alreadyStarted, s⟩
  else
    let newSize := s.currentTableUsage + call.newPolicy.size
    if 2 ^ 32 ≤ newSize then ⟨.aborted, s⟩
    else if newSize > s.currentTableSize then
      if 2 ^ 32 ≤ tableSteps newSize * policyTableStepSize then ⟨.aborted, s⟩
      else
        match call.pool with
        | none => ⟨.outOfResources, s⟩
        | some newTable =>
          ⟨.success,
            appendPolicy
              { s with
                policyTable := copyMem newTable 0 s.policyTable 0 s.currentTableUsage
                currentTableSize := tableSteps newSize * policyTableStepSize }
              call.newPolicy⟩
    else ⟨.success, appendPolicy s call.newPolicy⟩

/-! ## The verdict -/

/-- `VariableName[Index]`. -/
def charAt (name : Char16String) (i : ℕ) : ℕ := name.getD i 0

/-- The string behind a pointer, up to its terminator. -/
def readString (chars : ℕ → ℕ) : ℕ → ℕ → Char16String
  | 0, _ => []
  | fuel + 1, i => if chars i = 0 then [] else chars i :: readString chars fuel (i + 1)

/-- `mGetVariableHelper`: for a name, a namespace and the size of the buffer, the status and the
first byte of the data. -/
abbrev GetVariableHelper := Char16String → EfiGuid → ℕ → EfiStatus × ℕ

/-- The arguments of `SetVariable` that the verdict reads. -/
structure SetVariableArgs where
  variableName : Char16String
  vendorGuid : EfiGuid
  attr : BitVec 32
  dataSize : ℕ

/-- A delete: no data, and not an append. -/
def SetVariableArgs.isDel (args : SetVariableArgs) : Bool :=
  args.dataSize == 0 && (args.attr &&& efiVariableAppendWrite) == 0

/-- The size and attribute constraints of the active policy. -/
def constraintsHold (activePolicy : EntryPtr) (args : SetVariableArgs) : Bool :=
  !((activePolicy.minSize > 0 && args.dataSize < activePolicy.minSize) ||
      (activePolicy.maxSize > 0 && args.dataSize > activePolicy.maxSize)) &&
    !((activePolicy.attributesMustHave &&& args.attr) != activePolicy.attributesMustHave ||
      (activePolicy.attributesCantHave &&& args.attr) != 0)

def EntryPtr.stateVarString (e : EntryPtr) : Char16String := readString e.stateVarName e.size 0

section

variable (getVariable : GetVariableHelper) (activePolicy : EntryPtr) (args : SetVariableArgs)

def lockVerdict : EfiStatus :=
  if activePolicy.lockPolicyType = variablePolicyTypeLockNow then .writeProtected
  else if activePolicy.lockPolicyType = variablePolicyTypeLockOnCreate then
    if (getVariable args.variableName args.vendorGuid 0).1 = .bufferTooSmall then .writeProtected
    else .success
  else if activePolicy.lockPolicyType = variablePolicyTypeLockOnVarState then
    let answer := getVariable activePolicy.stateVarString activePolicy.stateNamespace 1
    if answer.1.isError = false then
      if answer.2 = activePolicy.stateValue then .writeProtected else .success
    else if answer.1 ≠ .notFound ∧ answer.1 ≠ .bufferTooSmall then .aborted
    else .success
  else .success

def policyVerdict : EfiStatus :=
  -- constraints are enforced on updates, not on deletes
  if args.isDel = false ∧ constraintsHold activePolicy args = false then .invalidParameter
  else lockVerdict getVariable activePolicy args

end

def validateSetVariable (s : PolicyState) (getVariable : GetVariableHelper)
    (args : SetVariableArgs) : EfiStatus :=
  if s.initialized = false then .notReady
  else if s.protectionDisabled then .success
  else
    match getBestPolicyMatch s (charAt args.variableName) args.vendorGuid with
    | none => .success
    | some best => policyVerdict getVariable ⟨s.policyTable, best.entry⟩ args

end Edk2.Policy
