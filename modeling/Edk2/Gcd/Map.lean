import Edk2.Base

/-!
# The GCD maps: search, insertion, merging

The global coherency domain keeps one list of `EFI_GCD_MAP_ENTRY` for the memory space and one
for the I/O space. This module embeds the helpers of `Gcd.c` that read and edit such a list:
`CoreSearchGcdMapEntry`, `CoreInsertGcdMapEntry`, `CoreMergeGcdMapEntry` and
`CoreCleanupGcdMapEntry`. A pair of links into the list is a split of the list into the entries
before, between and after them.
-/

namespace Edk2.Gcd

/-- `EFI_GCD_MEMORY_TYPE`; `maximum` stands for every value the range checks refuse. -/
inductive GcdMemoryType
  | nonExistent
  | reserved
  | systemMemory
  | memoryMappedIo
  | persistent
  | moreReliable
  | maximum
  deriving DecidableEq, Repr

/-- `EFI_GCD_IO_TYPE`; `maximum` stands for every value the range checks refuse. -/
inductive GcdIoType
  | nonExistent
  | reserved
  | io
  | maximum
  deriving DecidableEq, Repr

/-- What a GCD map entry says about each of its addresses. A handle is a number, `0` for `NULL`. -/
structure GcdDescriptor where
  capabilities : BitVec 64
  attributes : BitVec 64
  gcdMemoryType : GcdMemoryType
  gcdIoType : GcdIoType
  imageHandle : ℕ
  deviceHandle : ℕ
  deriving DecidableEq, Repr

/-- `EFI_GCD_MAP_ENTRY`: a descriptor with its inclusive range. -/
structure GcdMapEntry extends GcdDescriptor where
  baseAddress : ℕ
  endAddress : ℕ
  deriving DecidableEq, Repr

/-- The last address of the range as the code computes it, with 64-bit wrap-around. -/
def lastAddress (baseAddress length : ℕ) : ℕ := sub64 (add64 baseAddress length) 1

/-- The list cut at `StartLink` and behind `EndLink`. -/
structure LinkRange where
  before : List GcdMapEntry
  range : List GcdMapEntry
  after : List GcdMapEntry

/-- The loop of `CoreSearchGcdMapEntry`. The entries passed since `StartLink` was last set are
in `started`; it is `none` while `*StartLink` is `NULL`. -/
def searchLoop (baseAddress lastAddr : ℕ) :
    List GcdMapEntry → Option (List GcdMapEntry) → List GcdMapEntry → Option LinkRange
  | _, _, [] => none
  | before, started, entry :: rest =>
    let hit := entry.baseAddress ≤ baseAddress ∧ baseAddress ≤ entry.endAddress
    let before' := if hit then before ++ started.getD [] else before
    let started' := if hit then some [] else started
    match started' with
    | none => searchLoop baseAddress lastAddr (before' ++ [entry]) none rest
    | some range =>
      if entry.baseAddress ≤ lastAddr ∧ lastAddr ≤ entry.endAddress then
        some ⟨before', range ++ [entry], rest⟩
      else searchLoop baseAddress lastAddr before' (some (range ++ [entry])) rest

def coreSearchGcdMapEntry (baseAddress length : ℕ) (map : List GcdMapEntry) : Option LinkRange :=
  searchLoop baseAddress (lastAddress baseAddress length) [] none map

/-- An entry cut at the ends of a range: the bottom pad entry if one is cut off, the entry that
remains, and the top pad entry if one is cut off. -/
structure Cut where
  bottom : Option GcdMapEntry
  entry : GcdMapEntry
  top : Option GcdMapEntry

def coreInsertGcdMapEntry (entry : GcdMapEntry) (baseAddress length : ℕ) : Cut :=
  let low : Cut :=
    if entry.baseAddress < baseAddress then
      ⟨some { entry with endAddress := sub64 baseAddress 1 },
        { entry with baseAddress := baseAddress }, none⟩
    else ⟨none, entry, none⟩
  if lastAddress baseAddress length < low.entry.endAddress then
    ⟨low.bottom, { low.entry with endAddress := lastAddress baseAddress length },
      some { low.entry with baseAddress := add64 baseAddress length }⟩
  else low

/-- What the conversion loop leaves between `StartLink` and `EndLink`: the bottom pad before
`StartLink`, the converted entries, the top pad behind `EndLink`. -/
structure Converted where
  bottom : Option GcdMapEntry
  entries : List GcdMapEntry
  top : Option GcdMapEntry

/-- The loop from `StartLink` to `EndLink` that cuts and updates each entry. `update` sees the
loop's shared variable, and may change it. `none` is a failing assertion: each pad entry may be
used once, and a top pad before the last entry is cut again in the next turn. -/
def convertEntries {σ : Type} (update : σ → GcdDescriptor → σ × GcdDescriptor)
    (baseAddress length : ℕ) : Bool → σ → List GcdMapEntry → Option Converted
  | _, _, [] => some ⟨none, [], none⟩
  | bottomUsed, shared, entry :: rest =>
    let cut := coreInsertGcdMapEntry entry baseAddress length
    if (bottomUsed && cut.bottom.isSome) || (cut.top.isSome && !rest.isEmpty) then none
    else
      let updated := update shared cut.entry.toGcdDescriptor
      (convertEntries update baseAddress length (bottomUsed || cut.bottom.isSome) updated.1
        rest).map fun r =>
          ⟨cut.bottom,
            { cut.entry with toGcdDescriptor := updated.2 } :: (r.bottom.toList ++ r.entries),
            cut.top.or r.top⟩

/-- `CoreMergeGcdMapEntry` backward: the entry takes over its predecessor (the head of the
reversed list `left`) if all six fields agree. -/
def mergeBackward (left : List GcdMapEntry) (entry : GcdMapEntry) : List GcdMapEntry :=
  match left with
  | [] => [entry]
  | prev :: left' =>
    if entry.toGcdDescriptor = prev.toGcdDescriptor then
      { entry with baseAddress := prev.baseAddress } :: left'
    else entry :: prev :: left'

/-- `CoreMergeGcdMapEntry` forward, at the end of the reversed list `left`. -/
def mergeForward (left right : List GcdMapEntry) : List GcdMapEntry :=
  match left, right with
  | entry :: left', next :: right' =>
    if entry.toGcdDescriptor = next.toGcdDescriptor then
      left'.reverse ++ { entry with endAddress := next.endAddress } :: right'
    else (entry :: left').reverse ++ next :: right'
  | _, _ => left.reverse ++ right

/-- `CoreCleanupGcdMapEntry`: merge every converted entry backward, then the last one forward. -/
def coreCleanupGcdMapEntry (before entries after : List GcdMapEntry) : List GcdMapEntry :=
  mergeForward (entries.foldl mergeBackward before.reverse) after

end Edk2.Gcd
