import Edk2.Base
import Edk2.Lib.Bytes
import Edk2.Lib.Loop

/-!
# Capsule block lists

The lists of block descriptors that the running system left in memory for the next boot, as
`CapsuleCoalesce.c` checks them, joins them and counts what they hold. A descriptor is sixteen
bytes of memory: a `Length` and a union, which is the address of a data block, or that of further
descriptors when the length is zero. A list ends at a descriptor both fields of which are zero.

Addresses are those of a 64-bit build, in which `MAX_ADDRESS` is `2 ^ 64 - 1`. The result of
`getCapsuleInfo` is `none` for a failed `ASSERT`.
-/

namespace Edk2.Capsule

open Option

def maxAddress : ℕ := 2 ^ 64 - 1

structure MemoryResourceDescriptor where
  physicalStart : ℕ
  resourceLength : ℕ
  deriving DecidableEq, Repr

/-- The search through `MemoryResource`, which ends at a `ResourceLength` of zero. -/
def inMemoryResource (address size : ℕ) : List MemoryResourceDescriptor → Bool
  | [] => false
  | r :: rs =>
    if r.resourceLength = 0 then false
    else if r.physicalStart ≤ address ∧
        add64 address size ≤ add64 r.physicalStart r.resourceLength then true
    else inMemoryResource address size rs

def validateCapsuleByMemoryResource (memoryResource : Option (List MemoryResourceDescriptor))
    (address size : ℕ) : Bool :=
  if maxAddress < size then false
  else if maxAddress - size < address then false
  else
    match memoryResource with
    -- no memory resource was reported before the capsules are coalesced
    | none => true
    | some resources => inMemoryResource address size resources

/-! ## Descriptors and headers -/

/-- `sizeof (EFI_CAPSULE_BLOCK_DESCRIPTOR)`. -/
def descriptorSize : ℕ := 16

/-- `sizeof (EFI_CAPSULE_HEADER)`. -/
def capsuleHeaderSize : ℕ := 28

/-- `Length` of the descriptor at `ptr`. -/
def blockLength (m : Memory) (ptr : ℕ) : ℕ := le m ptr 8

/-- `Union.DataBlock`, or `Union.ContinuationPointer`, of the descriptor at `ptr`. -/
def blockUnion (m : Memory) (ptr : ℕ) : ℕ := le m (ptr + 8) 8

/-- `HeaderSize` of the capsule header at `a`. -/
def headerSize (m : Memory) (a : ℕ) : ℕ := le m (a + 16) 4

/-- `Flags` of the capsule header at `a`. -/
def headerFlags (m : Memory) (a : ℕ) : ℕ := le m (a + 20) 4

/-- `CapsuleImageSize` of the capsule header at `a`. -/
def capsuleImageSize (m : Memory) (a : ℕ) : ℕ := le m (a + 24) 4

def capsuleFlagsPersistAcrossReset : ℕ := 0x00010000
def capsuleFlagsPopulateSystemTable : ℕ := 0x00020000
def capsuleFlagsInitiateReset : ℕ := 0x00040000

/-- `IsCapsuleCorrupted`, of the flags of the header. -/
def isCapsuleCorrupted (flags : ℕ) : Bool :=
  if flags &&& capsuleFlagsPersistAcrossReset = 0 then true
  else if flags &&& (capsuleFlagsPersistAcrossReset ||| capsuleFlagsPopulateSystemTable) =
      capsuleFlagsPopulateSystemTable then true
  else if flags &&& (capsuleFlagsPersistAcrossReset ||| capsuleFlagsInitiateReset) =
      capsuleFlagsInitiateReset then true
  else false

/-! ## One list -/

/-- The locals of `ValidateCapsuleIntegrity`. -/
structure Scan where
  ptr : ℕ
  capsuleSize : ℕ
  capsuleCount : ℕ
  deriving DecidableEq, Repr

/-- The part of the round for `CapsuleSize == 0`: the header of the next capsule is checked. It
gives the size that is outstanding before the block, and the count. -/
def openCapsule (m : Memory) (s : Scan) : Option (ℕ × ℕ) :=
  if s.capsuleSize ≠ 0 then some (s.capsuleSize, s.capsuleCount)
  else if blockLength m s.ptr < capsuleHeaderSize then none
  else if capsuleImageSize m (blockUnion m s.ptr) < headerSize m (blockUnion m s.ptr) then none
  else if isCapsuleCorrupted (headerFlags m (blockUnion m s.ptr)) then none
  else some (capsuleImageSize m (blockUnion m s.ptr), add64 s.capsuleCount 1)

section

variable (m : Memory) (memoryResource : Option (List MemoryResourceDescriptor))

/-- A round at a descriptor with a data block. -/
def validateBlock (s : Scan) : Scan ⊕ Option ℕ :=
  if !validateCapsuleByMemoryResource memoryResource (blockUnion m s.ptr) (blockLength m s.ptr) then
    .inr none
  else
    match openCapsule m s with
    | none => .inr none
    | some (capsuleSize, capsuleCount) =>
      if capsuleSize < blockLength m s.ptr then .inr none
      else if !validateCapsuleByMemoryResource memoryResource (add64 s.ptr descriptorSize)
          descriptorSize then .inr none
      else .inl ⟨add64 s.ptr descriptorSize, capsuleSize - blockLength m s.ptr, capsuleCount⟩

/-- A round of the loop of `ValidateCapsuleIntegrity`. -/
def validateStep (s : Scan) : Scan ⊕ Option ℕ :=
  if blockLength m s.ptr = 0 ∧ blockUnion m s.ptr = 0 then
    -- the loop is left: no capsule at all, or an incomplete one, is refused
    .inr (if s.capsuleCount = 0 then none else if s.capsuleSize ≠ 0 then none else some s.ptr)
  else if s.ptr % 8 ≠ 0 then .inr none
  else if blockLength m s.ptr = 0 then
    if !validateCapsuleByMemoryResource memoryResource (blockUnion m s.ptr) descriptorSize then
      .inr none
    else .inl { s with ptr := blockUnion m s.ptr }
  else validateBlock m memoryResource s

/-- `ValidateCapsuleIntegrity`: the last descriptor of the list, or `none` for `NULL`. -/
def validateCapsuleIntegrity (fuel blockList : ℕ) : Option (Option ℕ) :=
  if !validateCapsuleByMemoryResource memoryResource blockList descriptorSize then some none
  else loop (validateStep m memoryResource) fuel ⟨blockList, 0, 0⟩

end

/-! ## All lists -/

/-- `HeadBlock`, `LastBlock` and the memory. A block that was accepted is not at address zero. -/
structure Joining where
  mem : Memory
  head : Option ℕ
  last : Option ℕ

/-- The descriptor at `last` made a pointer to the list at `blockList`. -/
def linkBlock (m : Memory) (last blockList : ℕ) : Memory :=
  storeBytes (storeBytes m (last + 8) (leBytes 8 blockList)) last (leBytes 8 0)

/-- A list that was accepted with the end `temp` joined to the others. -/
def joinList (j : Joining) (blockList temp : ℕ) : Joining :=
  match j.last with
  | none => { j with head := some blockList, last := some temp }
  | some last => { j with mem := linkBlock j.mem last blockList, last := some temp }

/-- A round of `BuildCapsuleDescriptors`. -/
def buildRound (memoryResource : Option (List MemoryResourceDescriptor)) (fuel : ℕ) (j : Joining)
    (blockList : ℕ) : Option Joining :=
  if blockList < maxAddress then
    (validateCapsuleIntegrity j.mem memoryResource fuel blockList).map fun temp =>
      match temp with
      | none => j
      | some temp => joinList j blockList temp
  else some j

/-- The loop of `BuildCapsuleDescriptors`. -/
def buildRounds (memoryResource : Option (List MemoryResourceDescriptor)) (fuel : ℕ) :
    List ℕ → Joining → Option Joining
  | [], j => some j
  | blockList :: lists, j =>
    (buildRound memoryResource fuel j blockList).bind (buildRounds memoryResource fuel lists)

/-- The locals of `GetCapsuleInfo`. -/
structure Count where
  desc : ℕ
  count : ℕ
  size : ℕ
  number : ℕ
  thisCapsuleImageSize : ℕ

/-- What `GetCapsuleInfo` returns; the numbers are written for `EFI_SUCCESS` only. -/
structure CapsuleInfo where
  status : EfiStatus
  numDescriptors : ℕ
  capsuleSize : ℕ
  capsuleNumber : ℕ

/-- A block counted by `GetCapsuleInfo`; `none` if `ThisCapsuleImageSize` is below its length. -/
def countBlock (m : Memory) (c : Count) : Option Count :=
  let fresh := c.thisCapsuleImageSize = 0
  let image := if fresh then capsuleImageSize m (blockUnion m c.desc) else c.thisCapsuleImageSize
  if image < blockLength m c.desc then none
  else some
    { desc := add64 c.desc descriptorSize
      count := add64 c.count 1
      size := add64 c.size (blockLength m c.desc)
      number := if fresh then add64 c.number 1 else c.number
      thisCapsuleImageSize := image - blockLength m c.desc }

/-- A round of the loop of `GetCapsuleInfo`. -/
def infoStep (m : Memory) (c : Count) : Count ⊕ Option CapsuleInfo :=
  if blockUnion m c.desc = 0 then
    .inr (if c.count = 0 then some ⟨.notFound, 0, 0, 0⟩
      else if c.thisCapsuleImageSize ≠ 0 then none
      else some ⟨.success, c.count, c.size, c.number⟩)
  else if blockLength m c.desc = 0 then .inl { c with desc := blockUnion m c.desc }
  else if maxAddress - c.size ≤ blockLength m c.desc then .inr (some ⟨.outOfResources, 0, 0, 0⟩)
  else
    match countBlock m c with
    | none => .inr none
    | some c => .inl c

section

variable {m m' : Memory} {res : Option (List MemoryResourceDescriptor)} {s s' : Scan}

/-- Two memories show the same to a round at `s`: the descriptor, and the capsule header when the
round reads one. -/
structure SameAt (m m' : Memory) (s : Scan) : Prop where
  descriptor : ∀ x, s.ptr ≤ x → x < s.ptr + descriptorSize → m' x = m x
  header : blockLength m s.ptr ≠ 0 → s.capsuleSize = 0 → ∀ x, blockUnion m s.ptr ≤ x →
    x < blockUnion m s.ptr + capsuleHeaderSize → m' x = m x

theorem SameAt.blockLength (h : SameAt m m' s) : blockLength m' s.ptr = blockLength m s.ptr :=
  le_congr fun i hi => h.descriptor _ (by omega) (by unfold descriptorSize; omega)

theorem SameAt.blockUnion (h : SameAt m m' s) : blockUnion m' s.ptr = blockUnion m s.ptr :=
  le_congr fun i hi => h.descriptor _ (by omega) (by unfold descriptorSize; omega)

theorem header_congr {a : ℕ} (h : ∀ x, a ≤ x → x < a + capsuleHeaderSize → m' x = m x) :
    headerSize m' a = headerSize m a ∧ headerFlags m' a = headerFlags m a ∧
      capsuleImageSize m' a = capsuleImageSize m a := by
  refine ⟨?_, ?_, ?_⟩
  all_goals
    apply le_congr
    intro i hi
    exact h _ (by omega) (by unfold capsuleHeaderSize; omega)

theorem SameAt.openCapsule (h : SameAt m m' s) (hl : Capsule.blockLength m s.ptr ≠ 0) :
    openCapsule m' s = openCapsule m s := by
  unfold Capsule.openCapsule
  rw [h.blockLength, h.blockUnion]
  by_cases hs : s.capsuleSize = 0
  · obtain ⟨hh, hf, him⟩ := header_congr (h.header hl hs)
    simp only [hh, hf, him]
  · simp only [ne_eq, hs, not_false_eq_true, if_true]

/-- **A round sees the descriptor and the header alone.** -/
theorem SameAt.validateStep (h : SameAt m m' s) :
    validateStep m' res s = validateStep m res s := by
  unfold Capsule.validateStep
  rw [h.blockLength, h.blockUnion]
  by_cases hl : Capsule.blockLength m s.ptr = 0
  · simp only [hl, true_and, if_true]
  · simp only [hl, false_and, if_false]
    unfold validateBlock
    rw [h.blockLength, h.blockUnion, h.openCapsule hl]

/-- The descriptor and the size outstanding before it. -/
def Scan.spot (s : Scan) : ℕ × ℕ := (s.ptr, s.capsuleSize)

@[simp] theorem Scan.spot_fst (s : Scan) : s.spot.1 = s.ptr := rfl

@[simp] theorem Scan.spot_snd (s : Scan) : s.spot.2 = s.capsuleSize := rfl

/-- The size outstanding with the block of the descriptor at `x.1`, when `x.2` is outstanding
before it. -/
def outstanding (m : Memory) (x : ℕ × ℕ) : ℕ :=
  if x.2 = 0 then capsuleImageSize m (blockUnion m x.1) else x.2

theorem openCapsule_some {size count : ℕ} (h : openCapsule m s = some (size, count)) :
    size = outstanding m s.spot := by
  unfold openCapsule at h
  by_cases hs : s.capsuleSize = 0
  · rw [if_neg (by omega)] at h
    split_ifs at h
    exact (congrArg Prod.fst (some.inj h)).symm.trans (if_pos hs).symm
  · rw [if_pos hs] at h
    exact (congrArg Prod.fst (some.inj h)).symm.trans (if_neg hs).symm

theorem validateBlock_inl (h : validateBlock m res s = .inl s') :
    validateCapsuleByMemoryResource res s'.ptr descriptorSize = true ∧
      validateCapsuleByMemoryResource res (blockUnion m s.ptr) (blockLength m s.ptr) = true ∧
      s'.ptr = add64 s.ptr descriptorSize ∧ blockLength m s.ptr ≤ outstanding m s.spot ∧
      s'.capsuleSize = outstanding m s.spot - blockLength m s.ptr := by
  unfold validateBlock at h
  by_cases hd : validateCapsuleByMemoryResource res (blockUnion m s.ptr) (blockLength m s.ptr)
  swap
  · simp [hd] at h
  rw [if_neg (by simp [hd])] at h
  cases ho : openCapsule m s with
  | none => simp [ho] at h
  | some found =>
    obtain ⟨size, count⟩ := found
    rw [ho] at h
    dsimp only at h
    split_ifs at h with hs hok
    obtain rfl := openCapsule_some ho
    obtain rfl := Sum.inl.inj h
    exact ⟨by simpa using hok, hd, rfl, by omega, rfl⟩

theorem validateBlock_ne_some (t : ℕ) : validateBlock m res s ≠ .inr (some t) := by
  unfold validateBlock
  by_cases hd : validateCapsuleByMemoryResource res (blockUnion m s.ptr) (blockLength m s.ptr)
  · rw [if_neg (by simp [hd])]
    split
    · simp
    · split_ifs <;> simp
  · simp [hd]

/-- What a round that goes on has found: a pointer to further descriptors, or a block of a capsule
with its size still outstanding. -/
theorem validateStep_inl (h : validateStep m res s = .inl s') :
    validateCapsuleByMemoryResource res s'.ptr descriptorSize = true ∧
      ((blockLength m s.ptr = 0 ∧ blockUnion m s.ptr ≠ 0 ∧ s'.ptr = blockUnion m s.ptr ∧
          s'.capsuleSize = s.capsuleSize) ∨
        (blockLength m s.ptr ≠ 0 ∧
          validateCapsuleByMemoryResource res (blockUnion m s.ptr) (blockLength m s.ptr) = true ∧
          s'.ptr = add64 s.ptr descriptorSize ∧ blockLength m s.ptr ≤ outstanding m s.spot ∧
          s'.capsuleSize = outstanding m s.spot - blockLength m s.ptr)) := by
  unfold validateStep at h
  by_cases he : blockLength m s.ptr = 0 ∧ blockUnion m s.ptr = 0
  · simp [he] at h
  split_ifs at h with ha hl hok
  · obtain rfl := Sum.inl.inj h
    refine ⟨by simpa using hok, .inl ⟨hl, ?_, rfl, rfl⟩⟩
    exact fun hu => he ⟨hl, hu⟩
  · obtain ⟨hok, hd⟩ := validateBlock_inl h
    exact ⟨hok, .inr ⟨hl, hd⟩⟩

theorem validateStep_inr {t : ℕ} (h : validateStep m res s = .inr (some t)) :
    t = s.ptr ∧ blockLength m t = 0 ∧ blockUnion m t = 0 ∧ s.capsuleSize = 0 := by
  unfold validateStep at h
  by_cases he : blockLength m s.ptr = 0 ∧ blockUnion m s.ptr = 0
  · rw [if_pos he] at h
    have hs := Sum.inr.inj h
    split_ifs at hs with hcnt hsi
    obtain rfl := some.inj hs
    exact ⟨rfl, he.1, he.2, by omega⟩
  · split_ifs at h
    · simp at h
    · simp at h
    · exact absurd h (validateBlock_ne_some t)

/-! ## Where a list goes on -/

section

variable (m : Memory) (res : Option (List MemoryResourceDescriptor)) (x : ℕ × ℕ)

/-- The descriptor behind that at `x.1`, and the size outstanding before it. -/
def nextSpot : ℕ × ℕ :=
  if blockLength m x.1 = 0 then (blockUnion m x.1, x.2)
  else (add64 x.1 descriptorSize, outstanding m x - blockLength m x.1)

/-- The block of the descriptor at `x.1` opens a capsule, the header of which is in order. -/
structure Opens : Prop where
  room : capsuleHeaderSize ≤ blockLength m x.1
  header : headerSize m (blockUnion m x.1) ≤ capsuleImageSize m (blockUnion m x.1)
  flags : isCapsuleCorrupted (headerFlags m (blockUnion m x.1)) = false

/-- **The list goes on behind the descriptor at `x.1`**: a pointer to further descriptors, or a
block of a capsule of which there is enough outstanding. -/
structure Goes : Prop where
  aligned : x.1 % 8 = 0
  pointer : blockLength m x.1 = 0 → blockUnion m x.1 ≠ 0
  block : blockLength m x.1 ≠ 0 →
    validateCapsuleByMemoryResource res (blockUnion m x.1) (blockLength m x.1) = true ∧
      (x.2 = 0 → Opens m x) ∧ blockLength m x.1 ≤ outstanding m x
  next : validateCapsuleByMemoryResource res (nextSpot m x).1 descriptorSize = true

end

theorem openCapsule_isSome : (∃ found, openCapsule m s = some found) ↔
    (s.capsuleSize = 0 → Opens m s.spot) := by
  unfold openCapsule
  by_cases hs : s.capsuleSize = 0
  · rw [if_neg (not_not.mpr hs)]
    simp only [hs, true_implies]
    constructor
    · rintro ⟨found, h⟩
      split_ifs at h with h₁ h₂ h₃
      exact ⟨Nat.not_lt.mp h₁, Nat.not_lt.mp h₂, Bool.not_eq_true _ ▸ h₃⟩
    · rintro ⟨h₁, h₂, h₃⟩
      simp only [Scan.spot_fst] at h₁ h₂ h₃
      rw [if_neg (Nat.not_lt.mpr h₁), if_neg (Nat.not_lt.mpr h₂), if_neg (by simp [h₃])]
      exact ⟨_, rfl⟩
  · rw [if_pos hs]
    exact iff_of_true ⟨_, rfl⟩ fun h => absurd h hs

/-- **A round goes on where the list does.** -/
theorem validateStep_of_goes (h : Goes m res s.spot) :
    ∃ s', validateStep m res s = .inl s' ∧ s'.spot = nextSpot m s.spot := by
  obtain ⟨hal, hp, hb, hn⟩ := h
  simp only [Scan.spot_fst, Scan.spot_snd] at hal hp hb
  unfold validateStep
  by_cases hl : blockLength m s.ptr = 0
  · have hne : nextSpot m s.spot = (blockUnion m s.ptr, s.capsuleSize) := if_pos hl
    rw [hne] at hn
    rw [if_neg (fun he => hp hl he.2), if_neg (not_not.mpr hal), if_pos hl, if_neg (by simp [hn])]
    exact ⟨_, rfl, hne.symm⟩
  · have hne : nextSpot m s.spot = (add64 s.ptr descriptorSize,
        outstanding m s.spot - blockLength m s.ptr) := if_neg hl
    rw [hne] at hn
    obtain ⟨hd, hop, hle⟩ := hb hl
    rw [if_neg (fun he => hl he.1), if_neg (not_not.mpr hal), if_neg hl, validateBlock,
      if_neg (by simp [hd])]
    obtain ⟨⟨size, count⟩, hfound⟩ := openCapsule_isSome.mpr hop
    rw [hfound]
    obtain rfl := openCapsule_some hfound
    dsimp only
    rw [if_neg (Nat.not_lt.mpr hle), if_neg (by simp [hn])]
    exact ⟨_, rfl, hne.symm⟩

theorem goes_of_validateStep (h : validateStep m res s = .inl s') :
    Goes m res s.spot ∧ s'.spot = nextSpot m s.spot := by
  obtain ⟨hok, hf⟩ := validateStep_inl h
  have hal : s.ptr % 8 = 0 := by
    unfold validateStep at h
    split_ifs at h with h₁ h₂ h₃ h₄
    · omega
    · omega
  rcases hf with ⟨hl, hu, hp, hs⟩ | ⟨hl, hd, hp, hle, hs⟩
  · have hne : nextSpot m s.spot = s'.spot := by
      refine (if_pos hl).trans ?_
      rw [Scan.spot, Scan.spot, hp, hs]
    refine ⟨⟨hal, fun _ => hu, fun hb => absurd hl hb, ?_⟩, hne.symm⟩
    rw [hne]
    exact hok
  · have hne : nextSpot m s.spot = s'.spot := by
      refine (if_neg hl).trans ?_
      rw [Scan.spot, Scan.spot, hp, hs]
      rfl
    refine ⟨⟨hal, fun hb => absurd hb hl, fun _ => ⟨hd, ?_, hle⟩, ?_⟩, hne.symm⟩
    · refine openCapsule_isSome.mp ?_
      by_contra hno
      have hnone : openCapsule m s = none := by
        rw [Option.eq_none_iff_forall_ne_some]
        exact fun found hfound => hno ⟨found, hfound⟩
      unfold validateStep at h
      rw [if_neg (fun he => hl he.1), if_neg (not_not.mpr hal), if_neg hl, validateBlock, hnone,
        if_neg (by simp [hd])] at h
      cases h
    · rw [hne]
      exact hok

/-- A round ends where the list does. -/
theorem validateStep_of_not_goes (h : ¬ Goes m res s.spot) : ∃ r, validateStep m res s = .inr r := by
  cases hs : validateStep m res s with
  | inl s' => exact absurd (goes_of_validateStep hs).1 h
  | inr r => exact ⟨r, rfl⟩

end

end Edk2.Capsule
