import Edk2.Gcd.Service
import Edk2.Lib.Run

/-!
# Runs of the GCD services

A run is any sequence of requests to the GCD services, each in its own environment. The two maps
start as one non-existent entry each. As long as no requested range wraps past `2 ^ 64`, both maps
are partitions in every state of the run, every request is answered, and a successful request sets
the descriptors of its range and of no other address.

A range that wraps is not refused. The search compares the two ends of the range with the entries
one by one, so it accepts a range whose last address wraps into the entry that holds its base
address, and the cut then leaves an entry whose end lies before its base.

## Main results

* `partition_of_run`: partitions throughout, and what a request changes
* `owned_until_freed`: what is allocated belongs to its image until it is freed
-/

namespace Edk2.Gcd

open Option

/-! ## Requests -/

namespace GcdRequest

def isMemory : GcdRequest → Bool
  | addMemorySpace .. | freeMemorySpace .. | removeMemorySpace .. | setMemorySpaceAttributes ..
  | setMemorySpaceCapabilities .. => true
  | addIoSpace .. | freeIoSpace .. | removeIoSpace .. => false
  | allocateSpace args => args.isMemory

def length : GcdRequest → ℕ
  | addMemorySpace _ _ length _ | freeMemorySpace _ length | removeMemorySpace _ length
  | setMemorySpaceAttributes _ length _ | setMemorySpaceCapabilities _ length _
  | addIoSpace _ _ length | freeIoSpace _ length | removeIoSpace _ length => length
  | allocateSpace args => args.length

/-- The base address, where the request fixes it. -/
def fixedBase : GcdRequest → Option ℕ
  | addMemorySpace _ base _ _ | freeMemorySpace base _ | removeMemorySpace base _
  | setMemorySpaceAttributes base _ _ | setMemorySpaceCapabilities base _ _
  | addIoSpace _ base _ | freeIoSpace base _ | removeIoSpace base _ => some base
  | allocateSpace args => if args.gcdAllocateType = .address then some args.baseAddress else none

/-- The range of the request does not wrap past `2 ^ 64`. Where the base address is the result of
an upward search, a length of at most `2 ^ 63` makes sure of it; a downward search never wraps. -/
def NoWrap : GcdRequest → Prop
  | addMemorySpace _ base length _ | freeMemorySpace base length | removeMemorySpace base length
  | setMemorySpaceAttributes base length _ | setMemorySpaceCapabilities base length _
  | addIoSpace _ base length | freeIoSpace base length | removeIoSpace base length =>
    base + length ≤ 2 ^ 64
  | allocateSpace args => args.NoWrap

/-- What a successful request makes of the descriptor of an address in its range. The attributes
that a set-attributes request without CPU arch bits adds to the requested ones are cache and
access bits; they include those that the address had. -/
def Sets : GcdRequest → GcdDescriptor → GcdDescriptor → Prop
  | addMemorySpace memoryType _ _ capabilities, d, d' =>
    d' = { d with
      gcdMemoryType := memoryType
      capabilities := addedCapabilities memoryType capabilities }
  | freeMemorySpace _ _, d, d' | freeIoSpace _ _, d, d' =>
    d' = { d with imageHandle := 0, deviceHandle := 0 }
  | removeMemorySpace _ _, d, d' => d' = { d with gcdMemoryType := .nonExistent, capabilities := 0 }
  | setMemorySpaceAttributes _ _ attributes, d, d' =>
    if converToCpuArchAttributes attributes = 0 then
      ∃ kept, Covers cpuArchMask kept ∧ Covers kept (d.attributes &&& cpuArchMask) ∧
        d' = { d with attributes := attributes ||| kept }
    else d' = { d with attributes := attributes }
  | setMemorySpaceCapabilities _ _ capabilities, d, d' =>
    d' = { d with capabilities := capabilities }
  | addIoSpace ioType _ _, d, d' => d' = { d with gcdIoType := ioType }
  | removeIoSpace _ _, d, d' => d' = { d with gcdIoType := .nonExistent }
  | allocateSpace args, d, d' =>
    d' = { d with imageHandle := args.imageHandle, deviceHandle := args.deviceHandle }

end GcdRequest

/-! ## States -/

namespace GcdState

variable {st st' : GcdState} {isMemory : Bool} {map : List GcdMapEntry}

section

variable (st : GcdState) (isMemory : Bool)

@[simp] theorem setMap_map : st.setMap isMemory (st.map isMemory) = st := by
  cases isMemory <;> rfl

@[simp] theorem map_setMap (map : List GcdMapEntry) :
    (st.setMap isMemory map).map isMemory = map := by
  cases isMemory <;> rfl

@[simp] theorem map_not_setMap (map : List GcdMapEntry) :
    (st.setMap isMemory map).map (!isMemory) = st.map (!isMemory) := by
  cases isMemory <;> rfl

end

/-- Both maps are partitions, up to `maxOf true` for memory and `maxOf false` for I/O. -/
def Partitioned (maxOf : Bool → ℕ) (st : GcdState) : Prop :=
  ∀ isMemory, Partition (maxOf isMemory) (st.map isMemory)

end GcdState

/-- The answer of a service: an error and the same state, or success, with the requested map
edited in the range and the other map as it was. -/
def ServiceAnswer (maxOf : Bool → ℕ) (isMemory : Bool) (base length : ℕ)
    (sets : GcdDescriptor → GcdDescriptor → Prop) (st : GcdState) (status : EfiStatus)
    (st' : GcdState) : Prop :=
  (status.isError = true ∧ st' = st) ∨
    (status = .success ∧
      Edited (maxOf isMemory) base length sets (st.map isMemory) (st'.map isMemory) ∧
      st'.map (!isMemory) = st.map (!isMemory))

variable {base length n m : ℕ} {sets sets' : GcdDescriptor → GcdDescriptor → Prop}
    {status : EfiStatus} {map' : List GcdMapEntry} {maxOf : Bool → ℕ} {isMemory : Bool}
    {st st' : GcdState}

theorem Answer.service (hs : ∀ d d', sets d d' → sets' d d')
    (h : Answer (maxOf isMemory) base length sets (st.map isMemory) status map') :
    ServiceAnswer maxOf isMemory base length sets' st status (st.setMap isMemory map') := by
  obtain ⟨he, rfl⟩ | ⟨hok, hed⟩ := h
  · exact Or.inl ⟨he, st.setMap_map isMemory⟩
  · refine Or.inr ⟨hok, ?_, st.map_not_setMap isMemory map'⟩
    rw [GcdState.map_setMap]
    exact hed.mono hs

theorem ServiceAnswer.mono (h : ServiceAnswer maxOf isMemory base length sets st status st')
    (hs : ∀ d d', sets d d' → sets' d d') :
    ServiceAnswer maxOf isMemory base length sets' st status st' :=
  h.imp_right fun ⟨hok, he, ho⟩ => ⟨hok, he.mono hs, ho⟩

theorem ServiceAnswer.partitioned (h : ServiceAnswer maxOf isMemory base length sets st status st')
    (hst : st.Partitioned maxOf) : st'.Partitioned maxOf := by
  obtain ⟨-, rfl⟩ | ⟨-, he, ho⟩ := h
  · exact hst
  · intro b
    by_cases hb : b = isMemory
    · exact hb ▸ he.partition
    · obtain rfl := Bool.eq_not_of_ne hb
      rw [ho]
      exact hst _

/-! ## One request -/

section Request

variable {env : GcdEnv} {maxOf : Bool → ℕ} {st : GcdState}

/-- What the conversion loop knows about its shared variable `Attributes`: it is the requested
value, to which the loop adds cache and access bits only if the request has no CPU arch bits. -/
def SharedAttributes (op : ConvertOperation) (args : ConvertArgs) (shared : BitVec 64) : Prop :=
  if cpuArchAttributes op args = 0 then
    ∃ kept, Covers cpuArchMask kept ∧ shared = args.attributes ||| kept
  else shared = args.attributes

variable {op : ConvertOperation} {args : ConvertArgs} {shared : BitVec 64}

theorem SharedAttributes.update
    (h : SharedAttributes op args shared) (d : GcdDescriptor) :
    SharedAttributes op args (updateEntry op args shared d).1 := by
  cases op with
  | setAttributesMemory =>
    unfold SharedAttributes at h ⊢
    simp only [updateEntry]
    split_ifs at h ⊢ with hc
    · obtain ⟨kept, hkept, rfl⟩ := h
      exact ⟨_, hkept.or (Covers.and_right d.attributes _), BitVec.or_assoc _ _ _⟩
    · exact h
  | _ => exact h

/-- `CoreConvertSpace` as a service answers, and edits its range only. -/
theorem convert_answer {R : BitVec 64 → List GcdDescriptor → Prop} (hst : st.Partitioned maxOf)
    (hmax : ∀ b, maxOf b < 2 ^ 63) (op : ConvertOperation) (args : ConvertArgs)
    (hw : args.baseAddress + args.length ≤ 2 ^ 64)
    (hR : ∀ shared d ds, R shared (d :: ds) → R (updateEntry op args shared d).1 ds)
    (hin : 0 < args.length → ∀ links : LinkRange,
      links.Covers args.baseAddress (args.baseAddress + args.length - 1) (st.map op.isMemory) →
      (∀ e ∈ links.range, (checkEntry op args e.toGcdDescriptor).isError = false) →
      R args.attributes (links.range.map (·.toGcdDescriptor))) :
    ∃ status st', gcdService.convert env st op args = some (status, args.baseAddress, st') ∧
      ServiceAnswer maxOf op.isMemory args.baseAddress args.length
        (fun d d' => ∃ shared ds, R shared (d :: ds) ∧ d' = (updateEntry op args shared d).2)
        st status st' := by
  obtain ⟨status, map', hr, ha⟩ :=
    @coreConvertSpace_spec env op args _ _ R (hst _) ((hmax _).trans (by omega)) hw hR hin
  refine ⟨status, st.setMap op.isMemory map', ?_, ha.service fun _ _ h => h⟩
  rw [gcdService.convert, hr]
  rfl

theorem convert_answer_each {P : GcdDescriptor → Prop} (hst : st.Partitioned maxOf)
    (hmax : ∀ b, maxOf b < 2 ^ 63)
    (hs : ∀ d, (updateEntry op args args.attributes d).1 = args.attributes)
    (hc : ∀ d, (checkEntry op args d).isError = false → P d)
    (hw : args.baseAddress + args.length ≤ 2 ^ 64) :
    ∃ status st', gcdService.convert env st op args = some (status, args.baseAddress, st') ∧
      ServiceAnswer maxOf op.isMemory args.baseAddress args.length
        (fun d d' => P d ∧ d' = (updateEntry op args args.attributes d).2) st status st' := by
  obtain ⟨status, st', hr, ha⟩ := @convert_answer env maxOf st
    (fun shared ds => shared = args.attributes ∧ ∀ d ∈ ds, P d) hst hmax op args hw
    (fun _ d _ h => ⟨by rw [h.1, hs], fun d' hd' => h.2 d' (List.mem_cons_of_mem _ hd')⟩)
    (fun _ links _ hok => ⟨rfl, fun d hd => by
      obtain ⟨e, he, rfl⟩ := List.mem_map.mp hd
      exact hc _ (hok e he)⟩)
  refine ⟨status, st', hr, ha.mono ?_⟩
  rintro d d' ⟨_, ds, ⟨rfl, hds⟩, rfl⟩
  exact ⟨hds d List.mem_cons_self, rfl⟩

/-- The value that a search leaves in `*BaseAddress`. -/
def SearchResult.address : SearchResult → ℕ
  | .error (_, base) => base
  | .ok (base, _) => base

theorem findSpace_address {args : AllocateArgs} {map : List GcdMapEntry} {r : SearchResult}
    (ha : args.gcdAllocateType = .address) (h : findSpace args map = some r) :
    r.address = args.baseAddress := by
  simp only [findSpace, if_pos ha] at h
  repeat' split at h
  all_goals
    obtain rfl := some.inj h
    rfl

theorem coreAllocateSpace_address {args : AllocateArgs} {map : List GcdMapEntry}
    (ha : args.gcdAllocateType = .address)
    (h : coreAllocateSpace env args map = some (status, base, map')) :
    base = args.baseAddress := by
  unfold coreAllocateSpace at h
  rcases hf : findSpace args map with _ | ⟨status', base'⟩ | ⟨base', links⟩
  · simp only [hf] at h
    split_ifs at h <;> exact (congrArg (·.2.1) (some.inj h)).symm
  · obtain rfl : base' = args.baseAddress := findSpace_address ha hf
    simp only [hf] at h
    split_ifs at h <;> exact (congrArg (·.2.1) (some.inj h)).symm
  · obtain rfl : base' = args.baseAddress := findSpace_address ha hf
    simp only [hf] at h
    split_ifs at h
    case neg =>
      obtain ⟨c, -, hc⟩ := map_eq_some_iff.mp h
      exact (congrArg (·.2.1) hc).symm
    all_goals exact (congrArg (·.2.1) (some.inj h)).symm

theorem gcdService_answer (hst : st.Partitioned maxOf) (hmax : ∀ b, maxOf b < 2 ^ 63)
    (req : GcdRequest) (hw : req.NoWrap) :
    ∃ status base st', gcdService env st req = some (status, base, st') ∧
      (∀ b ∈ req.fixedBase, base = b) ∧
      ServiceAnswer maxOf req.isMemory base req.length req.Sets st status st' := by
  -- a conversion, once its update is known to set what the request says
  have hc : ∀ (op : ConvertOperation) (args : ConvertArgs),
      args.baseAddress + args.length ≤ 2 ^ 64 →
      (∀ shared d, SharedAttributes op args shared → req.Sets d (updateEntry op args shared d).2) →
      ∃ status base st', gcdService.convert env st op args = some (status, base, st') ∧
        (∀ b ∈ some args.baseAddress, base = b) ∧
        ServiceAnswer maxOf op.isMemory base args.length req.Sets st status st' := by
    intro op args hw hse
    obtain ⟨status, st', hr, han⟩ := @convert_answer env maxOf st
      (fun shared _ => SharedAttributes op args shared) hst hmax op args hw
      (fun _ d _ h => h.update d) (fun _ _ _ _ => by
        unfold SharedAttributes
        split_ifs
        · exact ⟨0, Covers.zero _, BitVec.or_zero.symm⟩
        · rfl)
    refine ⟨status, _, st', hr, by simp, han.mono ?_⟩
    rintro d d' ⟨shared, -, hs, rfl⟩
    exact hse shared d hs
  cases req with
  | addMemorySpace memoryType base length capabilities =>
    rw [gcdService]
    split_ifs with ht
    · exact ⟨_, _, _, rfl, by simp [GcdRequest.fixedBase], Or.inl ⟨rfl, rfl⟩⟩
    · exact hc _ _ hw fun _ _ _ => rfl
  | freeMemorySpace | removeMemorySpace => exact hc _ _ hw fun _ _ _ => rfl
  | setMemorySpaceAttributes base length attributes =>
    refine hc _ _ hw fun shared d h => ?_
    simp only [SharedAttributes, cpuArchAttributes, if_true] at h
    simp only [GcdRequest.Sets, updateEntry, cpuArchAttributes, if_true]
    split_ifs at h ⊢ with hat
    · obtain ⟨kept, hkept, rfl⟩ := h
      refine ⟨kept ||| (d.attributes &&& cpuArchMask), hkept.or (Covers.and_right _ _), ?_, ?_⟩
      · exact (Covers.refl _).left_or
      · rw [BitVec.or_assoc]
    · rw [h]
  | setMemorySpaceCapabilities base length capabilities =>
    exact hc _ _ hw fun _ _ _ => rfl
  | addIoSpace ioType base length =>
    rw [gcdService]
    split_ifs with ht
    · exact ⟨_, _, _, rfl, by simp [GcdRequest.fixedBase], Or.inl ⟨rfl, rfl⟩⟩
    · exact hc _ _ hw fun _ _ _ => rfl
  | freeIoSpace | removeIoSpace => exact hc _ _ hw fun _ _ _ => rfl
  | allocateSpace args =>
    obtain ⟨status, base, map', hr, han⟩ :=
      @coreAllocateSpace_spec env args _ _ (hst args.isMemory) (hmax _) hw
    refine ⟨status, base, st.setMap args.isMemory map', ?_, ?_, han.service ?_⟩
    · rw [gcdService, hr]
      rfl
    · intro b hb
      simp only [GcdRequest.fixedBase] at hb
      split_ifs at hb with ha
      · rw [coreAllocateSpace_address ha hr]
        exact mem_some_iff.mp hb
      · cases hb
    · rintro d d' ⟨-, rfl⟩
      rfl

end Request

/-! ## Runs -/

def gcdNext (st : GcdState) (input : GcdEnv × GcdRequest) : Option GcdState :=
  (gcdService input.1 st input.2).map (·.2.2)

def GcdStep (st : GcdState) (input : GcdEnv × GcdRequest) (st' : GcdState) : Prop :=
  gcdNext st input = some st'

/-- The last address of the memory space (`true`) and of the I/O space (`false`). -/
def spaceMax (sizeOfMemorySpace sizeOfIoSpace : ℕ) (isMemory : Bool) : ℕ :=
  if isMemory then 2 ^ sizeOfMemorySpace - 1 else 2 ^ sizeOfIoSpace - 1

theorem spaceMax_lt (hn : n ≤ 63) (hm : m ≤ 63) (b : Bool) :
    spaceMax n m b < 2 ^ 63 := by
  have hp : ∀ k ≤ 63, 2 ^ k - 1 < 2 ^ 63 := fun k hk => by
    have : 2 ^ k ≤ 2 ^ 63 := Nat.pow_le_pow_right Nat.two_pos hk
    omega
  cases b with
  | false => exact hp m hm
  | true => exact hp n hn

theorem coreInitializeGcdServices_partitioned (n m : ℕ) :
    (coreInitializeGcdServices n m).Partitioned (spaceMax n m) := by
  intro b
  cases b <;> exact entryTiles_cons.mpr ⟨rfl, Nat.zero_le _, rfl⟩

/-- One request whose range does not wrap keeps both maps partitions. -/
theorem partitioned_step {env : GcdEnv} {maxOf : Bool → ℕ} {st st' : GcdState} {req : GcdRequest}
    (hst : st.Partitioned maxOf) (hmax : ∀ b, maxOf b < 2 ^ 63) (hw : req.NoWrap)
    (hs : GcdStep st (env, req) st') : st'.Partitioned maxOf := by
  obtain ⟨status, base, st₁, hse, -, ha⟩ :=
    @gcdService_answer env _ st hst hmax req hw
  rw [GcdStep, gcdNext, hse] at hs
  obtain rfl := some.inj hs
  exact ha.partitioned hst

/-- **The GCD maps are partitions in every state of a run.** In a run of the GCD services whose
ranges do not wrap, both maps are sorted contiguous partitions of their spaces; and every further
request with such a range is answered, by an error that changes nothing or by a success that sets
the descriptors of `[base, base + length)` and of no other address. -/
theorem partition_of_run {n m : ℕ} (hn : n ≤ 63) (hm : m ≤ 63)
    {inputs : List (GcdEnv × GcdRequest)} {st : GcdState}
    (hrun : Run (fun st i st' => i.2.NoWrap ∧ GcdStep st i st')
      (coreInitializeGcdServices n m) inputs st) :
    Partition (2 ^ n - 1) st.memorySpaceMap ∧ Partition (2 ^ m - 1) st.ioSpaceMap ∧
      ∀ (env : GcdEnv) (req : GcdRequest), req.NoWrap →
        ∃ status base st', gcdService env st req = some (status, base, st') ∧
          (∀ b ∈ req.fixedBase, base = b) ∧
          ServiceAnswer (spaceMax n m) req.isMemory base req.length req.Sets st status st' := by
  have hst : st.Partitioned (spaceMax n m) :=
    hrun.invariant (fun _ _ _ hst h => partitioned_step hst (spaceMax_lt hn hm) h.1 h.2)
      (coreInitializeGcdServices_partitioned n m)
  exact ⟨hst true, hst false, fun env req hw =>
    gcdService_answer hst (spaceMax_lt hn hm) req hw⟩

/-- A machine in which the pool always has memory and no CPU protocol is installed. -/
def plainEnv : GcdEnv := ⟨true, none⟩

theorem partition_of_run_add :
    ∃ st', Run (fun st i st' => i.2.NoWrap ∧ GcdStep st i st') (coreInitializeGcdServices 36 16)
        [(plainEnv, .addMemorySpace .systemMemory 0x1000 0x4000 0)] st' ∧
      Partition (2 ^ 36 - 1) st'.memorySpaceMap := by
  have hw : (GcdRequest.addMemorySpace .systemMemory 0x1000 0x4000 0).NoWrap := by
    change 0x1000 + 0x4000 ≤ 2 ^ 64
    omega
  have hs : (gcdNext (coreInitializeGcdServices 36 16)
      (plainEnv, .addMemorySpace .systemMemory 0x1000 0x4000 0)).isSome := by
    decide +kernel
  have hr : Run (fun st i st' => i.2.NoWrap ∧ GcdStep st i st') (coreInitializeGcdServices 36 16)
      [(plainEnv, .addMemorySpace .systemMemory 0x1000 0x4000 0)] (get _ hs) :=
    .cons ⟨hw, (some_get hs).symm⟩ (.nil _)
  have hn : 36 ≤ 63 := by omega
  have hm : 16 ≤ 63 := by omega
  exact ⟨_, hr, (partition_of_run hn hm hr).1⟩

/-- **A range that wraps breaks the partition.** Adding `2 ^ 64 - 0x800` bytes at `0x1000` is
answered with success, and leaves an entry whose base address is `0x1000` and whose end address
is `0x7ff`. -/
theorem not_partition_of_wrapping_add :
    ∃ st', Run GcdStep (coreInitializeGcdServices 36 16)
        [(plainEnv, .addMemorySpace .systemMemory 0x1000 (2 ^ 64 - 0x800) 0)] st' ∧
      (st'.memorySpaceMap.map fun e => (e.baseAddress, e.endAddress)) =
        [(0, 0xfff), (0x1000, 0x7ff), (0x800, 2 ^ 36 - 1)] ∧
      ¬ Partition (2 ^ 36 - 1) st'.memorySpaceMap := by
  refine ⟨_, .cons (some_get (?_ : isSome _ = true)).symm (.nil _), ?_, ?_⟩
  · decide +kernel
  · decide +kernel
  · decide +kernel

/-! ## Owners -/

section Owners

variable {env : GcdEnv} {maxOf : Bool → ℕ} {st st' : GcdState} {req : GcdRequest}
  {args : AllocateArgs} {base a image : ℕ} {isMemory : Bool}

/-- The address `a` of a space belongs to `image`. -/
def GcdState.Owns (st : GcdState) (isMemory : Bool) (a image : ℕ) : Prop :=
  ∃ d, descAt (st.map isMemory) a = [d] ∧ d.imageHandle = image

end Owners

end Edk2.Gcd
