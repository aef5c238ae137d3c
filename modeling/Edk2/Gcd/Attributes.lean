import Edk2.Gcd.Runs

/-!
# Attributes and capabilities of the GCD memory map

The attributes of a range should stay within its capabilities, and a set-attributes request
without CPU arch bits should leave the cache and access bits of every address alone. The checks of
`CoreConvertSpace` look at one entry at a time, and three of its updates do more than they check:

* remove sets the capabilities to zero and keeps the attributes;
* add replaces the capabilities of a non-existent range and keeps the attributes it finds there;
* set attributes collects the cache and access bits of all entries in the shared `Attributes`.

`GcdRequest.Clean` is what a caller has to know about the range so that none of the three matters.

## Main results

* `covers_attributes_of_run`: runs of clean requests keep both properties
* `not_covers_attributes`: two runs that break them
-/

namespace Edk2.Gcd

open List Option

/-! ## The requests that keep attributes and capabilities in step -/

section

variable (map : List GcdMapEntry)

/-- Every descriptor that the map gives to an address of the range has the property. -/
def ForRange (base length : ℕ) (P : GcdDescriptor → Prop) : Prop :=
  ∀ a, base ≤ a → a < base + length → ∀ d ∈ descAt map a, P d

/-- The cache and access bits only grow with the address. -/
def BitsGrow (base length : ℕ) : Prop :=
  ∀ a b, base ≤ a → a ≤ b → b < base + length → ∀ d ∈ descAt map a, ∀ d' ∈ descAt map b,
    Covers d'.attributes (d.attributes &&& cpuArchMask)

/-- What the caller has to know about the range of a request. -/
def GcdRequest.Clean : GcdRequest → Prop
  | addMemorySpace memoryType base length capabilities =>
    ForRange map base length fun d =>
      Covers (addedCapabilities memoryType capabilities) d.attributes
  | removeMemorySpace base length => ForRange map base length fun d => d.attributes = 0
  | setMemorySpaceAttributes base length attributes =>
    converToCpuArchAttributes attributes = 0 → BitsGrow map base length
  | _ => True

/-- The attributes of every address are among its capabilities. -/
def AttributesCovered : Prop :=
  ∀ a, ∀ d ∈ descAt map a, Covers d.capabilities d.attributes

end

theorem AttributesCovered.entry {max : ℕ} {map : List GcdMapEntry} (hp : Partition max map)
    (h : AttributesCovered map) {e : GcdMapEntry} (he : e ∈ map) :
    Covers e.capabilities e.attributes := by
  have := (hp.bounds e he).2.1
  exact h e.baseAddress _ (mem_descAt_of_mem he ⟨le_rfl, by omega⟩)

/-! ## The entries of a range -/

section Range

variable {map : List GcdMapEntry} {links : LinkRange} {max base : ℕ}

theorem forRange_of_meets {length : ℕ} {P : GcdDescriptor → Prop}
    (h : ∀ e ∈ map, e.Meets base length → P e.toGcdDescriptor) : ForRange map base length P := by
  intro a hlo hhi d hd
  obtain ⟨e, he, hm, rfl⟩ := exists_meets_of_mem_descAt hd hlo hhi
  exact h e he hm

theorem bitsGrow_of_meets {length : ℕ}
    (h : ∀ e ∈ map, e.Meets base length → ∀ e' ∈ map, e'.Meets base length →
      Covers e'.attributes (e.attributes &&& cpuArchMask)) : BitsGrow map base length := by
  intro a b hlo hab hhi d hd d' hd'
  obtain ⟨e, he, hm, rfl⟩ := exists_meets_of_mem_descAt hd hlo (Nat.lt_of_le_of_lt hab hhi)
  obtain ⟨e', he', hm', rfl⟩ := exists_meets_of_mem_descAt hd' (Nat.le_trans hlo hab) hhi
  exact h e he hm e' he' hm'

theorem BitsGrow.pairwise {length : ℕ} (hp : Partition max map) (hl : 0 < length)
    (hc : links.Covers base (base + length - 1) map) (h : BitsGrow map base length) :
    (links.range.map (·.toGcdDescriptor)).Pairwise fun d d' =>
      Covers d'.attributes (d.attributes &&& cpuArchMask) := by
  obtain ⟨s, t, hr⟩ := hc.tiles hp
  refine pairwise_map.mpr (hr.pairwise.imp_of_mem fun {x y} hx hy hxy => ?_)
  have hx' := hc.meets hp hx
  have hy' := hc.meets hp hy
  have hxl := (hr.bounds x hx).2.1
  have hyl := (hr.bounds y hy).2.1
  exact h (Nat.max x.baseAddress base) y.baseAddress (le_max_right _ _)
    (Nat.max_le.mpr ⟨by omega, by omega⟩) (by omega) _
    (mem_descAt_of_mem (hc.mem hx) ⟨le_max_left _ _, Nat.max_le.mpr ⟨by omega, hx'.1⟩⟩) _
    (mem_descAt_of_mem (hc.mem hy) ⟨le_rfl, by omega⟩)

end Range

/-! ## The set-attributes request -/

theorem and_cpuArchMask_eq_zero {attributes : BitVec 64}
    (h : converToCpuArchAttributes attributes = 0) : attributes &&& cpuArchMask = 0 := by
  have hor : ∀ x c : BitVec 64, c ≠ 0 → x ||| c ≠ 0 := fun x c hc h0 =>
    hc (BitVec.or_eq_zero_iff.mp h0).2
  unfold converToCpuArchAttributes at h
  split_ifs at h with huc hwc hwt hwb hu hwp
  any_goals exact absurd h (hor _ _ (by decide))
  have bit : ∀ {c : BitVec 64} (i : ℕ), c = BitVec.twoPow 64 i → ¬ attributes &&& c = c →
      attributes &&& c = 0 := by
    rintro c i rfl hne
    rw [BitVec.and_twoPow] at hne ⊢
    exact if_neg fun hi => hne (if_pos hi)
  simp only [cpuArchMask, efiCacheAttributeMask, BitVec.and_or_distrib_left, h,
    bit 0 (by decide) huc, bit 1 (by decide) hwc, bit 2 (by decide) hwt, bit 3 (by decide) hwb,
    bit 4 (by decide) hu, bit 12 (by decide) hwp]
  decide

section SetAttributes

variable {env : GcdEnv} {maxOf : Bool → ℕ} {st : GcdState} {base length : ℕ}
  {attributes : BitVec 64}

theorem covers_of_checkEntry {args : ConvertArgs} {d : GcdDescriptor}
    (h : (checkEntry .setAttributesMemory args d).isError = false) :
    Covers d.capabilities args.attributes := by
  simp only [checkEntry] at h
  split_ifs at h with h₁ h₂
  · cases h
  · cases h
  · exact not_not.mp h₂

/-- What the loop keeps when the bits of the range grow: the bits collected in the shared variable
belong to every descriptor still to come. -/
def BitsCollected (attributes shared : BitVec 64) (ds : List GcdDescriptor) : Prop :=
  ∃ kept, shared = attributes ||| kept ∧
    (∀ d ∈ ds, Covers (d.attributes &&& cpuArchMask) kept ∧ Covers d.capabilities attributes) ∧
    ds.Pairwise fun d d' => Covers d'.attributes (d.attributes &&& cpuArchMask)

theorem BitsCollected.update (hc : converToCpuArchAttributes attributes = 0)
    {shared : BitVec 64} {d : GcdDescriptor} {ds : List GcdDescriptor}
    (h : BitsCollected attributes shared (d :: ds)) :
    BitsCollected attributes (updateEntry .setAttributesMemory
      ⟨.nonExistent, .nonExistent, base, length, 0, attributes⟩ shared d).1 ds := by
  obtain ⟨kept, rfl, hds, hp⟩ := h
  obtain ⟨hd, hp⟩ := pairwise_cons.mp hp
  -- the bits of `d` are added, and every later descriptor has them
  refine ⟨kept ||| (d.attributes &&& cpuArchMask), ?_, fun d' hd' => ⟨?_, ?_⟩, hp⟩
  · simp only [updateEntry, cpuArchAttributes, if_true, hc, BitVec.or_assoc]
  · exact (hds d' (mem_cons_of_mem _ hd')).1.or ((hd d' hd').and (Covers.and_right _ _))
  · exact (hds d' (mem_cons_of_mem _ hd')).2

/-- Where the bits of the range grow, a set-attributes request without CPU arch attributes gives
each address the requested attributes and its own cache and access bits. -/
theorem setAttributes_answer_keep (hst : st.Partitioned maxOf) (hmax : ∀ b, maxOf b < 2 ^ 63)
    (hw : base + length ≤ 2 ^ 64) (hcp : converToCpuArchAttributes attributes = 0)
    (hg : BitsGrow st.memorySpaceMap base length) :
    ∃ status st', gcdService env st (.setMemorySpaceAttributes base length attributes) =
        some (status, base, st') ∧
      ServiceAnswer maxOf true base length (fun d d' => Covers d.capabilities attributes ∧
        d' = { d with attributes := attributes ||| (d.attributes &&& cpuArchMask) })
        st status st' := by
  obtain ⟨status, st', hr, ha⟩ := @convert_answer env _ _ (BitsCollected attributes)
    hst hmax .setAttributesMemory ⟨.nonExistent, .nonExistent, base, length, 0, attributes⟩ hw
    (fun _ _ _ h => h.update hcp)
    (fun hl links hc hch => by
      refine ⟨0, BitVec.or_zero.symm, ?_, hg.pairwise (hst true) hl hc⟩
      intro d hd
      obtain ⟨e, he, rfl⟩ := mem_map.mp hd
      exact ⟨Covers.zero _, covers_of_checkEntry (hch e he)⟩)
  refine ⟨status, st', hr, ha.mono ?_⟩
  rintro d d' ⟨_, ds, ⟨kept, rfl, hds, -⟩, rfl⟩
  obtain ⟨hkept, hca⟩ := hds d mem_cons_self
  refine ⟨hca, ?_⟩
  simp only [updateEntry, cpuArchAttributes, if_true, hcp, BitVec.or_assoc, hkept.or_eq]

end SetAttributes

/-! ## Runs -/

section Runs

variable {env : GcdEnv} {maxOf : Bool → ℕ} {st st' : GcdState}

theorem ServiceAnswer.attributesCovered {isMemory : Bool} {base length : ℕ}
    {sets : GcdDescriptor → GcdDescriptor → Prop} {status : EfiStatus}
    (h : ServiceAnswer maxOf isMemory base length sets st status st')
    (hst : st.Partitioned maxOf) (hc : AttributesCovered st.memorySpaceMap)
    (hse : isMemory = true → ForRange st.memorySpaceMap base length fun d =>
      Covers d.capabilities d.attributes →
        ∀ d', sets d d' → Covers d'.capabilities d'.attributes) :
    AttributesCovered st'.memorySpaceMap := by
  obtain ⟨-, rfl⟩ | ⟨-, he, ho⟩ := h
  · exact hc
  cases isMemory with
  | false =>
    have hsa : st'.memorySpaceMap = st.memorySpaceMap := ho
    exact hsa ▸ hc
  | true =>
    intro a d' hd'
    by_cases ha : base ≤ a ∧ a < base + length
    · obtain ⟨d, hd⟩ := exists_descAt_eq (hst true) (Nat.zero_le a)
        (lt_of_lt_of_le ha.2 he.within)
      have hmem : d ∈ descAt (st.map true) a := hd ▸ mem_singleton_self d
      obtain ⟨d'', hd'', hs⟩ := he.inside a ha.1 ha.2 d hmem
      have heq : d' ∈ descAt (st'.map true) a := hd'
      rw [hd'', mem_singleton] at heq
      exact heq ▸ hse rfl a ha.1 ha.2 d hmem (hc a d hmem) d'' hs
    · have hout : descAt st'.memorySpaceMap a = descAt st.memorySpaceMap a :=
        he.outside a (by omega)
      exact hc a d' (hout ▸ hd')

theorem attributesCovered_step (hst : st.Partitioned maxOf) (hmax : ∀ b, maxOf b < 2 ^ 63)
    {req : GcdRequest} (hw : req.NoWrap) (hcl : req.Clean st.memorySpaceMap)
    (hco : AttributesCovered st.memorySpaceMap) (hs : GcdStep st (env, req) st') :
    AttributesCovered st'.memorySpaceMap := by
  -- whatever an answer lemma says about the service holds of this step
  have ha : ∀ {isMemory : Bool} {base length : ℕ} {sets status st₁},
      gcdService env st req = some (status, base, st₁) →
      ServiceAnswer maxOf isMemory base length sets st status st₁ →
      (isMemory = true → ForRange st.memorySpaceMap base length fun d =>
        Covers d.capabilities d.attributes →
          ∀ d', sets d d' → Covers d'.capabilities d'.attributes) →
      AttributesCovered st'.memorySpaceMap := by
    intro isMemory base length sets status st₁ hser h hse
    rw [GcdStep, gcdNext, hser] at hs
    obtain rfl := some.inj hs
    exact h.attributesCovered hst hco hse
  obtain ⟨status, base, st₁, hser, hb, h⟩ :=
    @gcdService_answer env _ st hst hmax req hw
  cases req with
  | addMemorySpace memoryType base' length capabilities =>
    obtain rfl : base = base' := hb base' rfl
    exact ha hser h fun _ a ha₁ ha₂ d hd _ d' hset => by
      subst hset
      exact hcl a ha₁ ha₂ d hd
  | freeMemorySpace base' length =>
    exact ha hser h fun _ a ha₁ ha₂ d hd hc d' hset => by
      subst hset
      exact hc
  | removeMemorySpace base' length =>
    obtain rfl : base = base' := hb base' rfl
    exact ha hser h fun _ a ha₁ ha₂ d hd _ d' hset => by
      subst hset
      rw [hcl a ha₁ ha₂ d hd]
      exact Covers.zero _
  | setMemorySpaceAttributes base' length attributes =>
    by_cases hcp : converToCpuArchAttributes attributes = 0
    · obtain ⟨_, _, hser, h⟩ :=
        @setAttributes_answer_keep env _ _ _ _ _ hst hmax hw hcp (hcl hcp)
      refine ha hser h fun _ a ha₁ ha₂ d hd hc d' hset => ?_
      obtain ⟨hca, rfl⟩ := hset
      exact hca.or (hc.trans (Covers.and_left _ _))
    · have hsh : ∀ d, (updateEntry .setAttributesMemory
          ⟨.nonExistent, .nonExistent, base', length, 0, attributes⟩ attributes d).1 =
            attributes := fun d => by
        simp only [updateEntry, cpuArchAttributes, if_true, if_neg hcp]
      obtain ⟨_, _, hser, h⟩ := @convert_answer_each env _ _ _ _ _ hst hmax hsh
        (fun _ => covers_of_checkEntry) hw
      refine ha hser h fun _ a ha₁ ha₂ d hd hc d' hset => ?_
      obtain ⟨hca, rfl⟩ := hset
      exact (congrArg (Covers d.capabilities) (hsh d)).mpr hca
  | setMemorySpaceCapabilities base' length capabilities =>
    -- the request is refused where it would drop the capability of an attribute
    obtain ⟨_, _, hser, h⟩ := @convert_answer_each env _ _ .setCapabilitiesMemory
      ⟨.nonExistent, .nonExistent, base', length, capabilities, 0⟩ _ hst hmax (fun _ => rfl)
      (fun d h => by
        simp only [checkEntry] at h
        split_ifs at h with h₁ h₂
        · cases h
        · exact not_not.mp h₂
        · cases h) hw
    refine ha hser h fun _ a ha₁ ha₂ d hd hc d' hset => ?_
    obtain ⟨hca, rfl⟩ := hset
    exact hca
  | addIoSpace | freeIoSpace | removeIoSpace =>
    exact ha hser h fun hio => absurd hio Bool.false_ne_true
  | allocateSpace args =>
    exact ha hser h fun _ a ha₁ ha₂ d hd hc d' hset => by
      subst hset
      exact hc

/-- A step with a range that does not wrap, and that is clean for the memory map. -/
def CleanStep (st : GcdState) (input : GcdEnv × GcdRequest) (st' : GcdState) : Prop :=
  input.2.NoWrap ∧ input.2.Clean st.memorySpaceMap ∧ GcdStep st input st'

/-- **Attributes stay within capabilities, and cache and access bits stay.** In a run of clean
requests every entry of the memory map has its attributes among its capabilities; and a further
clean set-attributes request without CPU arch attributes that succeeds leaves the cache and access
bits of every address as they were. -/
theorem covers_attributes_of_run {n m : ℕ} (hn : n ≤ 63) (hm : m ≤ 63)
    {inputs : List (GcdEnv × GcdRequest)} {st : GcdState}
    (hrun : Run CleanStep (coreInitializeGcdServices n m) inputs st) :
    (∀ e ∈ st.memorySpaceMap, Covers e.capabilities e.attributes) ∧
      ∀ (env : GcdEnv) (base length : ℕ) (attributes : BitVec 64) (b : ℕ) (st' : GcdState),
        converToCpuArchAttributes attributes = 0 → base + length ≤ 2 ^ 64 →
        BitsGrow st.memorySpaceMap base length →
        gcdService env st (.setMemorySpaceAttributes base length attributes) =
          some (.success, b, st') →
        ∀ a, ∀ d ∈ descAt st.memorySpaceMap a, ∃ d', descAt st'.memorySpaceMap a = [d'] ∧
          d'.attributes &&& cpuArchMask = d.attributes &&& cpuArchMask := by
  obtain ⟨hst, hc⟩ : st.Partitioned (spaceMax n m) ∧ AttributesCovered st.memorySpaceMap := by
    refine Run.invariant
      (P := fun st => st.Partitioned (spaceMax n m) ∧ AttributesCovered st.memorySpaceMap) ?_ hrun
      ⟨coreInitializeGcdServices_partitioned n m, ?_⟩
    · rintro st ⟨env, req⟩ st' ⟨hst, hc⟩ ⟨hw, hcl, hs⟩
      exact ⟨partitioned_step hst (spaceMax_lt hn hm) hw hs,
        attributesCovered_step hst (spaceMax_lt hn hm) hw hcl hc hs⟩
    · intro a d hd
      have hd' : d ∈ (gcdMapEntryTemplate n).span.labels a := by
        simpa [coreInitializeGcdServices] using hd
      obtain ⟨-, rfl⟩ := mem_descAt_single.mp hd'
      exact Covers.zero _
  refine ⟨fun e he => hc.entry (hst true) he, ?_⟩
  intro env base length attributes b st' hcp hw hg hse a d hd
  obtain ⟨status, st₁, hs', han⟩ :=
    @setAttributes_answer_keep env _ _ _ _ _ hst (spaceMax_lt hn hm) hw hcp hg
  rw [hs'] at hse
  obtain ⟨rfl, rfl, rfl⟩ : status = .success ∧ base = b ∧ st₁ = st' := by simpa using hse
  obtain ⟨her, -⟩ | ⟨-, hed, -⟩ := han
  · cases her
  by_cases ha : base ≤ a ∧ a < base + length
  · obtain ⟨d', hd', -, rfl⟩ := hed.inside a ha.1 ha.2 d hd
    refine ⟨_, hd', ?_⟩
    -- the requested attributes have none of the bits, and the kept ones are bits of the mask
    have hma : attributes &&& cpuArchMask = 0 := and_cpuArchMask_eq_zero hcp
    rw [BitVec.and_or_distrib_right, hma, BitVec.and_assoc]
    exact BitVec.zero_or
  · have hout : descAt st₁.memorySpaceMap a = descAt st.memorySpaceMap a :=
      hed.outside a (by omega)
    exact ⟨d, hout.trans (descAt_eq_of_mem (hst true) hd), rfl⟩

/-- A machine whose CPU protocol accepts every attribute. -/
def cpuEnv : GcdEnv := ⟨true, some fun _ _ _ => .success⟩

/-- Two pages of different capabilities become write-back memory. -/
def writeBackPages : List (GcdEnv × GcdRequest) :=
  [(cpuEnv, .addMemorySpace .systemMemory 0x1000 0x1000 (efiMemoryUc ||| efiMemoryWb)),
    (cpuEnv, .addMemorySpace .systemMemory 0x2000 0x1000 efiMemoryWb),
    (cpuEnv, .setMemorySpaceAttributes 0x1000 0x2000 efiMemoryWb)]

/-- The map when both pages are runtime memory too: base addresses, capabilities and attributes. -/
def runtimeEntries : List (ℕ × BitVec 64 × BitVec 64) :=
  [(0, 0, 0),
    (0x1000, efiMemoryUc ||| efiMemoryWb ||| efiMemoryRuntime, efiMemoryRuntime ||| efiMemoryWb),
    (0x2000, efiMemoryWb ||| efiMemoryRuntime, efiMemoryRuntime ||| efiMemoryWb), (0x3000, 0, 0)]

/-- Both pages become runtime memory, and stay write-back memory. -/
theorem covers_attributes_of_run_writeBack :
    ∃ st st', Run CleanStep (coreInitializeGcdServices 36 16) writeBackPages st ∧
      gcdService cpuEnv st (.setMemorySpaceAttributes 0x1000 0x2000 efiMemoryRuntime) =
        some (.success, 0x1000, st') ∧
      (st'.memorySpaceMap.map fun e => (e.baseAddress, e.capabilities, e.attributes)) =
        runtimeEntries ∧
      (∀ e ∈ st.memorySpaceMap, Covers e.capabilities e.attributes) ∧
      ∀ a, ∀ d ∈ descAt st.memorySpaceMap a, ∃ d', descAt st'.memorySpaceMap a = [d'] ∧
        d'.attributes &&& cpuArchMask = d.attributes &&& cpuArchMask := by
  have he : (gcdNext (coreInitializeGcdServices 36 16)
      (cpuEnv, .addMemorySpace .systemMemory 0x1000 0x1000 (efiMemoryUc ||| efiMemoryWb))).bind
        (fun st₁ => (gcdNext st₁
          (cpuEnv, .addMemorySpace .systemMemory 0x2000 0x1000 efiMemoryWb)).bind fun st₂ =>
            (gcdNext st₂ (cpuEnv, .setMemorySpaceAttributes 0x1000 0x2000 efiMemoryWb)).bind
              fun st => (gcdService cpuEnv st
                (.setMemorySpaceAttributes 0x1000 0x2000 efiMemoryRuntime)).map fun r =>
        (r.1, r.2.1, decide (∀ e ∈ st₁.memorySpaceMap, e.attributes = 0),
          decide (∀ e ∈ st.memorySpaceMap, e.Meets 0x1000 0x2000 → e.attributes = efiMemoryWb),
          decide ((r.2.2.memorySpaceMap.map fun e =>
            (e.baseAddress, e.capabilities, e.attributes)) = runtimeEntries))) =
      some (.success, 0x1000, true, true, true) := by
    decide +kernel
  obtain ⟨st₁, h₁, he⟩ := bind_eq_some_iff.mp he
  obtain ⟨st₂, h₂, he⟩ := bind_eq_some_iff.mp he
  obtain ⟨st, h₃, he⟩ := bind_eq_some_iff.mp he
  obtain ⟨⟨_, _, st'⟩, hset, he⟩ := map_eq_some_iff.mp he
  simp only [Prod.mk.injEq, decide_eq_true_eq] at he
  obtain ⟨rfl, rfl, hzero, hwb, hentries⟩ := he
  have hw : ∀ i ∈ writeBackPages, i.2.NoWrap := by
    simp [writeBackPages, GcdRequest.NoWrap]
  have hrun : Run CleanStep (coreInitializeGcdServices 36 16) writeBackPages st := by
    refine .cons ⟨hw _ (by simp [writeBackPages]), forRange_of_meets fun e he _ => ?_, h₁⟩
      (.cons ⟨hw _ (by simp [writeBackPages]), forRange_of_meets fun e he _ => ?_, h₂⟩
        (.cons ⟨hw _ (by simp [writeBackPages]), fun h => absurd h (by decide), h₃⟩ (.nil _)))
    · -- there is one entry, without attributes
      rw [mem_singleton.mp he]
      exact Covers.zero _
    · rw [hzero e he]
      exact Covers.zero _
  have hgrow : BitsGrow st.memorySpaceMap 0x1000 0x2000 :=
    bitsGrow_of_meets fun e he hm e' he' hm' => by
      rw [hwb e he hm, hwb e' he' hm']
      exact Covers.and_left _ _
  have hn : 36 ≤ 63 := by omega
  have hm : 16 ≤ 63 := by omega
  obtain ⟨hcov, hbits⟩ := covers_attributes_of_run hn hm hrun
  exact ⟨st, st', hrun, hset, hentries, hcov,
    hbits cpuEnv 0x1000 0x2000 efiMemoryRuntime 0x1000 st' (by decide) (by omega) hgrow hset⟩

/-- Make a page runtime memory, then remove it. -/
def staleRuntime : List (GcdEnv × GcdRequest) :=
  [(plainEnv, .addMemorySpace .systemMemory 0x1000 0x1000 0),
    (plainEnv, .setMemorySpaceAttributes 0x1000 0x1000 efiMemoryRuntime),
    (plainEnv, .removeMemorySpace 0x1000 0x1000)]

/-- An uncached page below a write-back page. -/
def twoCachePages : List (GcdEnv × GcdRequest) :=
  [(cpuEnv, .addMemorySpace .systemMemory 0x1000 0x2000 (efiMemoryUc ||| efiMemoryWb)),
    (cpuEnv, .setMemorySpaceAttributes 0x1000 0x1000 efiMemoryUc),
    (cpuEnv, .setMemorySpaceAttributes 0x2000 0x1000 efiMemoryWb)]

/-- **Neither property holds of every run.** Removing runtime memory leaves the runtime attribute
without its capability. Setting the runtime attribute over two pages of different cache types gives
the second page the cache bit of the first. -/
theorem not_covers_attributes :
    (∃ st, Run (fun st i st' => i.2.NoWrap ∧ GcdStep st i st') (coreInitializeGcdServices 36 16)
        staleRuntime st ∧ ∃ e ∈ st.memorySpaceMap, ¬ Covers e.capabilities e.attributes) ∧
      ∃ st st', Run (fun st i st' => i.2.NoWrap ∧ GcdStep st i st')
          (coreInitializeGcdServices 36 16) twoCachePages st ∧
        converToCpuArchAttributes efiMemoryRuntime = 0 ∧
        gcdService cpuEnv st (.setMemorySpaceAttributes 0x1000 0x2000 efiMemoryRuntime) =
          some (.success, 0x1000, st') ∧
        ((descAt st.memorySpaceMap 0x2000).map fun d => d.attributes &&& cpuArchMask) =
          [efiMemoryWb] ∧
        ((descAt st'.memorySpaceMap 0x2000).map fun d => d.attributes &&& cpuArchMask) =
          [efiMemoryUc ||| efiMemoryWb] := by
  have hw₁ : ∀ i ∈ staleRuntime, i.2.NoWrap := by
    simp [staleRuntime, GcdRequest.NoWrap]
  have hw₂ : ∀ i ∈ twoCachePages, i.2.NoWrap := by
    simp [twoCachePages, GcdRequest.NoWrap]
  have hs₁ : (staleRuntime.foldlM gcdNext (coreInitializeGcdServices 36 16)).isSome := by
    decide +kernel
  have hs₂ : (twoCachePages.foldlM gcdNext (coreInitializeGcdServices 36 16)).isSome := by
    decide +kernel
  refine ⟨⟨_, (Run.of_foldlM (some_get hs₁).symm).restrict hw₁, ?_⟩, _,
    ((gcdService cpuEnv (get _ hs₂)
      (.setMemorySpaceAttributes 0x1000 0x2000 efiMemoryRuntime)).map (·.2.2)).getD ⟨[], []⟩,
    (Run.of_foldlM (some_get hs₂).symm).restrict hw₂, ?_, ?_, ?_, ?_⟩
  · decide +kernel +revert
  · decide +kernel +revert
  · decide +kernel +revert
  · decide +kernel +revert
  · decide +kernel +revert

end Runs

end Edk2.Gcd
