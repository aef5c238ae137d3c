import Edk2.Gcd.Convert
import Edk2.Gcd.Edit

/-!
# What the GCD workers do to a partition

One spec lemma for each of the two workers. On a partition, and for a range that does not wrap,
`CoreConvertSpace` and `CoreAllocateSpace` always answer: no assertion fails and the search loop
ends. An error leaves the map as it was, and success edits the map in the range only.

The search of `CoreAllocateSpace` may jump: after a failed candidate it goes on at the entry that
stopped the check. It ends because that entry lies strictly further on in the direction of the
search (`candidate_spec`); both facts need the candidate range not to wrap.

## Main results

* `coreConvertSpace_spec`, `coreAllocateSpace_spec`: each worker answers, and edits its range only
-/

namespace Edk2.Gcd

open List Option

/-- The answer of a worker: an error and the same map, or success and an edited map. -/
def Answer (max base length : ℕ) (sets : GcdDescriptor → GcdDescriptor → Prop)
    (map : List GcdMapEntry) (status : EfiStatus) (map' : List GcdMapEntry) : Prop :=
  (status.isError = true ∧ map' = map) ∨
    (status = .success ∧ Edited max base length sets map map')

theorem checkEntries_isError {check : GcdDescriptor → EfiStatus} {l : List GcdMapEntry} :
    (checkEntries check l).isError = false ↔
      ∀ e ∈ l, (check e.toGcdDescriptor).isError = false := by
  induction l with
  | nil => simp [checkEntries]
  | cons e l ih =>
    rw [checkEntries]
    split_ifs with he
    · simp [he]
    · rw [ih]
      simp [he]

theorem lastAddress_eq_of_covers {links : LinkRange} {base length : ℕ} {map : List GcdMapEntry}
    (hl : 0 < length) (hw : base + length ≤ 2 ^ 64)
    (h : coreSearchGcdMapEntry base length map = some links) :
    links.Covers base (base + length - 1) map := by
  have hc := coreSearchGcdMapEntry_covers h
  rwa [lastAddress_of_le hl hw] at hc

/-! ## The conversion -/

section Convert

variable {env : GcdEnv} {op : ConvertOperation} {args : ConvertArgs} {map : List GcdMapEntry}
  {max : ℕ} {R : BitVec 64 → List GcdDescriptor → Prop}

/-- `CoreConvertSpace` on a partition. `R` is any property of the shared `Attributes` and the
descriptors still to be updated that holds for a checked range and that the loop keeps. -/
theorem coreConvertSpace_spec (hpa : Partition max map) (hmax : max < 2 ^ 64)
    (hw : args.baseAddress + args.length ≤ 2 ^ 64)
    (hR : ∀ shared d ds, R shared (d :: ds) → R (updateEntry op args shared d).1 ds)
    (hin : 0 < args.length → ∀ links : LinkRange,
      links.Covers args.baseAddress (args.baseAddress + args.length - 1) map →
      (∀ e ∈ links.range, (checkEntry op args e.toGcdDescriptor).isError = false) →
      R args.attributes (links.range.map (·.toGcdDescriptor))) :
    ∃ status map', coreConvertSpace env op args map = some (status, map') ∧
      Answer max args.baseAddress args.length
        (fun d d' => ∃ shared ds, R shared (d :: ds) ∧ d' = (updateEntry op args shared d).2)
        map status map' := by
  unfold coreConvertSpace
  by_cases hl : args.length = 0
  · exact ⟨_, _, if_pos hl, Or.inl ⟨rfl, rfl⟩⟩
  rw [if_neg hl]
  cases hs : coreSearchGcdMapEntry args.baseAddress args.length map with
  | none => exact ⟨_, _, rfl, Or.inl ⟨rfl, rfl⟩⟩
  | some links =>
    dsimp only
    have hco := lastAddress_eq_of_covers (by omega) hw hs
    by_cases hch : (checkEntries (checkEntry op args) links.range).isError
    · exact ⟨_, _, if_pos hch, Or.inl ⟨hch, rfl⟩⟩
    rw [if_neg hch]
    cases hp : env.poolAvailable with
    | false => exact ⟨_, _, rfl, Or.inl ⟨rfl, rfl⟩⟩
    | true =>
      by_cases hcp : (setCpuAttributes env op args).isError
      · exact ⟨_, _, if_pos hcp, Or.inl ⟨hcp, rfl⟩⟩
      rw [if_neg hcp]
      have hche := checkEntries_isError.mp (Bool.not_eq_true _ ▸ hch)
      obtain ⟨c, hc, he⟩ := convertEntries_edited (by omega) hw hmax hpa hco hR
        (hin (by omega) links hco hche)
      rw [hc]
      exact ⟨_, _, rfl, Or.inr ⟨rfl, he⟩⟩

end Convert

/-! ## The search -/

section Search

variable {args : AllocateArgs} {map : List GcdMapEntry} {max base maxAddress : ℕ}
  {entry : GcdMapEntry} {links : LinkRange}

theorem alignDown_le (value alignment : ℕ) : alignDown value alignment ≤ value :=
  Nat.div_mul_le_self _ _

theorem le_alignDown_add (value alignment : ℕ) :
    value ≤ alignDown (value + (2 ^ alignment - 1)) alignment := by
  have hd := Nat.div_add_mod (value + (2 ^ alignment - 1)) (2 ^ alignment)
  unfold alignDown
  rw [Nat.mul_comm]
  omega

variable {value last i current : ℕ}

theorem candidate_bottomUp (hup : args.gcdAllocateType.isTopDown = false)
    (hal : args.alignment < 64) (he : entry.baseAddress < 2 ^ 63)
    (h : candidate args maxAddress value entry = .tryAddress base) :
    entry.baseAddress ≤ base := by
  have hp : 2 ^ args.alignment ≤ 2 ^ 63 := Nat.pow_le_pow_right Nat.two_pos (by omega)
  have ha : add64 entry.baseAddress (2 ^ args.alignment - 1) =
      entry.baseAddress + (2 ^ args.alignment - 1) := add64_of_lt (by omega)
  simp only [candidate, hup, Bool.false_eq_true, if_false, ha] at h
  split_ifs at h with hmax
  obtain rfl := Candidate.tryAddress.inj h
  exact le_alignDown_add _ _

theorem candidate_topDown (hd : args.gcdAllocateType.isTopDown = true)
    (hen : entry.baseAddress ≤ entry.endAddress ∧ entry.endAddress < 2 ^ 63)
    (h : candidate args maxAddress value entry = .tryAddress base) :
    base + args.length ≤ entry.endAddress + 1 := by
  have he : add64 entry.endAddress 1 = entry.endAddress + 1 := add64_of_lt (by omega)
  simp only [candidate, hd, if_true, he] at h
  split_ifs at h with hs hg hh
  · -- `MaxAddress` lies in the entry, behind `Entry->BaseAddress + Length`
    rw [add64_of_lt (by omega)] at hs
    rw [add64_of_lt (by omega), sub64_of_le (by omega) (by omega)] at h
    obtain rfl := Candidate.tryAddress.inj h
    have := alignDown_le (maxAddress + 1 - args.length) args.alignment
    omega
  · rw [he, sub64_of_le (by omega) (by omega)] at h
    obtain rfl := Candidate.tryAddress.inj h
    have := alignDown_le (entry.endAddress + 1 - args.length) args.alignment
    omega

/-- The range of an allocation does not wrap: at a given address because the caller says so,
in an upward search because the length is at most `2 ^ 63`. A downward search never wraps. -/
def AllocateArgs.NoWrap (args : AllocateArgs) : Prop :=
  (args.gcdAllocateType = .address → args.baseAddress + args.length ≤ 2 ^ 64) ∧
    (args.gcdAllocateType ≠ .address → args.gcdAllocateType.isTopDown = false →
      args.length ≤ 2 ^ 63)

/-- A search that fails has an error status; one that succeeds found usable entries around a range
that does not wrap. -/
def SearchResult.Sound (args : AllocateArgs) (map : List GcdMapEntry) : SearchResult → Prop
  | .error (status, _) => status.isError = true
  | .ok (base, links) =>
    base + args.length ≤ 2 ^ 64 ∧ links.Covers base (base + args.length - 1) map ∧
      ∀ e ∈ links.range, (coreAllocateSpaceCheckEntry args e.toGcdDescriptor).isError = false

/-- The entries a candidate range lies in, and that the search goes on in its direction if one of
them cannot be used. -/
theorem candidate_spec (hp : Partition max map) (hmax : max < 2 ^ 63)
    (hl : 0 < args.length) (ha : args.alignment < 64)
    (hb : args.gcdAllocateType.isTopDown = false → args.length ≤ 2 ^ 63)
    (hcu : map[current]? = some entry)
    (hu : (coreAllocateSpaceCheckEntry args entry.toGcdDescriptor).isError = false)
    (hca : candidate args maxAddress value entry = .tryAddress base)
    (hs : coreSearchGcdMapEntry base args.length map = some links) :
    base + args.length ≤ 2 ^ 64 ∧ links.Covers base (base + args.length - 1) map ∧
      ∀ i, firstUnusable args links.range = some i →
        if args.gcdAllocateType.isTopDown then links.before.length + i < current
        else current < links.before.length + i := by
  obtain ⟨-, hle, he⟩ := hp.bounds entry (mem_of_getElem? hcu)
  have hw : base + args.length ≤ 2 ^ 64 := by
    cases hd : args.gcdAllocateType.isTopDown with
    | true =>
      have := candidate_topDown hd ⟨by omega, by omega⟩ hca
      omega
    | false =>
      have hc := coreSearchGcdMapEntry_covers hs
      obtain ⟨f, rest, hr, -, hf⟩ := hc.first
      have := (hp.bounds f (hc.mem (hr ▸ mem_cons_self))).2.2
      have := hb hd
      omega
  have hc := lastAddress_eq_of_covers hl hw hs
  refine ⟨hw, hc, fun i hi => ?_⟩
  -- the entry that `firstUnusable` names, as an entry of the map
  obtain ⟨hlt, her, -⟩ := List.findIdx?_eq_some_iff_getElem.mp hi
  have hst : map[links.before.length + i]? = some links.range[i] := by
    rw [hc.split, List.getElem?_append_right (Nat.le_add_right _ _), Nat.add_sub_cancel_left,
      List.getElem?_append_left hlt, List.getElem?_eq_getElem hlt]
  have hm := hc.meets hp (List.getElem_mem hlt)
  have hne : current ≠ links.before.length + i := by
    rintro rfl
    obtain rfl := some.inj (hcu.symm.trans hst)
    simp [hu] at her
  cases hd : args.gcdAllocateType.isTopDown with
  | true =>
    have := candidate_topDown hd ⟨by omega, by omega⟩ hca
    exact Nat.lt_of_le_of_ne (hp.index_le hst hcu (by omega)) hne.symm
  | false =>
    have := candidate_bottomUp hd ha (by omega) hca
    exact Nat.lt_of_le_of_ne (hp.index_le hcu hst (by omega)) hne

/-- The search ends: each turn moves the index on, by one entry or by a jump. -/
theorem searchSpace_spec (hp : Partition max map) (hmax : max < 2 ^ 63)
    (hl : 0 < args.length) (ha : args.alignment < 64)
    (hb : args.gcdAllocateType.isTopDown = false → args.length ≤ 2 ^ 63) :
    ∀ fuel value link,
      (if args.gcdAllocateType.isTopDown then link else map.length - link) < fuel →
      ∃ r, searchSpace args maxAddress map fuel value link = some r ∧ r.Sound args map := by
  intro fuel
  induction fuel with
  | zero => intro value link h; exact absurd h (Nat.not_lt_zero _)
  | succ fuel ih =>
    intro value link hfu
    rw [searchSpace]
    by_cases hstop : args.gcdAllocateType.isTopDown = true ∧ link = 0
    · exact ⟨_, if_pos hstop, rfl⟩
    rw [if_neg hstop]
    -- the index after this entry, in the direction of the search, needs less fuel
    obtain ⟨current, hcu⟩ : ∃ current,
        current = if args.gcdAllocateType.isTopDown then link - 1 else link := ⟨_, rfl⟩
    rw [← hcu]
    cases hcur : map[current]? with
    | none => exact ⟨_, rfl, rfl⟩
    | some entry =>
      dsimp only
      have hlt : current < map.length := (List.getElem?_eq_some_iff.mp hcur).1
      have hon : ∀ next, (if args.gcdAllocateType.isTopDown then next ≤ current
          else current < next) →
          (if args.gcdAllocateType.isTopDown then next else map.length - next) < fuel := by
        intro next h
        cases hd : args.gcdAllocateType.isTopDown with
        | true =>
          simp only [hd, if_true, true_and] at hcu hfu h hstop ⊢
          omega
        | false =>
          simp only [hd, Bool.false_eq_true, if_false] at hcu hfu h ⊢
          omega
      have hnext := hon (if args.gcdAllocateType.isTopDown then current else current + 1)
        (by split_ifs <;> omega)
      by_cases hu : (coreAllocateSpaceCheckEntry args entry.toGcdDescriptor).isError
      · rw [if_pos hu]
        exact ih _ _ hnext
      rw [if_neg hu]
      cases hca : candidate args maxAddress value entry with
      | skip => exact ih _ _ hnext
      | giveUp base => exact ⟨_, rfl, rfl⟩
      | tryAddress base =>
        dsimp only
        cases hs : coreSearchGcdMapEntry base args.length map with
        | none => exact ⟨_, rfl, rfl⟩
        | some links =>
          dsimp only
          obtain ⟨hw, hc, hgo⟩ := candidate_spec hp hmax hl ha hb hcur
            (Bool.not_eq_true _ ▸ hu) hca hs
          cases hf : firstUnusable args links.range with
          | none =>
            refine ⟨_, rfl, hw, hc, fun e he => ?_⟩
            simpa using List.findIdx?_eq_none_iff.mp hf e he
          | some i =>
            have hj := hgo i hf
            refine ih _ _ (hon _ ?_)
            split_ifs at hj ⊢ <;> omega

theorem findSpace_spec (hp : Partition max map) (hmax : max < 2 ^ 63) (hl : 0 < args.length)
    (hal : args.alignment < 64) (hw : args.NoWrap) :
    ∃ r, findSpace args map = some r ∧ r.Sound args map := by
  unfold findSpace
  by_cases ha : args.gcdAllocateType = .address
  · rw [if_pos ha]
    by_cases hm : args.baseAddress % 2 ^ args.alignment ≠ 0
    · exact ⟨_, if_pos hm, rfl⟩
    rw [if_neg hm]
    cases hs : coreSearchGcdMapEntry args.baseAddress args.length map with
    | none => exact ⟨_, rfl, rfl⟩
    | some links =>
      by_cases hc : (checkEntries (coreAllocateSpaceCheckEntry args) links.range).isError
      · exact ⟨_, if_pos hc, hc⟩
      · exact ⟨_, if_neg hc, hw.1 ha,
          lastAddress_eq_of_covers hl (hw.1 ha) hs,
          checkEntries_isError.mp (Bool.not_eq_true _ ▸ hc)⟩
  · rw [if_neg ha]
    cases hlast : map.getLast? with
    | none =>
      obtain rfl := List.getLast?_eq_none_iff.mp hlast
      cases (hp : 0 = max + 1)
    | some lastEntry =>
      exact searchSpace_spec hp hmax hl hal (hw.2 ha) _ _ _ (by split_ifs <;> omega)

end Search

/-! ## The allocation -/

/-- `CoreAllocateSpace` on a partition; `base` is the address it returns. -/
theorem coreAllocateSpace_spec {env : GcdEnv} {args : AllocateArgs} {map : List GcdMapEntry}
    {max : ℕ} (hpa : Partition max map) (hmax : max < 2 ^ 63) (hw : args.NoWrap) :
    ∃ status base map', coreAllocateSpace env args map = some (status, base, map') ∧
      Answer max base args.length (fun d d' =>
        (coreAllocateSpaceCheckEntry args d).isError = false ∧ d' = (allocateEntry args () d).2)
        map status map' := by
  unfold coreAllocateSpace
  by_cases hp : args.gcdAllocateType = .maxAllocateType ∨ args.gcdMemoryType = .maximum ∨
      args.gcdIoType = .maximum ∨ args.imageHandle = 0
  · exact ⟨_, _, _, if_pos hp, Or.inl ⟨rfl, rfl⟩⟩
  rw [if_neg hp]
  by_cases ha : 64 ≤ args.alignment
  · exact ⟨_, _, _, if_pos ha, Or.inl ⟨rfl, rfl⟩⟩
  rw [if_neg ha]
  by_cases hl : args.length = 0
  · exact ⟨_, _, _, if_pos hl, Or.inl ⟨rfl, rfl⟩⟩
  rw [if_neg hl]
  obtain ⟨r, hr, hs⟩ := findSpace_spec hpa hmax (Nat.pos_of_ne_zero hl)
    (Nat.not_le.mp ha) hw
  rw [hr]
  match r, hs with
  | .error (status, base), hs => exact ⟨_, _, _, rfl, Or.inl ⟨hs, rfl⟩⟩
  | .ok (base, links), ⟨hb, hco, hu⟩ =>
    dsimp only
    cases hpo : env.poolAvailable with
    | false => exact ⟨_, _, _, rfl, Or.inl ⟨rfl, rfl⟩⟩
    | true =>
      -- the loop has no shared variable, and keeps that the descriptors to come are usable
      obtain ⟨c, hc, he⟩ := @convertEntries_edited Unit (allocateEntry args)
        (fun _ ds => ∀ d ∈ ds, (coreAllocateSpaceCheckEntry args d).isError = false)
        base args.length max map links () (Nat.pos_of_ne_zero hl) hb (by omega) hpa hco
        (fun _ _ _ h d hd => h d (mem_cons_of_mem _ hd))
        (by simpa using hu)
      rw [hc]
      refine ⟨_, _, _, rfl, Or.inr ⟨rfl, he.mono ?_⟩⟩
      rintro d d' ⟨_, ds, hds, rfl⟩
      exact ⟨hds d mem_cons_self, rfl⟩

end Edk2.Gcd
