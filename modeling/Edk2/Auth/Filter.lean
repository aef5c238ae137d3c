import Edk2.Auth.SignatureList

/-!
# Appending signatures

`FilterSignatureList` of `AuthService.c`: the signatures of the new data that the variable has
already are left out before the rest is appended. Like the check of signature lists it walks the
lists by the sizes in their headers.

## Main results

* `filterSignatureList_eq`: the filter leaves the lists without what is present
-/

namespace Edk2.Auth

open List

/-! ## Signatures of a list -/

/-- The data of a variable in its store, and whatever follows it there. -/
def dataMemory (beyond : Memory) (data : List UInt8) : Memory := fun a => data.getD a (beyond a)

section Fields

variable (m : Memory) (sigList : ℕ)

def firstSignature : ℕ := sigList + signatureListHeader + signatureHeaderSize m sigList

/-- The number of signatures of a list; the size of a signature is not zero. -/
def signatureCount : ℕ := signatureBody m sigList / signatureSize m sigList

end Fields

/-- A loop over `n` signatures from `cert` on, left at the first one that `p` accepts. -/
def anySignature (p : ℕ → Bool) (size : ℕ) : ℕ → ℕ → Bool
  | 0, _ => false
  | n + 1, cert => p cert || anySignature p size n (cert + size)

/-! ## The filter -/

/-- One round of the search for a signature in the lists of the variable: `Size` and `CertList` are
the state, and the result says whether the signature is new. -/
def isNewStep (data newData : Memory) (newCertList newCert : ℕ) (w : ℕ × ℕ) : (ℕ × ℕ) ⊕ Bool :=
  if 0 < w.1 ∧ signatureListSize data w.2 ≤ w.1 then
    if signatureType data w.2 = signatureType newData newCertList ∧
        signatureSize data w.2 = signatureSize newData newCertList ∧
        anySignature
          (fun cert => bytesAt newData newCert (signatureSize data w.2) ==
            bytesAt data cert (signatureSize data w.2))
          (signatureSize data w.2) (signatureCount data w.2) (firstSignature data w.2) = true then
      .inr false
    else .inl (w.1 - signatureListSize data w.2, w.2 + signatureListSize data w.2)
  else .inr true

/-- The new ones of `n` signatures from `newCert` on. -/
def newSignatures (fuel : ℕ) (data : Memory) (dataSize : ℕ) (newData : Memory) (newCertList : ℕ) :
    ℕ → ℕ → Option (List (List UInt8))
  | 0, _ => some []
  | n + 1, newCert =>
    match loop (isNewStep data newData newCertList newCert) fuel (dataSize, 0) with
    | none => none
    | some isNewCert =>
      match newSignatures fuel data dataSize newData newCertList n
          (newCert + signatureSize newData newCertList) with
      | none => none
      | some rest =>
        if isNewCert then
          some (bytesAt newData newCert (signatureSize newData newCertList) :: rest)
        else some rest

/-- A list with the signatures kept of it: its header with the new size in front of them. Without a
signature nothing of the list is kept. -/
def keptList (newData : Memory) (newCertList : ℕ) (kept : List (List UInt8)) : List UInt8 :=
  if kept = [] then []
  else
    bytesAt newData newCertList 16 ++
      leBytes 4 (signatureListHeader + signatureHeaderSize newData newCertList +
        kept.length * signatureSize newData newCertList) ++
      bytesAt newData (newCertList + 20) (8 + signatureHeaderSize newData newCertList) ++
      kept.flatten

/-- The variables of the outer loop; `tail` is what is in the scratch buffer. -/
structure FilterWalk where
  newDataSize : ℕ
  newCertList : ℕ
  tail : List UInt8

/-- One round of the outer loop. It ends with the kept lists, or without a result where the
processor divides by zero or an inner loop does not end. -/
def filterStep (fuel : ℕ) (data : Memory) (dataSize : ℕ) (newData : Memory) (w : FilterWalk) :
    FilterWalk ⊕ Option (List UInt8) :=
  if 0 < w.newDataSize ∧ signatureListSize newData w.newCertList ≤ w.newDataSize then
    if signatureSize newData w.newCertList = 0 then .inr none
    else
      match newSignatures fuel data dataSize newData w.newCertList
          (signatureCount newData w.newCertList) (firstSignature newData w.newCertList) with
      | none => .inr none
      | some kept =>
        .inl ⟨w.newDataSize - signatureListSize newData w.newCertList,
          w.newCertList + signatureListSize newData w.newCertList,
          w.tail ++ keptList newData w.newCertList kept⟩
  else .inr (some w.tail)

/-- `FilterSignatureList`: the status, and the new data it leaves. Without a scratch buffer of that
size nothing is filtered. -/
def filterSignatureList (scratchBufferSize fuel : ℕ) (data : Memory) (dataSize : ℕ)
    (newData : Memory) (newDataSize : ℕ) : Option (EfiStatus × List UInt8) :=
  if newDataSize = 0 then some (.success, [])
  else if scratchBufferSize < newDataSize then
    some (.outOfResources, bytesAt newData 0 newDataSize)
  else
    (loop (filterStep fuel data dataSize newData) fuel ⟨newDataSize, 0, []⟩).join.map
      fun tail => (.success, tail)

/-! ## What the filter keeps -/

/-- The list at the position is within the bytes that are left. -/
def WithinSize (m : Memory) (size pos : ℕ) : Prop := 0 < size ∧ signatureListSize m pos ≤ size

/-- The lists that a walk over `size` bytes from `pos` on meets. -/
inductive Lists (m : Memory) : ℕ → ℕ → List ℕ → Prop
  | done {size pos : ℕ} : ¬ WithinSize m size pos → Lists m size pos []
  | next {size pos : ℕ} {rest : List ℕ} : WithinSize m size pos →
      Lists m (size - signatureListSize m pos) (pos + signatureListSize m pos) rest →
      Lists m size pos (pos :: rest)

/-- A walk over `size` bytes from `pos` on meets the list. -/
inductive ListAt (m : Memory) (list : ℕ) : ℕ → ℕ → Prop
  | here {size : ℕ} : WithinSize m size list → ListAt m list size list
  | there {size pos : ℕ} : WithinSize m size pos →
      ListAt m list (size - signatureListSize m pos) (pos + signatureListSize m pos) →
      ListAt m list size pos

def signaturesAt (m : Memory) (list : ℕ) : List ℕ :=
  (List.range (signatureCount m list)).map fun i => firstSignature m list + i * signatureSize m list

def signaturesOf (m : Memory) (list : ℕ) : List (List UInt8) :=
  (signaturesAt m list).map fun cert => bytesAt m cert (signatureSize m list)

/-- The signature of the given type is in one of the lists that a walk over the data meets. -/
def Present (data : Memory) (dataSize : ℕ) (type : EfiGuid) (signature : List UInt8) : Prop :=
  ∃ list, ListAt data list dataSize 0 ∧ signatureType data list = type ∧
    signatureSize data list = signature.length ∧ signature ∈ signaturesOf data list

open Classical in
/-- The lists of the new data, each without the signatures that are present already. -/
noncomputable def withoutPresent (data : Memory) (dataSize : ℕ) (newData : Memory)
    (lists : List ℕ) : List UInt8 :=
  (lists.map fun list => keptList newData list ((signaturesOf newData list).filter fun signature =>
    ¬ Present data dataSize (signatureType newData list) signature)).flatten

theorem anySignature_iff {p : ℕ → Bool} {size n cert : ℕ} :
    anySignature p size n cert = true ↔ ∃ i < n, p (cert + i * size) = true := by
  induction n generalizing cert with
  | zero => simp [anySignature]
  | succ n ih =>
    rw [anySignature, Bool.or_eq_true, ih]
    constructor
    · rintro (h | ⟨i, hi, h⟩)
      · exact ⟨0, Nat.succ_pos n, by simpa using h⟩
      · exact ⟨i + 1, Nat.succ_lt_succ hi, by rwa [Nat.succ_mul, Nat.add_comm _ size, ← Nat.add_assoc]⟩
    · rintro ⟨i, hi, h⟩
      cases i with
      | zero => exact .inl (by simpa using h)
      | succ i =>
        exact .inr ⟨i, Nat.lt_of_succ_lt_succ hi,
          by rwa [Nat.succ_mul, Nat.add_comm _ size, ← Nat.add_assoc] at h⟩

theorem anySignature_list {m : Memory} {list : ℕ} {p : ℕ → Bool} :
    anySignature p (signatureSize m list) (signatureCount m list) (firstSignature m list) = true ↔
      ∃ cert ∈ signaturesAt m list, p cert = true := by
  rw [anySignature_iff]
  simp [signaturesAt]

section Filter

variable {data newData : Memory} {dataSize size pos list newCert fuel : ℕ}

/-- The signature at `newCert` is one of the list. -/
def InList (data newData : Memory) (newCertList newCert list : ℕ) : Prop :=
  signatureType data list = signatureType newData newCertList ∧
    signatureSize data list = signatureSize newData newCertList ∧
    bytesAt newData newCert (signatureSize newData newCertList) ∈ signaturesOf data list

theorem inList_iff {newCertList : ℕ} :
    InList data newData newCertList newCert list ↔
      signatureType data list = signatureType newData newCertList ∧
        signatureSize data list = signatureSize newData newCertList ∧
        anySignature
          (fun cert => bytesAt newData newCert (signatureSize data list) ==
            bytesAt data cert (signatureSize data list))
          (signatureSize data list) (signatureCount data list) (firstSignature data list) = true := by
  refine and_congr_right fun _ => and_congr_right fun hs => ?_
  rw [anySignature_list, signaturesOf, mem_map, hs]
  refine exists_congr fun cert => and_congr_right fun _ => ?_
  rw [beq_iff_eq, eq_comm]

theorem isNew_spec {newCertList : ℕ} {isNew : Bool}
    (h : loop (isNewStep data newData newCertList newCert) fuel (size, pos) = some isNew) :
    isNew = false ↔ ∃ list, ListAt data list size pos ∧
      InList data newData newCertList newCert list := by
  induction fuel generalizing size pos with
  | zero => cases h
  | succ fuel ih =>
    by_cases hwi : WithinSize data size pos
    swap
    · have hs : isNewStep data newData newCertList newCert (size, pos) = .inr true := if_neg hwi
      obtain rfl := Option.some.inj (h.symm.trans (loop_inr hs))
      refine iff_of_false (by simp) ?_
      rintro ⟨list, hat, -⟩
      cases hat with
      | here hw | there hw => exact hwi hw
    by_cases hin : InList data newData newCertList newCert pos
    · have hs : isNewStep data newData newCertList newCert (size, pos) = .inr false :=
        (if_pos hwi).trans (if_pos (inList_iff.mp hin))
      obtain rfl := Option.some.inj (h.symm.trans (loop_inr hs))
      exact iff_of_true rfl ⟨pos, .here hwi, hin⟩
    · have hs : isNewStep data newData newCertList newCert (size, pos) =
          .inl (size - signatureListSize data pos, pos + signatureListSize data pos) :=
        (if_pos hwi).trans (if_neg fun hn => hin (inList_iff.mpr hn))
      rw [loop_inl hs] at h
      rw [ih h]
      constructor
      · rintro ⟨list, hat, hl⟩
        exact ⟨list, .there hwi hat, hl⟩
      · rintro ⟨list, hat, hl⟩
        cases hat with
        | here _ => exact absurd hl hin
        | there _ hat => exact ⟨list, hat, hl⟩

open Classical in
theorem newSignatures_spec {newCertList n : ℕ} {kept : List (List UInt8)}
    (h : newSignatures fuel data dataSize newData newCertList n newCert = some kept) :
    kept = ((List.range n).map fun i => bytesAt newData
      (newCert + i * signatureSize newData newCertList) (signatureSize newData newCertList)).filter
        fun signature => ¬ Present data dataSize (signatureType newData newCertList) signature := by
  induction n generalizing newCert kept with
  | zero =>
    obtain rfl := Option.some.inj h
    rfl
  | succ n ih =>
    rw [newSignatures] at h
    split at h
    · cases h
    rename_i isNew hin
    split at h
    · cases h
    rename_i rest hr
    have hpr : isNew = false ↔ Present data dataSize (signatureType newData newCertList)
        (bytesAt newData newCert (signatureSize newData newCertList)) := by
      rw [isNew_spec hin]
      simp only [Present, InList, length_bytesAt]
    have htail : ((List.range n).map ((fun i => bytesAt newData
        (newCert + i * signatureSize newData newCertList) (signatureSize newData newCertList)) ∘
          Nat.succ)) = (List.range n).map fun i => bytesAt newData
            (newCert + signatureSize newData newCertList + i * signatureSize newData newCertList)
            (signatureSize newData newCertList) := by
      refine map_congr_left fun i _ => ?_
      rw [Function.comp_apply, Nat.succ_mul, Nat.add_assoc, Nat.add_comm (signatureSize _ _)]
    rw [range_succ_eq_map, map_cons, map_map, htail, filter_cons, ← ih hr,
      Nat.zero_mul, Nat.add_zero]
    cases isNew with
    | true =>
      rw [if_pos (by simpa using fun hp => by simpa using hpr.mpr hp)]
      exact (Option.some.inj h).symm
    | false =>
      rw [if_neg (by simpa using hpr.mp rfl)]
      exact (Option.some.inj h).symm

theorem filterLoop_spec {tail kept : List UInt8} {rounds : ℕ}
    (h : loop (filterStep fuel data dataSize newData) rounds ⟨size, pos, tail⟩ = some (some kept)) :
    ∃ lists, Lists newData size pos lists ∧
      kept = tail ++ withoutPresent data dataSize newData lists := by
  induction rounds generalizing size pos tail with
  | zero => cases h
  | succ rounds ih =>
    by_cases hw : WithinSize newData size pos
    swap
    · have hs : filterStep fuel data dataSize newData ⟨size, pos, tail⟩ = .inr (some tail) :=
        if_neg hw
      rw [loop_inr hs] at h
      obtain rfl := Option.some.inj (Option.some.inj h)
      exact ⟨[], .done hw, by simp [withoutPresent]⟩
    have hu : filterStep fuel data dataSize newData ⟨size, pos, tail⟩ =
        if signatureSize newData pos = 0 then .inr none
        else
          match newSignatures fuel data dataSize newData pos (signatureCount newData pos)
              (firstSignature newData pos) with
          | none => .inr none
          | some kept => .inl ⟨size - signatureListSize newData pos,
              pos + signatureListSize newData pos, tail ++ keptList newData pos kept⟩ := by
      unfold filterStep
      dsimp only
      rw [if_pos (show 0 < size ∧ signatureListSize newData pos ≤ size from hw)]
    split_ifs at hu with hz
    · rw [loop_inr hu] at h
      cases Option.some.inj h
    split at hu
    · rw [loop_inr hu] at h
      cases Option.some.inj h
    · rename_i keptSignatures hkept
      rw [loop_inl hu] at h
      obtain ⟨lists, hl, rfl⟩ := ih h
      refine ⟨pos :: lists, .next hw hl, ?_⟩
      rw [withoutPresent, withoutPresent, map_cons, flatten_cons,
        newSignatures_spec hkept, signaturesOf, signaturesAt, map_map, append_assoc,
        Function.comp_def]

/-- **What the filter leaves**: the lists of the new data without the signatures that the data has.
-/
theorem filterSignatureList_eq {scratchBufferSize newDataSize : ℕ} {status : EfiStatus}
    {kept : List UInt8} (hs : newDataSize ≤ scratchBufferSize)
    (h : filterSignatureList scratchBufferSize fuel data dataSize newData newDataSize =
      some (status, kept)) :
    ∃ lists, Lists newData newDataSize 0 lists ∧
      kept = withoutPresent data dataSize newData lists := by
  rw [filterSignatureList] at h
  split_ifs at h with hz hl
  · simp only [Option.some.injEq, Prod.mk.injEq] at h
    exact ⟨[], .done (by simp [WithinSize, hz]), by simp [withoutPresent, h.2.symm]⟩
  · exact absurd hs (Nat.not_le.mpr hl)
  · obtain ⟨tail, htail, heq⟩ := Option.map_eq_some_iff.mp h
    obtain rfl := (Prod.mk.inj heq).2
    simpa using filterLoop_spec (Option.join_eq_some_iff.mp htail)

end Filter

end Edk2.Auth
