import Edk2.Base
import Edk2.Lib.Bytes
import Edk2.Lib.Loop

/-!
# The last write of a work space

`FtwGetLastWriteHeader` of `FtwMisc.c` walks the write headers of a work space, each of which is
followed by its records, to the first one that is not complete; `FtwGetLastWriteRecord` walks the
records of that header. The work space comes from flash, and the numbers in its headers are not
checked.

Addresses are offsets from the work space modulo `2 ^ 64`.

## Main results

* `terminates_ftwGetLastWriteHeader`: the walk over the headers ends
* `reaches_recordStep_iff`: the records that are looked at
* `contained_iff`: when both walks end and stay in the work space
* `not_contained_wrapped`: a header whose size passes `2 ^ 64`, at which the walk stays
-/

namespace Edk2.Ftw

/-- The third bit of the first byte is `FTW_VALID_STATE`: `Complete` of a header,
`DestinationComplete` of a record. -/
def complete (m : Memory) (offset : ℕ) : Bool := (m offset).toNat / 4 % 2 = 0

/-- The fields of the `EFI_FAULT_TOLERANT_WRITE_HEADER` at an offset. -/
def numberOfWrites (m : Memory) (header : ℕ) : ℕ := le m (header + 24) 8
def privateDataSize (m : Memory) (header : ℕ) : ℕ := le m (header + 32) 8

/-- `FTW_RECORD_SIZE`. -/
def ftwRecordSize (m : Memory) (header : ℕ) : ℕ := add64 40 (privateDataSize m header)

/-- `FTW_WRITE_TOTAL_SIZE`. -/
def ftwWriteTotalSize (m : Memory) (header : ℕ) : ℕ :=
  add64 40 (numberOfWrites m header * ftwRecordSize m header)

/-- `Offset` behind a header and its records. -/
def nextHeader (m : Memory) (header : ℕ) : ℕ := add64 header (ftwWriteTotalSize m header)

/-- A round of the loop of `FtwGetLastWriteHeader`, at a header. -/
def headerStep (m : Memory) (size header : ℕ) : ℕ ⊕ (EfiStatus × ℕ) :=
  if complete m header then
    if nextHeader m header ≥ size then .inr (.aborted, header) else .inl (nextHeader m header)
  else .inr (.success, header)

/-- `FtwGetLastWriteHeader`. The first header is behind the 32 bytes of the working block header. -/
def ftwGetLastWriteHeader (m : Memory) (size fuel : ℕ) : Option (EfiStatus × ℕ) :=
  loop (headerStep m size) fuel 32

/-- `FtwRecord` behind a record and its private data. -/
def nextRecord (m : Memory) (header record : ℕ) : ℕ :=
  let record := add64 record 40
  if privateDataSize m header ≠ 0 then add64 record (privateDataSize m header) else record

/-- A round of the loop of `FtwGetLastWriteRecord`, and what follows it, at `Index` and a record. -/
def recordStep (m : Memory) (header : ℕ) (s : ℕ × ℕ) : (ℕ × ℕ) ⊕ (EfiStatus × Option ℕ) :=
  if s.1 < numberOfWrites m header then
    if ¬ complete m s.2 then .inr (.success, some s.2)
    else .inl (s.1 + 1, nextRecord m header s.2)
  else if s.1 = numberOfWrites m header then
    .inr (.success, some (sub64 s.2 (ftwRecordSize m header)))
  else .inr (.aborted, none)

def ftwGetLastWriteRecord (m : Memory) (header fuel : ℕ) : Option (EfiStatus × Option ℕ) :=
  loop (recordStep m header) fuel (0, add64 header 40)

/-- **Both functions end and stay in the work space**: the headers and records that they look at or
return, of 40 bytes each, lie in it. -/
structure Contained (m : Memory) (size : ℕ) : Prop where
  header_ends : Terminates (ftwGetLastWriteHeader m size)
  headers : ∀ h, Reaches (headerStep m size) 32 h → h + 40 ≤ size
  lastHeader : ∀ r, Yields (ftwGetLastWriteHeader m size) r → r.2 + 40 ≤ size
  record_ends : ∀ h, Yields (ftwGetLastWriteHeader m size) (.success, h) →
    Terminates (ftwGetLastWriteRecord m h)
  records : ∀ h, Yields (ftwGetLastWriteHeader m size) (.success, h) →
    ∀ s, Reaches (recordStep m h) (0, add64 h 40) s → s.1 < numberOfWrites m h → s.2 + 40 ≤ size
  lastRecord : ∀ h, Yields (ftwGetLastWriteHeader m size) (.success, h) →
    ∀ status record, Yields (ftwGetLastWriteRecord m h) (status, some record) → record + 40 ≤ size

/-! ## The contents of a work space -/

section Contents

variable (m : Memory) (size h : ℕ)

/-- The bytes that a header and its records take, as a number without a bound. -/
def extent : ℕ := 40 + numberOfWrites m h * (40 + privateDataSize m h)

/-- Where the headers stand: behind the header of the working block, and behind the records of each
complete header. -/
inductive IsHeader : ℕ → Prop
  | first : IsHeader 32
  | next {h : ℕ} : IsHeader h → complete m h → h + extent m h < size → IsHeader (h + extent m h)

/-- The records of a header with their numbers, up to the first one that is not complete. -/
inductive IsRecord : ℕ → ℕ → Prop
  | first : IsRecord 0 (h + 40)
  | next {i a : ℕ} : IsRecord i a → i < numberOfWrites m h → complete m a →
      IsRecord (i + 1) (a + 40 + privateDataSize m h)

/-- **No address passes `2 ^ 64`**: the end of a complete header's records, and the records of the
header that is not complete. Without records, its private data are not more than what is in front of
it. -/
structure NoWrap : Prop where
  headers : ∀ h, IsHeader m size h → complete m h → h + extent m h < 2 ^ 64
  records : ∀ h, IsHeader m size h → ¬ complete m h → ∀ i a, IsRecord m h i a →
    i < numberOfWrites m h → a < 2 ^ 64
  none : ∀ h, IsHeader m size h → ¬ complete m h → numberOfWrites m h = 0 →
    privateDataSize m h ≤ h

/-- **Headers and records have room**: for the first header, behind each complete header up to the
end of the work space if that is not reached, and for the records of the header that is not
complete. -/
structure Fits : Prop where
  first : 72 ≤ size
  headers : ∀ h, IsHeader m size h → complete m h →
    size ≤ h + extent m h ∨ h + extent m h + 40 ≤ size
  records : ∀ h, IsHeader m size h → ¬ complete m h → ∀ i a, IsRecord m h i a →
    i < numberOfWrites m h → a + 40 ≤ size

end Contents

variable {m : Memory} {size h : ℕ}

theorem Fits.room (hf : Fits m size) (hh : IsHeader m size h) : h + 40 ≤ size := by
  cases hh with
  | first => exact hf.first
  | next hh hc hlt => exact (hf.headers _ hh hc).resolve_left (Nat.not_le.mpr hlt)

/-! ## The walk over the headers -/

theorem nextHeader_eq (m : Memory) (h : ℕ) : nextHeader m h = (h + extent m h) % 2 ^ 64 := by
  unfold nextHeader ftwWriteTotalSize ftwRecordSize extent add64
  rw [Nat.add_mod_mod, Nat.add_mod h (40 + _), Nat.add_mod h (40 + _), Nat.add_mod 40,
    Nat.add_mod 40 (_ * _), Nat.mul_mod_mod]

theorem headerStep_inl_iff {h' : ℕ} : headerStep m size h = .inl h' ↔
    complete m h ∧ nextHeader m h < size ∧ nextHeader m h = h' := by
  unfold headerStep
  split_ifs <;> simp_all

/-- The walk passes the headers of the work space. -/
theorem reaches_headerStep_iff (hw : NoWrap m size) :
    Reaches (headerStep m size) 32 h ↔ IsHeader m size h := by
  constructor
  · intro hr
    refine hr.invariant (fun h h' hi hs => ?_) .first
    obtain ⟨hc, hlt, rfl⟩ := headerStep_inl_iff.mp hs
    rw [nextHeader_eq, Nat.mod_eq_of_lt (hw.headers h hi hc)] at hlt ⊢
    exact .next hi hc hlt
  · intro hi
    induction hi with
    | first => exact .refl
    | next hi hc hlt ih =>
      have hn : nextHeader m _ = _ :=
        (nextHeader_eq m _).trans (Nat.mod_eq_of_lt (hw.headers _ hi hc))
      exact ih.tail (headerStep_inl_iff.mpr ⟨hc, hn ▸ hlt, hn⟩)

/-- **The walk over the headers ends**: behind a header it goes on by 40 bytes at least. -/
theorem terminates_ftwGetLastWriteHeader (hw : NoWrap m size) :
    Terminates (ftwGetLastWriteHeader m size) := by
  refine exists_returns (fun h => size - h) fun h h' hr hs => ?_
  have hi := (reaches_headerStep_iff hw).mp hr
  obtain ⟨hc, hlt, rfl⟩ := headerStep_inl_iff.mp hs
  rw [nextHeader_eq, Nat.mod_eq_of_lt (hw.headers h hi hc)] at hlt ⊢
  have hpos : 40 ≤ extent m h := Nat.le_add_right _ _
  omega

theorem eq_of_headerStep_inr {r : EfiStatus × ℕ} (hs : headerStep m size h = .inr r) :
    r.2 = h ∧ (r.1 = .success → ¬ complete m h) := by
  unfold headerStep at hs
  split_ifs at hs with hv hout
  · cases hs
    exact ⟨rfl, fun h => by cases h⟩
  · cases hs
    exact ⟨rfl, fun _ => hv⟩

/-! ## The walk over the records -/

theorem nextRecord_eq (m : Memory) (h a : ℕ) :
    nextRecord m h (a % 2 ^ 64) = (a + 40 + privateDataSize m h) % 2 ^ 64 := by
  unfold nextRecord add64
  dsimp only
  split_ifs with hp
  · omega
  · omega

theorem recordStep_inl_iff {s s' : ℕ × ℕ} : recordStep m h s = .inl s' ↔
    s.1 < numberOfWrites m h ∧ complete m s.2 ∧
      (s.1 + 1, nextRecord m h s.2) = s' := by
  unfold recordStep
  split_ifs <;> simp_all

/-- **The records that are looked at**, where no address passes `2 ^ 64`. -/
theorem reaches_recordStep_iff
    (hw : ∀ i a, IsRecord m h i a → i < numberOfWrites m h → a < 2 ^ 64) {s : ℕ × ℕ} :
    Reaches (recordStep m h) (0, add64 h 40) s ↔ ∃ a, IsRecord m h s.1 a ∧ s.2 = a % 2 ^ 64 := by
  constructor
  · intro hr
    induction hr with
    | refl =>
      unfold add64
      exact ⟨h + 40, .first, rfl⟩
    | tail _ hs ih =>
      obtain ⟨a, ha, he⟩ := ih
      obtain ⟨hlt, hc, rfl⟩ := recordStep_inl_iff.mp hs
      rw [he, Nat.mod_eq_of_lt (hw _ a ha hlt)] at hc
      exact ⟨_, .next ha hlt hc, by rw [he, nextRecord_eq]⟩
  · obtain ⟨i, record⟩ := s
    rintro ⟨a, ha, he⟩
    dsimp only at ha he
    subst he
    induction ha with
    | first =>
      unfold add64
      exact .refl
    | next ha hlt hc ih =>
      refine .tail ih (recordStep_inl_iff.mpr ⟨hlt, ?_, ?_⟩)
      · rwa [Nat.mod_eq_of_lt (hw _ _ ha hlt)]
      · rw [nextRecord_eq]

/-- The record that is returned behind the last one. -/
theorem sub64_ftwRecordSize (m : Memory) (h a : ℕ) :
    sub64 ((a + 40 + privateDataSize m h) % 2 ^ 64) (ftwRecordSize m h) = a % 2 ^ 64 := by
  unfold ftwRecordSize sub64 add64
  omega

/-! ## Both walks -/

/-- What `FtwGetLastWriteRecord` returns lies in the work space, with the records it looks at. -/
theorem lastRecord_le {status : EfiStatus} {record : ℕ} (hroom : h + 40 ≤ size)
    (hw : ∀ i a, IsRecord m h i a → i < numberOfWrites m h → a < 2 ^ 64)
    (hz : numberOfWrites m h = 0 → privateDataSize m h ≤ h)
    (hf : ∀ i a, IsRecord m h i a → i < numberOfWrites m h → a + 40 ≤ size)
    (hy : Yields (ftwGetLastWriteRecord m h) (status, some record)) : record + 40 ≤ size := by
  obtain ⟨⟨i, r⟩, hrea, hs⟩ := Returns.exists_reaches hy
  obtain ⟨a, ha, he⟩ := (reaches_recordStep_iff hw).mp hrea
  dsimp only at ha he
  unfold recordStep at hs
  split_ifs at hs with hlt _ hlast
  · cases hs
    rw [he, Nat.mod_eq_of_lt (hw i a ha hlt)]
    exact hf i a ha hlt
  · cases hs
    rw [he]
    cases ha with
    | first =>
      -- there are no records, and what is returned lies in front of the first one
      have hle := hz hlast.symm
      have hsub : sub64 ((h + 40) % 2 ^ 64) (ftwRecordSize m h) ≤ h := by
        unfold ftwRecordSize sub64 add64
        omega
      exact (Nat.add_le_add_right hsub 40).trans hroom
    | next ha hlt' =>
      rw [sub64_ftwRecordSize, Nat.mod_eq_of_lt (hw _ _ ha hlt')]
      exact hf _ _ ha hlt'
  · cases hs

/-- **When both walks end and stay in the work space**, for contents of which no address passes
`2 ^ 64`: when headers and records have room. -/
theorem contained_iff (hw : NoWrap m size) : Contained m size ↔ Fits m size := by
  have hlast : ∀ h, Yields (ftwGetLastWriteHeader m size) (.success, h) ↔
      IsHeader m size h ∧ ¬ complete m h := by
    intro h
    constructor
    · intro hy
      obtain ⟨h', hrea, hs⟩ := Returns.exists_reaches hy
      obtain ⟨rfl, hc⟩ := eq_of_headerStep_inr hs
      exact ⟨(reaches_headerStep_iff hw).mp hrea, hc rfl⟩
    · rintro ⟨hi, hc⟩
      exact ((reaches_headerStep_iff hw).mpr hi).returns_iff.mpr (returns_of_inr (if_neg hc))
  constructor
  · intro ha
    refine ⟨ha.headers 32 .refl, fun h hi hc => ?_, fun h hi hc i a hr hlt => ?_⟩
    · refine (Nat.lt_or_ge (h + extent m h) size).elim (fun hlt => .inr ?_) .inl
      exact ha.headers _ ((reaches_headerStep_iff hw).mpr (.next hi hc hlt))
    · have hrec := hw.records h hi hc
      have hrea := (reaches_recordStep_iff hrec (s := (i, a % 2 ^ 64))).mpr ⟨a, hr, rfl⟩
      have hle := ha.records h ((hlast h).mpr ⟨hi, hc⟩) _ hrea hlt
      rwa [Nat.mod_eq_of_lt (hrec i a hr hlt)] at hle
  · intro hf
    exact {
      header_ends := terminates_ftwGetLastWriteHeader hw
      headers := fun h hrea => hf.room ((reaches_headerStep_iff hw).mp hrea)
      lastHeader := by
        intro r hre
        obtain ⟨h, hrea, hs⟩ := Returns.exists_reaches hre
        rw [(eq_of_headerStep_inr hs).1]
        exact hf.room ((reaches_headerStep_iff hw).mp hrea)
      record_ends := by
        intro h _
        refine exists_returns (fun s => numberOfWrites m h - s.1) fun s s' _ hs => ?_
        obtain ⟨hlt, -, rfl⟩ := recordStep_inl_iff.mp hs
        dsimp only
        omega
      records := by
        intro h hy s hrea hlt
        obtain ⟨hi, hc⟩ := (hlast h).mp hy
        obtain ⟨a, ha, he⟩ := (reaches_recordStep_iff (hw.records h hi hc)).mp hrea
        rw [he, Nat.mod_eq_of_lt (hw.records h hi hc _ a ha hlt)]
        exact hf.records h hi hc _ a ha hlt
      lastRecord := by
        intro h hy status record hr
        obtain ⟨hi, hc⟩ := (hlast h).mp hy
        exact lastRecord_le (hf.room hi) (hw.records h hi hc) (hw.none h hi hc)
          (hf.records h hi hc) hr }

/-- A complete header with one record at 32, and one at 112 with a complete record at 152 and one at
200 that is not complete. -/
def twoHeaders : Memory :=
  storeBytes (storeBytes (storeBytes (storeBytes (fun _ => 0xFF) 32 [0xFB])
    56 (leBytes 8 1 ++ leBytes 8 0)) 136 (leBytes 8 2 ++ leBytes 8 8)) 152 [0xFB]

theorem isHeader_twoHeaders (hi : IsHeader twoHeaders 256 h) : h = 32 ∨ h = 112 := by
  induction hi with
  | first => exact .inl rfl
  | next _ hc hlt ih =>
    rcases ih with rfl | rfl
    · exact .inr (by decide +kernel)
    · exact absurd hc (by decide +kernel)

theorem isRecord_twoHeaders {i a : ℕ} (h : IsRecord twoHeaders 112 i a) :
    i = 0 ∧ a = 152 ∨ i = 1 ∧ a = 200 := by
  induction h with
  | first => exact .inl ⟨rfl, rfl⟩
  | next _ _ hc ih =>
    rcases ih with ⟨rfl, rfl⟩ | ⟨rfl, rfl⟩
    · exact .inr ⟨rfl, by decide +kernel⟩
    · exact absurd hc (by decide +kernel)

theorem contained_iff_twoHeaders : NoWrap twoHeaders 256 ∧ Fits twoHeaders 256 ∧
    Contained twoHeaders 256 := by
  have h32 : complete twoHeaders 32 := by decide +kernel
  have h112 : ¬ complete twoHeaders 112 := by decide +kernel
  have hw : NoWrap twoHeaders 256 := by
    refine ⟨fun h hi hc => ?_, fun h hi hc i a hr _ => ?_, fun h hi hc hz => ?_⟩ <;>
      rcases isHeader_twoHeaders hi with rfl | rfl
    · decide +kernel
    · exact absurd hc h112
    · exact absurd h32 hc
    · rcases isRecord_twoHeaders hr with ⟨-, rfl⟩ | ⟨-, rfl⟩ <;> decide
    · exact absurd h32 hc
    · exact absurd hz (by decide +kernel)
  have hf : Fits twoHeaders 256 := by
    refine ⟨by decide, fun h hi hc => ?_, fun h hi hc i a hr _ => ?_⟩ <;>
      rcases isHeader_twoHeaders hi with rfl | rfl
    · decide +kernel
    · exact absurd hc h112
    · exact absurd h32 hc
    · rcases isRecord_twoHeaders hr with ⟨-, rfl⟩ | ⟨-, rfl⟩ <;> decide
  exact ⟨hw, hf, (contained_iff hw).mpr hf⟩

/-- A header with `NumberOfWrites` 2 ^ 64 - 1 and no private data: its total size is zero, and the
walk over the headers stays at it. -/
theorem not_contained_wrapped :
    ¬ Contained (storeBytes (fun _ => 0) 56 (leBytes 8 (2 ^ 64 - 1))) 4096 := by
  intro ha
  obtain ⟨r, hr⟩ := ha.header_ends
  refine not_returns (P := fun h => h = 32) ?_ rfl hr
  rintro h rfl
  refine ⟨32, ?_, rfl⟩
  decide +kernel

end Edk2.Ftw
