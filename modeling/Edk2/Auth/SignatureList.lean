import Mathlib.Tactic.SplitIfs
import Edk2.Base
import Edk2.Lib.Bytes
import Edk2.Lib.Loop

/-!
# The check of signature lists

`CheckSignatureListFormat` of `AuthService.c`, over a buffer that any memory may follow. The sizes
in a list header are 32-bit numbers and the length of a list's body is computed from them modulo
`2 ^ 64`, without a check that the list holds its own header. So the walk can divide by zero, stand
still or step over a list that is no list.

## Main results

* `checkSignatureListFormat_validates`: the check ends and accepts tilings only, where the buffer
  has no list of that kind
* `not_terminates`: an X.509 list of size zero on which the check never ends
-/

namespace Edk2.Auth

/-! ## Names -/

def gEfiGlobalVariableGuid : EfiGuid :=
  efiGuid 0x8BE4DF61 0x93CA 0x11d2 [0xAA, 0x0D, 0x00, 0xE0, 0x98, 0x03, 0x2B, 0x8C]

def gEfiImageSecurityDatabaseGuid : EfiGuid :=
  efiGuid 0xd719b2cb 0x3d3a 0x4596 [0xa3, 0xbc, 0xda, 0xd0, 0x0e, 0x67, 0x65, 0x6f]

/-- `L"PK"`. -/
def efiPlatformKeyName : Char16String := [0x50, 0x4B]

/-- `L"KEK"`. -/
def efiKeyExchangeKeyName : Char16String := [0x4B, 0x45, 0x4B]

/-- `L"db"`. -/
def efiImageSecurityDatabase : Char16String := [0x64, 0x62]

/-- `L"dbx"`. -/
def efiImageSecurityDatabase1 : Char16String := [0x64, 0x62, 0x78]

/-- `L"dbt"`. -/
def efiImageSecurityDatabase2 : Char16String := [0x64, 0x62, 0x74]

section

variable (name : Char16String) (guid : EfiGuid)

def isPlatformKey : Bool :=
  guid == gEfiGlobalVariableGuid && name == efiPlatformKeyName

def isKeyExchangeKey : Bool :=
  guid == gEfiGlobalVariableGuid && name == efiKeyExchangeKeyName

/-- The variable is db, dbx or dbt. -/
def isImageDatabase : Bool :=
  guid == gEfiImageSecurityDatabaseGuid &&
    (name == efiImageSecurityDatabase || name == efiImageSecurityDatabase1 ||
      name == efiImageSecurityDatabase2)

end

/-! ## Lists -/

/-- `sizeof (EFI_SIGNATURE_LIST)`. -/
def signatureListHeader : ℕ := 28

section Fields

variable (m : Memory) (sigList : ℕ)

def signatureType : EfiGuid := bytesAt m sigList 16
def signatureListSize : ℕ := le m (sigList + 16) 4
def signatureHeaderSize : ℕ := le m (sigList + 20) 4
def signatureSize : ℕ := le m (sigList + 24) 4

/-- `SignatureListSize - sizeof (EFI_SIGNATURE_LIST) - SignatureHeaderSize`, in 64 bits. -/
def signatureBody : ℕ :=
  sub64 (sub64 (signatureListSize m sigList) signatureListHeader) (signatureHeaderSize m sigList)

end Fields

/-- `EFI_SIGNATURE_ITEM`; a size that is not fixed is absent. -/
structure SignatureItem where
  sigType : EfiGuid
  sigHeaderSize : Option ℕ
  sigDataSize : Option ℕ

def gEfiCertX509Guid : EfiGuid :=
  efiGuid 0xa5c059a1 0x94e4 0x4aa7 [0x87, 0xb5, 0xab, 0x15, 0x5c, 0x2b, 0xf0, 0x72]

def gEfiCertSha256Guid : EfiGuid :=
  efiGuid 0xc1c41626 0x504c 0x4092 [0xac, 0xa9, 0x41, 0xf9, 0x36, 0x93, 0x43, 0x28]

/-- `mSupportSigItem`: the signature types, with the sizes of their headers and their data. -/
def supportSigItem : List SignatureItem :=
  [⟨gEfiCertSha256Guid, some 0, some 32⟩,
    ⟨efiGuid 0x3c5766e8 0x269c 0x4e34 [0xaa, 0x14, 0xed, 0x77, 0x6e, 0x85, 0xb3, 0xb6],
      some 0, some 256⟩,
    ⟨efiGuid 0xe2b36190 0x879b 0x4a3d [0xad, 0x8d, 0xf2, 0xe7, 0xbb, 0xa3, 0x27, 0x84],
      some 0, some 256⟩,
    ⟨efiGuid 0x826ca512 0xcf10 0x4ac9 [0xb1, 0x87, 0xbe, 0x1, 0x49, 0x66, 0x31, 0xbd],
      some 0, some 20⟩,
    ⟨efiGuid 0x67f8444f 0x8743 0x48f1 [0xa3, 0x28, 0x1e, 0xaa, 0xb8, 0x73, 0x60, 0x80],
      some 0, some 256⟩,
    ⟨gEfiCertX509Guid, some 0, none⟩,
    ⟨efiGuid 0xb6e5233 0xa65c 0x44c9 [0x94, 0x7, 0xd9, 0xab, 0x83, 0xbf, 0xc8, 0xbd],
      some 0, some 28⟩,
    ⟨efiGuid 0xff3e5307 0x9fd0 0x48c9 [0x85, 0xf1, 0x8a, 0xd5, 0x6c, 0x70, 0x1e, 0x1],
      some 0, some 48⟩,
    ⟨efiGuid 0x93e0fae 0xa6c4 0x4f50 [0x9f, 0x1b, 0xd4, 0x1e, 0x2b, 0x89, 0xc1, 0x9a],
      some 0, some 64⟩,
    ⟨efiGuid 0x3bd2a492 0x96c0 0x4079 [0xb4, 0x20, 0xfc, 0xf9, 0x8e, 0xf1, 0x03, 0xed],
      some 0, some 48⟩,
    ⟨efiGuid 0x7076876e 0x80c2 0x4ee6 [0xaa, 0xd2, 0x28, 0xb3, 0x49, 0xa6, 0x86, 0x5b],
      some 0, some 64⟩,
    ⟨efiGuid 0x446dbf63 0x2502 0x4cda [0xbc, 0xfa, 0x24, 0x65, 0xd2, 0xb0, 0xfe, 0x9d],
      some 0, some 80⟩]

/-- The sizes of the list agree with the first item of its type, if there is one. -/
def sigItemValid (m : Memory) (sigList : ℕ) : List SignatureItem → Bool
  | [] => false
  | item :: items =>
    if signatureType m sigList = item.sigType then
      item.sigDataSize.all (sub64 (signatureSize m sigList) 16 == ·) &&
        item.sigHeaderSize.all (signatureHeaderSize m sigList == ·)
    else sigItemValid m sigList items

/-- The RSA key of an X.509 certificate, from the certificate's bytes in the buffer and their
number; also whether a context for it could be allocated. -/
abbrev X509KeyCheck := Memory → ℕ → ℕ → Bool

/-- What the check of one list ends in: the list is refused, the processor divides by zero, or the
list passes with its number of signatures. -/
inductive ListCheck
  | invalid
  | divideError
  | passed (count : ℕ)
  deriving DecidableEq

/-- The body of the loop: the check of the list at `sigList`. -/
def checkSigList (x509Key : X509KeyCheck) (m : Memory) (sigList : ℕ) : ListCheck :=
  if sigItemValid m sigList supportSigItem = false then .invalid
  else if signatureType m sigList = gEfiCertX509Guid ∧
      x509Key m (sigList + signatureListHeader + signatureHeaderSize m sigList + 16)
        (sub64 (signatureSize m sigList) 16) = false then .invalid
  else if signatureSize m sigList = 0 then .divideError
  else if signatureBody m sigList % signatureSize m sigList ≠ 0 then .invalid
  else .passed (signatureBody m sigList / signatureSize m sigList)

/-! ## The walk -/

/-- The variables of the loop; `sigList` is an offset in the buffer. -/
structure Walk where
  sigDataSize : ℕ
  sigList : ℕ
  sigCount : ℕ
  deriving DecidableEq

inductive WalkEnd
  | invalid
  | divideError
  | finished (sigList sigCount : ℕ)
  deriving DecidableEq

/-- One round of the loop. The counter has 32 bits. -/
def walkStep (x509Key : X509KeyCheck) (m : Memory) (w : Walk) : Walk ⊕ WalkEnd :=
  if 0 < w.sigDataSize ∧ signatureListSize m w.sigList ≤ w.sigDataSize then
    match checkSigList x509Key m w.sigList with
    | .invalid => .inr .invalid
    | .divideError => .inr .divideError
    | .passed count =>
      .inl ⟨w.sigDataSize - signatureListSize m w.sigList,
        w.sigList + signatureListSize m w.sigList, (w.sigCount + count) % 2 ^ 32⟩
  else .inr (.finished w.sigList w.sigCount)

/-- What the function ends in: a status, or a division by zero. -/
inductive CheckResult
  | status (s : EfiStatus)
  | divideError
  deriving DecidableEq

/-- The checks after the loop. -/
def finishWalk (isPk : Bool) (dataSize : ℕ) : WalkEnd → CheckResult
  | .invalid => .status .invalidParameter
  | .divideError => .divideError
  | .finished sigList sigCount =>
    if sigList ≠ dataSize then .status .invalidParameter
    else if isPk = true ∧ sigCount > 1 then .status .invalidParameter
    else .status .success

/-- `CheckSignatureListFormat`, for at most `fuel` rounds. -/
def checkSignatureListFormat (x509Key : X509KeyCheck) (fuel : ℕ) (variableName : Char16String)
    (vendorGuid : EfiGuid) (data : Memory) (dataSize : ℕ) : Option CheckResult :=
  if dataSize = 0 then some (.status .success)
  else if isPlatformKey variableName vendorGuid then
    (loop (walkStep x509Key data) fuel ⟨dataSize, 0, 0⟩).map (finishWalk true dataSize)
  else if isKeyExchangeKey variableName vendorGuid || isImageDatabase variableName vendorGuid then
    (loop (walkStep x509Key data) fuel ⟨dataSize, 0, 0⟩).map (finishWalk false dataSize)
  else some (.status .success)

/-! ## Tilings -/

/-- A signature list with room for its header and a whole number of signatures behind it. -/
structure SigListFormed (m : Memory) (sigList : ℕ) : Prop where
  header : signatureListHeader + signatureHeaderSize m sigList ≤ signatureListSize m sigList
  size_ne : signatureSize m sigList ≠ 0
  body : signatureSize m sigList ∣
    signatureListSize m sigList - (signatureListHeader + signatureHeaderSize m sigList)

/-- The bytes from `start` to `stop` are signature lists, one after the other. -/
inductive SigTiled (m : Memory) : ℕ → ℕ → Prop
  | nil (stop : ℕ) : SigTiled m stop stop
  | cons {start stop : ℕ} : SigListFormed m start →
      SigTiled m (start + signatureListSize m start) stop → SigTiled m start stop

/-! ## The lists of a buffer -/

section Lists

variable (x509Key : X509KeyCheck) (m : Memory) (dataSize a : ℕ)

/-- The type of the list is known and has the sizes in the header, and the key of an X.509
certificate is accepted. -/
def Recognized : Prop :=
  sigItemValid m a supportSigItem = true ∧
    (signatureType m a = gEfiCertX509Guid →
      x509Key m (a + signatureListHeader + signatureHeaderSize m a + 16)
        (sub64 (signatureSize m a) 16) = true)

/-- A recognized list that begins and ends in the buffer. -/
structure ListInside : Prop where
  lt : a < dataSize
  le : a + signatureListSize m a ≤ dataSize
  recognized : Recognized x509Key m a

/-- Where the lists of a buffer stand: at its start, and behind each well-formed list. -/
inductive IsSigList : ℕ → Prop
  | first : IsSigList 0
  | next {a : ℕ} : IsSigList a → ListInside x509Key m dataSize a → SigListFormed m a →
      IsSigList (a + signatureListSize m a)

/-- The sizes of a list that is none: its signatures have no size, or it is too short for its header
and what is missing, taken from `2 ^ 64`, is a whole number of signatures. -/
def Misjudged : Prop :=
  signatureSize m a = 0 ∨
    signatureListSize m a < signatureListHeader + signatureHeaderSize m a ∧
      signatureSize m a ∣
        2 ^ 64 - (signatureListHeader + signatureHeaderSize m a - signatureListSize m a)

/-- **No list of the buffer is misjudged.** -/
def NoneMisjudged : Prop :=
  ∀ a, IsSigList x509Key m dataSize a → ListInside x509Key m dataSize a → ¬ Misjudged m a

end Lists

section Walk

variable {x509Key : X509KeyCheck} {m : Memory} {w w' : Walk} {dataSize a : ℕ}

/-- What the subtraction in 64 bits makes of the sizes. -/
theorem signatureBody_eq (m : Memory) (a : ℕ) :
    signatureBody m a =
      if signatureListHeader + signatureHeaderSize m a ≤ signatureListSize m a then
        signatureListSize m a - (signatureListHeader + signatureHeaderSize m a)
      else
        2 ^ 64 - (signatureListHeader + signatureHeaderSize m a - signatureListSize m a) := by
  have hl : signatureListSize m a < 2 ^ 32 := le_lt m (a + 16) 4
  have hh : signatureHeaderSize m a < 2 ^ 32 := le_lt m (a + 20) 4
  unfold signatureBody sub64 signatureListHeader
  split <;> omega

theorem recognized_of_checks (hi : ¬ sigItemValid m a supportSigItem = false)
    (hk : ¬ (signatureType m a = gEfiCertX509Guid ∧
      x509Key m (a + signatureListHeader + signatureHeaderSize m a + 16)
        (sub64 (signatureSize m a) 16) = false)) : Recognized x509Key m a := by
  refine ⟨Bool.of_not_eq_false hi, fun ht => ?_⟩
  by_contra hf
  exact hk ⟨ht, Bool.of_not_eq_true hf⟩

/-- **What passes is a list or misjudged.** -/
theorem checkSigList_passed {count : ℕ} (h : checkSigList x509Key m a = .passed count) :
    Recognized x509Key m a ∧ (SigListFormed m a ∨ Misjudged m a) := by
  unfold checkSigList at h
  split_ifs at h with hi hk hz hm
  refine ⟨recognized_of_checks hi hk, ?_⟩
  have hd := Nat.dvd_of_mod_eq_zero (Classical.not_not.mp hm)
  rw [signatureBody_eq] at hd
  split at hd
  · exact .inl ⟨‹_›, hz, hd⟩
  · exact .inr (.inr ⟨Nat.lt_of_not_le ‹_›, hd⟩)

/-- The walk stands at a list that fits the rest of the buffer. -/
def Walk.AtList (w : Walk) (m : Memory) : Prop :=
  0 < w.sigDataSize ∧ signatureListSize m w.sigList ≤ w.sigDataSize

/-- **What a round does.** -/
theorem walkStep_inl (h : walkStep x509Key m w = .inl w') :
    w.AtList m ∧ ∃ count, checkSigList x509Key m w.sigList = .passed count ∧
      w' = ⟨w.sigDataSize - signatureListSize m w.sigList,
        w.sigList + signatureListSize m w.sigList, (w.sigCount + count) % 2 ^ 32⟩ := by
  unfold walkStep at h
  split_ifs at h with hat
  refine ⟨hat, ?_⟩
  split at h
  · cases h
  · cases h
  · rename_i count hc
    exact ⟨count, hc, (Sum.inl.inj h).symm⟩

def Walk.start (dataSize : ℕ) : Walk := ⟨dataSize, 0, 0⟩

theorem Reaches.sum_eq (h : Reaches (walkStep x509Key m) (Walk.start dataSize) w) :
    w.sigList + w.sigDataSize = dataSize := by
  induction h with
  | refl => exact zero_add dataSize
  | tail _ hs ih =>
    obtain ⟨⟨-, hle⟩, count, -, rfl⟩ := walkStep_inl hs
    dsimp only
    omega

/-- Where no list is misjudged, the walk stands where the lists of the buffer do. -/
theorem NoneMisjudged.isSigList (h : NoneMisjudged x509Key m dataSize)
    (hr : Reaches (walkStep x509Key m) (Walk.start dataSize) w) :
    IsSigList x509Key m dataSize w.sigList := by
  induction hr with
  | refl => exact .first
  | tail hr hs ih =>
    obtain ⟨⟨hpos, hle⟩, count, hp, rfl⟩ := walkStep_inl hs
    have hsum := Reaches.sum_eq hr
    obtain ⟨hrec, hor⟩ := checkSigList_passed hp
    have hin : ListInside x509Key m dataSize _ := ⟨by omega, by omega, hrec⟩
    exact .next ih hin (hor.resolve_right (h _ ih hin))

/-- A list that passes is well-formed. -/
theorem NoneMisjudged.formed (h : NoneMisjudged x509Key m dataSize)
    (hr : Reaches (walkStep x509Key m) (Walk.start dataSize) w) (hat : w.AtList m) {count : ℕ}
    (hp : checkSigList x509Key m w.sigList = .passed count) : SigListFormed m w.sigList := by
  have hsum := Reaches.sum_eq hr
  obtain ⟨hpos, hle⟩ := hat
  obtain ⟨hrec, hor⟩ := checkSigList_passed hp
  exact hor.resolve_right (h _ (h.isSigList hr) ⟨by omega, by omega, hrec⟩)

/-- The walk ends, without a division by zero. -/
theorem NoneMisjudged.returns (h : NoneMisjudged x509Key m dataSize) :
    ∃ r, Returns (walkStep x509Key m) (Walk.start dataSize) r ∧ r ≠ .divideError := by
  have hen : ∃ r, Returns (walkStep x509Key m) (Walk.start dataSize) r := by
    refine exists_returns Walk.sigDataSize fun w w' hre hs => ?_
    obtain ⟨hat, count, hp, rfl⟩ := walkStep_inl hs
    have hroom := (h.formed hre hat hp).header
    have hpos := hat.1
    unfold signatureListHeader at hroom
    dsimp only
    omega
  obtain ⟨r, hr⟩ := hen
  refine ⟨r, hr, ?_⟩
  rintro rfl
  obtain ⟨w, hre, he⟩ := hr.exists_reaches
  unfold walkStep at he
  split_ifs at he with hat
  · split at he
    · cases he
    · rename_i hc
      unfold checkSigList at hc
      split_ifs at hc with hi hk hz
      have hsum := Reaches.sum_eq hre
      exact h _ (h.isSigList hre) ⟨by omega, by omega, recognized_of_checks hi hk⟩ (.inl hz)
    · cases he
  · cases he

theorem NoneMisjudged.sigTiled (h : NoneMisjudged x509Key m dataSize)
    (hr : Reaches (walkStep x509Key m) (Walk.start dataSize) w)
    (hr' : Reaches (walkStep x509Key m) w w') : SigTiled m w.sigList w'.sigList := by
  induction hr' using Relation.ReflTransGen.head_induction_on with
  | refl => exact .nil _
  | head hs _ ih =>
    obtain ⟨hat, count, hp, rfl⟩ := walkStep_inl hs
    exact .cons (h.formed hr hat hp) (ih (hr.tail hs))

/-- The lists of a tiling are where the lists of the buffer stand. -/
theorem SigTiled.isSigList (h : SigTiled m 0 dataSize) (ha : IsSigList x509Key m dataSize a) :
    SigTiled m a dataSize := by
  induction ha with
  | first => exact h
  | next _ hin _ ih =>
    cases ih with
    | nil => exact absurd hin.lt (lt_irrefl _)
    | cons _ hrest => exact hrest

/-- The lists of a tiling are well-formed. -/
theorem SigTiled.noneMisjudged (h : SigTiled m 0 dataSize) : NoneMisjudged x509Key m dataSize := by
  intro a ha hin hmis
  cases h.isSigList ha with
  | nil => exact absurd hin.lt (lt_irrefl _)
  | cons hf _ =>
    rcases hmis with hz | ⟨hlt, -⟩
    · exact hf.size_ne hz
    · exact absurd hf.header (Nat.not_le.mpr hlt)

end Walk

/-! ## The check -/

section Check

variable {x509Key : X509KeyCheck} {name : Char16String} {guid : EfiGuid} {m : Memory} {dataSize : ℕ}

/-- The variables whose content the function checks. -/
def HoldsSignatures (name : Char16String) (guid : EfiGuid) : Prop :=
  isPlatformKey name guid = true ∨ isKeyExchangeKey name guid = true ∨
    isImageDatabase name guid = true

theorem checkSignatureListFormat_eq (hn : HoldsSignatures name guid) (hne : dataSize ≠ 0)
    (fuel : ℕ) :
    checkSignatureListFormat x509Key fuel name guid m dataSize =
      (loop (walkStep x509Key m) fuel (Walk.start dataSize)).map
        (finishWalk (isPlatformKey name guid) dataSize) := by
  rw [checkSignatureListFormat, if_neg hne]
  by_cases hpk : isPlatformKey name guid = true
  · rw [hpk]
    rfl
  · have ho : (isKeyExchangeKey name guid || isImageDatabase name guid) = true :=
      (Bool.or_eq_true _ _).mpr (hn.resolve_left hpk)
    rw [if_pos ho, Bool.eq_false_iff.mpr hpk]
    rfl

theorem exists_check_iff (hn : HoldsSignatures name guid) (hne : dataSize ≠ 0)
    (r : CheckResult) :
    (∃ fuel, checkSignatureListFormat x509Key fuel name guid m dataSize = some r) ↔
      ∃ e, Returns (walkStep x509Key m) (Walk.start dataSize) e ∧
        finishWalk (isPlatformKey name guid) dataSize e = r := by
  constructor
  · rintro ⟨fuel, hf⟩
    rw [checkSignatureListFormat_eq hn hne] at hf
    obtain ⟨e, he, hr⟩ := Option.map_eq_some_iff.mp hf
    exact ⟨e, ⟨fuel, he⟩, hr⟩
  · rintro ⟨e, ⟨fuel, he⟩, hr⟩
    refine ⟨fuel, ?_⟩
    rw [checkSignatureListFormat_eq hn hne, he, Option.map_some, hr]

theorem finishWalk_status (isPk : Bool) {e : WalkEnd} (he : e ≠ .divideError) :
    finishWalk isPk dataSize e = .status .success ∨
      finishWalk isPk dataSize e = .status .invalidParameter := by
  cases e with
  | invalid => exact .inr rfl
  | divideError => exact absurd rfl he
  | finished sigList sigCount =>
    rw [finishWalk]
    split_ifs
    · exact .inr rfl
    · exact .inr rfl
    · exact .inl rfl

/-- **The check is right** about a buffer: it ends with a status, and what it accepts is a tiling. -/
structure Validates (x509Key : X509KeyCheck) (name : Char16String) (guid : EfiGuid) (m : Memory)
    (dataSize : ℕ) : Prop where
  ends : ∃ fuel status,
    checkSignatureListFormat x509Key fuel name guid m dataSize = some (.status status)
  tiled : ∀ fuel, checkSignatureListFormat x509Key fuel name guid m dataSize =
    some (.status .success) → SigTiled m 0 dataSize

theorem validates_of_noneMisjudged (hname : HoldsSignatures name guid) (hne : dataSize ≠ 0)
    (h : NoneMisjudged x509Key m dataSize) : Validates x509Key name guid m dataSize := by
  obtain ⟨e, he, hd⟩ := h.returns
  constructor
  · rcases finishWalk_status (isPlatformKey name guid) hd with hst | hst
    · obtain ⟨fuel, hf⟩ := (exists_check_iff hname hne _).mpr ⟨e, he, hst⟩
      exact ⟨fuel, _, hf⟩
    · obtain ⟨fuel, hf⟩ := (exists_check_iff hname hne _).mpr ⟨e, he, hst⟩
      exact ⟨fuel, _, hf⟩
  · intro fuel hf
    obtain ⟨e', he', hfi⟩ := (exists_check_iff hname hne _).mp ⟨fuel, hf⟩
    obtain ⟨w, hrea, hen⟩ := he'.exists_reaches
    obtain ⟨count, rfl⟩ : ∃ count, e' = .finished dataSize count := by
      cases e' with
      | invalid => cases hfi
      | divideError => cases hfi
      | finished sigList sigCount =>
        rw [finishWalk] at hfi
        split_ifs at hfi with hl hpk
        · cases hfi
        · cases hfi
        · exact ⟨sigCount, by rw [Classical.not_not.mp hl]⟩
    unfold walkStep at hen
    split_ifs at hen with hat
    · split at hen <;> cases hen
    cases hen
    exact h.sigTiled .refl hrea

/-- **The check is right where no list of the buffer is misjudged**, and about any other buffer only
if it refuses it for what follows the list it has misjudged. -/
theorem checkSignatureListFormat_validates (x509Key : X509KeyCheck) (m : Memory) (dataSize : ℕ)
    {name : Char16String} {guid : EfiGuid} (hname : HoldsSignatures name guid) :
    (NoneMisjudged x509Key m dataSize → Validates x509Key name guid m dataSize) ∧
      (Validates x509Key name guid m dataSize → NoneMisjudged x509Key m dataSize ∨
        ∃ fuel, checkSignatureListFormat x509Key fuel name guid m dataSize =
          some (.status .invalidParameter)) := by
  by_cases hne : dataSize = 0
  · -- an empty buffer has no lists
    subst hne
    refine ⟨fun _ => ⟨⟨0, .success, rfl⟩, fun _ _ => .nil 0⟩, fun _ => .inl fun a _ hin => ?_⟩
    exact absurd hin.lt (Nat.not_lt_zero a)
  refine ⟨validates_of_noneMisjudged hname hne, fun h => ?_⟩
  obtain ⟨fuel, status, hf⟩ := h.ends
  obtain ⟨e, -, hfi⟩ := (exists_check_iff hname hne _).mp ⟨fuel, hf⟩
  have hd : e ≠ .divideError := by
    rintro rfl
    cases hfi
  rcases finishWalk_status (isPlatformKey name guid) hd with hst | hst
  · rw [← hfi, hst] at hf
    exact .inl (h.tiled fuel hf).noneMisjudged
  · rw [← hfi, hst] at hf
    exact .inr ⟨fuel, hf⟩

/-- A header in front of a buffer of zeros. -/
def sampleList (type : EfiGuid) (listSize size : ℕ) : Memory := fun a =>
  if a < 16 then type.getD a 0
  else if a = 16 then UInt8.ofNat listSize
  else if a = 17 then UInt8.ofNat (listSize / 256)
  else if a = 24 then UInt8.ofNat size
  else if a = 25 then UInt8.ofNat (size / 256)
  else 0

/-- A list with one certificate, and a SHA-256 list with two signatures behind it. -/
def twoLists : Memory := fun a =>
  if a < 144 then sampleList gEfiCertX509Guid 144 116 a
  else sampleList gEfiCertSha256Guid 124 48 (a - 144)

theorem noneMisjudged_twoLists : NoneMisjudged (fun _ _ _ => true) twoLists 268 := by
  refine SigTiled.noneMisjudged ?_
  have h₁ : SigListFormed twoLists 0 := ⟨by decide +kernel, by decide +kernel, by decide +kernel⟩
  have h₂ : SigListFormed twoLists 144 := ⟨by decide +kernel, by decide +kernel, by decide +kernel⟩
  exact .cons h₁ (.cons h₂ (.nil 268))

theorem checkSignatureListFormat_validates_twoLists :
    Validates (fun _ _ _ => true) efiImageSecurityDatabase gEfiImageSecurityDatabaseGuid
        twoLists 268 ∧
      checkSignatureListFormat (fun _ _ _ => true) 3 efiImageSecurityDatabase
        gEfiImageSecurityDatabaseGuid twoLists 268 = some (.status .success) := by
  have hn : HoldsSignatures efiImageSecurityDatabase gEfiImageSecurityDatabaseGuid :=
    .inr (.inr (by decide))
  exact ⟨(checkSignatureListFormat_validates _ _ _ hn).1 noneMisjudged_twoLists,
    by decide +kernel⟩

/-- A list of size zero that passes holds the walk where it is. -/
theorem not_returns_of_zero {w : Walk} {r : WalkEnd} {count : ℕ} (hat : w.AtList m)
    (hp : checkSigList x509Key m w.sigList = .passed count)
    (hz : signatureListSize m w.sigList = 0) : ¬ Returns (walkStep x509Key m) w r := by
  refine not_returns
    (P := fun v => v.sigList = w.sigList ∧ v.sigDataSize = w.sigDataSize) ?_ ⟨rfl, rfl⟩
  rintro v ⟨hl, hs⟩
  have hat' : v.AtList m := by
    rw [Walk.AtList, hl, hs]
    exact hat
  rw [← hl] at hp
  refine ⟨_, by rw [walkStep, if_pos ⟨hat'.1, hat'.2⟩, hp], ?_, ?_⟩
  · rw [hl, hz, add_zero]
  · rw [hl, hz, Nat.sub_zero, hs]

/-- **The check need not end**: an X.509 list with a `SignatureListSize` of 0 and a `SignatureSize`
of 3491, which divides `2 ^ 64 - 28`, holds the walk where it is. -/
theorem not_terminates :
    ¬ ∀ (x509Key : X509KeyCheck) (m : Memory) (dataSize : ℕ), ∃ fuel status,
      checkSignatureListFormat x509Key fuel efiPlatformKeyName gEfiGlobalVariableGuid m dataSize =
        some (.status status) := by
  intro ha
  obtain ⟨fuel, status, hs⟩ := ha (fun _ _ _ => true) (sampleList gEfiCertX509Guid 0 3491) 3519
  obtain ⟨e, he, -⟩ := (exists_check_iff (.inl (by decide)) (by decide) _).mp ⟨fuel, hs⟩
  have hat : (Walk.start 3519).AtList (sampleList gEfiCertX509Guid 0 3491) :=
    ⟨by decide, by decide +kernel⟩
  have hp : checkSigList (fun _ _ _ => true) (sampleList gEfiCertX509Guid 0 3491) 0 =
      .passed ((2 ^ 64 - 28) / 3491) := by decide +kernel
  exact not_returns_of_zero hat hp (by decide +kernel) he

end Check

end Edk2.Auth
