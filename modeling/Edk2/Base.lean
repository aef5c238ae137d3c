import Edk2.Lib.Word

/-!
# Statuses, attribute masks and page constants

The values of `UefiBaseType.h`, `UefiSpec.h` and `DxeMain.h` that the modelled functions read.
-/

namespace Edk2

/-- The `EFI_STATUS` and `RETURN_STATUS` values the modelled functions return. -/
inductive EfiStatus
  | success
  | invalidParameter
  | unsupported
  | bufferTooSmall
  | notFound
  | accessDenied
  | outOfResources
  | notAvailableYet
  | alreadyStarted
  | deviceError
  | writeProtected
  | notReady
  | aborted
  | securityViolation
  | volumeCorrupted
  | volumeFull
  deriving DecidableEq, Repr

namespace EfiStatus

/-- `EFI_ERROR`. -/
def isError (s : EfiStatus) : Bool := s != .success

@[simp] theorem isError_success : success.isError = false := rfl

theorem isError_eq_false {s : EfiStatus} : s.isError = false ↔ s = .success := by
  cases s <;> simp [isError]

theorem isError_eq_true {s : EfiStatus} : s.isError = true ↔ s ≠ .success := by
  cases s <;> simp [isError]

end EfiStatus

/-- `EFI_GUID`: its 16 bytes. -/
abbrev EfiGuid := List UInt8

instance : LawfulBEq EfiGuid := inferInstance

/-- The bytes of a GUID from its four fields. -/
def efiGuid (data1 data2 data3 : ℕ) (data4 : List UInt8) : EfiGuid :=
  [UInt8.ofNat data1, UInt8.ofNat (data1 / 2 ^ 8), UInt8.ofNat (data1 / 2 ^ 16),
    UInt8.ofNat (data1 / 2 ^ 24), UInt8.ofNat data2, UInt8.ofNat (data2 / 2 ^ 8),
    UInt8.ofNat data3, UInt8.ofNat (data3 / 2 ^ 8)] ++ data4

/-- A `CHAR16` string: its characters, without the terminator. -/
abbrev Char16String := List ℕ

/-! ## Memory attributes -/

def efiMemoryUc : BitVec 64 := 0x0000000000000001#64
def efiMemoryWc : BitVec 64 := 0x0000000000000002#64
def efiMemoryWt : BitVec 64 := 0x0000000000000004#64
def efiMemoryWb : BitVec 64 := 0x0000000000000008#64
def efiMemoryUce : BitVec 64 := 0x0000000000000010#64
def efiMemoryWp : BitVec 64 := 0x0000000000001000#64
def efiMemoryRp : BitVec 64 := 0x0000000000002000#64
def efiMemoryXp : BitVec 64 := 0x0000000000004000#64
def efiMemoryRo : BitVec 64 := 0x0000000000020000#64
def efiMemorySp : BitVec 64 := 0x0000000000040000#64
def efiMemoryCpuCrypto : BitVec 64 := 0x0000000000080000#64
def efiMemoryPortIo : BitVec 64 := 0x4000000000000000#64
def efiMemoryRuntime : BitVec 64 := 0x8000000000000000#64

def efiCacheAttributeMask : BitVec 64 :=
  efiMemoryUc ||| efiMemoryWc ||| efiMemoryWt ||| efiMemoryWb ||| efiMemoryUce ||| efiMemoryWp

def efiMemoryAccessMask : BitVec 64 := efiMemoryRp ||| efiMemoryXp ||| efiMemoryRo

def efiMemoryAttributeMask : BitVec 64 := efiMemoryAccessMask ||| efiMemorySp ||| efiMemoryCpuCrypto

/-! ## Pages -/

/-- `(Value & EFI_PAGE_MASK) == 0`. -/
def PageAligned (value : ℕ) : Prop := value % 4096 = 0

instance (value : ℕ) : Decidable (PageAligned value) := inferInstanceAs (Decidable (_ = _))

end Edk2
