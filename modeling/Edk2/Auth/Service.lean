import Edk2.Auth.Filter
import Edk2.Var.Flush

/-!
# Authenticated variables

`AuthService.c` over the variable driver: a request carries an `EFI_VARIABLE_AUTHENTICATION_2`
descriptor in front of the new data, and is checked against PK, against the certificates of KEK,
against the certificates that were stored when the variable was created, or against a certificate in
the data itself. The cryptographic functions are parameters. A function of this file has no result
where one of the walks over signature lists or certificate nodes does not end in the given number of
rounds, or where the processor divides by zero.
-/

namespace Edk2.Auth

open Var

/-! ## Names -/

def gEfiSecureBootEnableDisableGuid : EfiGuid :=
  efiGuid 0xf0a30bc7 0xaf08 0x4556 [0x99, 0xc4, 0x0, 0x10, 0x9, 0xc9, 0x3a, 0x44]

def gEfiCustomModeEnableGuid : EfiGuid :=
  efiGuid 0xc076ec0c 0x7028 0x4399 [0xa0, 0x72, 0x71, 0xee, 0x5c, 0x44, 0x8b, 0x9f]

def gEfiVendorKeysNvGuid : EfiGuid :=
  efiGuid 0x9073e4e0 0x60ec 0x4b6e [0x99, 0x3, 0x4c, 0x22, 0x3c, 0x26, 0xf, 0x3c]

def gEfiCertDbGuid : EfiGuid :=
  efiGuid 0xd9bee56e 0x75dc 0x49d9 [0xb4, 0xd7, 0xb5, 0x34, 0x21, 0xf, 0x63, 0x7a]

def gEfiCertPkcs7Guid : EfiGuid :=
  efiGuid 0x4aafd29d 0x68df 0x49ee [0x8a, 0xa9, 0x34, 0x7d, 0x37, 0x56, 0x65, 0xa7]

def platformKey : VarKey := (efiPlatformKeyName, gEfiGlobalVariableGuid)

def keyExchangeKey : VarKey := (efiKeyExchangeKeyName, gEfiGlobalVariableGuid)

/-- `L"SetupMode"`. -/
def setupModeKey : VarKey :=
  ([0x53, 0x65, 0x74, 0x75, 0x70, 0x4d, 0x6f, 0x64, 0x65], gEfiGlobalVariableGuid)

/-- `L"SecureBoot"`. -/
def secureBootKey : VarKey :=
  ([0x53, 0x65, 0x63, 0x75, 0x72, 0x65, 0x42, 0x6f, 0x6f, 0x74], gEfiGlobalVariableGuid)

/-- `L"SecureBootEnable"`. -/
def secureBootEnableKey : VarKey :=
  ([0x53, 0x65, 0x63, 0x75, 0x72, 0x65, 0x42, 0x6f, 0x6f, 0x74, 0x45, 0x6e, 0x61, 0x62, 0x6c, 0x65],
    gEfiSecureBootEnableDisableGuid)

/-- `L"CustomMode"`. -/
def customModeKey : VarKey :=
  ([0x43, 0x75, 0x73, 0x74, 0x6f, 0x6d, 0x4d, 0x6f, 0x64, 0x65], gEfiCustomModeEnableGuid)

/-- `L"VendorKeysNv"`. -/
def vendorKeysNvKey : VarKey :=
  ([0x56, 0x65, 0x6e, 0x64, 0x6f, 0x72, 0x4b, 0x65, 0x79, 0x73, 0x4e, 0x76], gEfiVendorKeysNvGuid)

/-- `L"VendorKeys"`. -/
def vendorKeysKey : VarKey :=
  ([0x56, 0x65, 0x6e, 0x64, 0x6f, 0x72, 0x4b, 0x65, 0x79, 0x73], gEfiGlobalVariableGuid)

/-- `L"certdb"`. -/
def certDbKey : VarKey := ([0x63, 0x65, 0x72, 0x74, 0x64, 0x62], gEfiCertDbGuid)

/-- `L"certdbv"`. -/
def certDbVolatileKey : VarKey := ([0x63, 0x65, 0x72, 0x74, 0x64, 0x62, 0x76], gEfiCertDbGuid)

/-! ## Requests -/

/-- `Hdr.dwLength` of the descriptor. -/
def dwLength (data : Memory) : ℕ := le data 16 4

/-- The data of a request that has passed the sanity check of `SetVariable`: an
`EFI_VARIABLE_AUTHENTICATION_2` descriptor lies in it as a whole. -/
structure AuthBuffer where
  data : Memory
  dataSize : ℕ
  header : 40 ≤ dataSize
  dwLength_le : dwLength data ≤ dataSize - 16
  le_dwLength : 24 ≤ dwLength data

namespace AuthBuffer

variable (b : AuthBuffer)

def timeStamp : EfiTime where
  year := le b.data 0 2
  month := le b.data 2 1
  day := le b.data 3 1
  hour := le b.data 4 1
  minute := le b.data 5 1
  second := le b.data 6 1
  pad1 := le b.data 7 1
  nanosecond := le b.data 8 4
  timeZone := le b.data 12 2
  daylight := le b.data 14 1
  pad2 := le b.data 15 1

/-- `Hdr.wCertificateType`. -/
def wCertificateType : ℕ := le b.data 22 2

/-- `AuthInfo.CertType`. -/
def certType : EfiGuid := bytesAt b.data 24 16

def sigDataSize : ℕ := dwLength b.data - 24

def sigData : List UInt8 := bytesAt b.data 40 b.sigDataSize

/-- `AUTHINFO2_SIZE`: where the new data of the variable starts. -/
def payloadPtr : ℕ := 16 + dwLength b.data

def payloadSize : ℕ := b.dataSize - b.payloadPtr

/-- The memory from the new data on. -/
def payloadMemory : Memory := fun a => b.data (b.payloadPtr + a)

def payload : List UInt8 := bytesAt b.payloadMemory 0 b.payloadSize

end AuthBuffer

/-! ## Platform and state -/

/-- `mPlatformMode`; it has no other values. -/
inductive PlatformMode
  | user
  | setup
  deriving DecidableEq, Repr

/-- `USER_MODE` and `SETUP_MODE`. -/
def PlatformMode.byte : PlatformMode → UInt8
  | .user => 0
  | .setup => 1

/-- `mVendorKeyState`; it has no other values. -/
inductive VendorKeyState
  | modified
  | valid
  deriving DecidableEq, Repr

/-- `VENDOR_KEYS_MODIFIED` and `VENDOR_KEYS_VALID`. -/
def VendorKeyState.byte : VendorKeyState → UInt8
  | .modified => 0
  | .valid => 1

/-- What `Pkcs7GetSigners` returns: the stack of the signer's certificates and the top-level one. -/
structure Signers where
  signerCerts : List UInt8
  topLevelCert : List UInt8

/-- What the library reads of its platform, the variable driver's part first. The functions are
those of the cryptographic library. -/
structure AuthEnv where
  driver : Env
  scratchBufferSize : ℕ
  userPhysicalPresent : Bool
  variablePolicyEnabled : Bool
  /-- `mMaxCertDbSize`. -/
  maxCertDbSize : ℕ
  /-- What is in `mCertDbStore` before it is used. -/
  certDbStore : Memory
  /-- What follows the data of a variable in its store. -/
  beyond : Memory
  x509Key : X509KeyCheck
  pkcs7GetSigners : List UInt8 → Option Signers
  /-- `Pkcs7Verify` of the SignedData, the trusted certificate and the data. -/
  pkcs7Verify : List UInt8 → List UInt8 → List UInt8 → Bool
  /-- `CalculatePrivAuthVarSignChainSHA256Digest` of the signer's and the top-level certificate. -/
  signChainDigest : List UInt8 → List UInt8 → Option (List UInt8)

/-- The state of the library and of the variable driver. -/
structure AuthState where
  vars : VarState
  platformMode : PlatformMode
  vendorKeyState : VendorKeyState
  deriving DecidableEq

section Service

variable (env : AuthEnv) (fuel : ℕ) (s : AuthState)

/-- `AuthServiceInternalFindVariable`. -/
def findVariableInfo (key : VarKey) : Option VarRecord := lookup env.driver s.vars key

/-- `AuthServiceInternalUpdateVariable`, with the time stamp of
`AuthServiceInternalUpdateVariableWithTimeStamp`. -/
def updateVariableInfo (args : UpdateArgs) : EfiStatus × AuthState :=
  let o := variableExLibUpdateVariable env.driver s.vars args
  (o.status, { s with vars := o.state })

/-- The variables whose signatures are filtered on an append. -/
def isFiltered (key : VarKey) : Bool :=
  isImageDatabase key.1 key.2 || isKeyExchangeKey key.1 key.2

/-- `AuthServiceInternalUpdateVariableWithTimeStamp`. The status of the filter is not looked at. -/
def updateVariableWithTimeStamp (key : VarKey) (data : Memory) (dataSize : ℕ)
    (attributes : BitVec 32) (timeStamp : EfiTime) : Option (EfiStatus × AuthState) :=
  let update := fun data : List UInt8 =>
    updateVariableInfo env s ⟨key, data, attributes, some timeStamp⟩
  match findVariableInfo env s key with
  | some org =>
    if hasAttribute attributes efiVariableAppendWrite && isFiltered key then
      (filterSignatureList env.scratchBufferSize fuel (dataMemory env.beyond org.data)
        org.data.length data dataSize).map fun filtered => update filtered.2
    else some (update (bytesAt data 0 dataSize))
  | none => some (update (bytesAt data 0 dataSize))

/-- `CheckSignatureListFormat` of the variable. -/
def checkFormat (key : VarKey) (data : Memory) (dataSize : ℕ) : Option EfiStatus :=
  match checkSignatureListFormat env.x509Key fuel key.1 key.2 data dataSize with
  | some (.status status) => some status
  | _ => none

/-! ## Modes -/

def inCustomMode : Bool :=
  match findVariableInfo env s customModeKey with
  | some r => dataMemory env.beyond r.data 0 == 1
  | none => false

/-- `CopyMem` of a byte to the data of the variable a search found. -/
def overwriteByte (s : VarState) (track : PointerTrack) (byte : UInt8) : VarState :=
  match track.currPtr with
  | none => s
  | some i =>
    s.setRecords track.store ((s.records track.store).modify i fun r =>
      { r with data := if r.data = [] then [] else byte :: r.data.tail })

/-- `EFI_VARIABLE_RUNTIME_ACCESS | EFI_VARIABLE_BOOTSERVICE_ACCESS`. -/
def rtBs : BitVec 32 := efiVariableRuntimeAccess ||| efiVariableBootserviceAccess

/-- `EFI_VARIABLE_NON_VOLATILE | EFI_VARIABLE_BOOTSERVICE_ACCESS`. -/
def nvBs : BitVec 32 := efiVariableNonVolatile ||| efiVariableBootserviceAccess

/-- `UpdatePlatformMode` after the mode is set: SecureBoot and SecureBootEnable follow it. -/
def updateSecureBoot : EfiStatus × AuthState :=
  let enable := (findVariableInfo env s secureBootKey).isSome && s.platformMode == .user
  let o := updateVariableInfo env s ⟨secureBootKey, [if enable then 1 else 0], rtBs, none⟩
  if o.1.isError then o
  else if enable then updateVariableInfo env o.2 ⟨secureBootEnableKey, [1], nvBs, none⟩
  else if (findVariableInfo env o.2 secureBootEnableKey).isNone then (.success, o.2)
  else updateVariableInfo env o.2 ⟨secureBootEnableKey, [], nvBs, none⟩

def updatePlatformMode (mode : PlatformMode) : EfiStatus × AuthState :=
  let track := findVariable env.driver s.vars setupModeKey false
  if track.currPtr.isNone then (.notFound, s)
  else
    let s₁ : AuthState :=
      { s with platformMode := mode, vars := overwriteByte s.vars track mode.byte }
    if env.driver.atRuntime then (.success, s₁) else updateSecureBoot env s₁

def vendorKeyIsModified : EfiStatus × AuthState :=
  if s.vendorKeyState = .modified then (.success, s)
  else
    let o := updateVariableInfo env { s with vendorKeyState := .modified }
      ⟨vendorKeysNvKey, [VendorKeyState.modified.byte],
        nvBs ||| efiVariableTimeBasedAuthenticatedWriteAccess, none⟩
    if o.1.isError then o
    else updateVariableInfo env o.2 ⟨vendorKeysKey, [VendorKeyState.modified.byte], rtBs, none⟩

/-! ## Stored certificates -/

/-- The name and the attributes of the variable that holds the certificates. -/
def certDbOf (attributes : BitVec 32) : VarKey × BitVec 32 :=
  if hasAttribute attributes efiVariableNonVolatile then
    (certDbKey, nvBs ||| efiVariableRuntimeAccess ||| efiVariableTimeBasedAuthenticatedWriteAccess)
  else (certDbVolatileKey, rtBs ||| efiVariableTimeBasedAuthenticatedWriteAccess)

/-- The characters of a name, two bytes each. -/
def nameBytes (name : Char16String) : List UInt8 := name.flatMap (leBytes 2)

/-- What `FindCertsFromDb` returns for the node it finds. -/
structure CertNode where
  certOffset : ℕ
  certDataSize : ℕ
  certNodeOffset : ℕ
  certNodeSize : ℕ
  deriving DecidableEq

/-- One round of `FindCertsFromDb`, at an offset of 32 bits. -/
def findCertsStep (key : VarKey) (data : Memory) (dataSize : ℕ) (offset : ℕ) :
    ℕ ⊕ (EfiStatus × Option CertNode) :=
  if offset < dataSize % 2 ^ 32 then
    let nodeSize := le data (offset + 16) 4
    let nameSize := le data (offset + 20) 4
    let certSize := le data (offset + 24) 4
    if bytesAt data offset 16 = key.2 then
      if nodeSize ≠ 28 + certSize + 2 * nameSize then .inr (.invalidParameter, none)
      else
        let name := (offset + 28) % 2 ^ 32
        if nameSize = key.1.length ∧ bytesAt data name (2 * nameSize) = nameBytes key.1 then
          .inr (.success,
            some ⟨(name + 2 * nameSize) % 2 ^ 32, certSize, offset % 2 ^ 32, nodeSize⟩)
        else .inl ((name + 2 * nameSize + certSize) % 2 ^ 32)
    else .inl ((offset + nodeSize) % 2 ^ 32)
  else .inr (.notFound, none)

def findCertsFromDb (key : VarKey) (data : Memory) (dataSize : ℕ) :
    Option (EfiStatus × Option CertNode) :=
  if dataSize < 4 ∨ le data 0 4 ≠ dataSize % 2 ^ 32 then some (.invalidParameter, none)
  else loop (findCertsStep key data dataSize) fuel 4

section

variable (key : VarKey) (attributes : BitVec 32)

/-- `GetCertsFromDb`: the certificates stored for the variable. -/
def getCertsFromDb : Option (EfiStatus × List UInt8) :=
  match findVariableInfo env s (certDbOf attributes).1 with
  | none => some (.notFound, [])
  | some db =>
    let data := dataMemory env.beyond db.data
    if db.data.length = 0 then some (.notFound, [])
    else
      (findCertsFromDb fuel key data db.data.length).map fun found =>
        match found.2 with
        | some node => (found.1, bytesAt data node.certOffset node.certDataSize)
        | none => (found.1, [])

def deleteCertsFromDb : Option (EfiStatus × AuthState) :=
  match findVariableInfo env s (certDbOf attributes).1 with
  | none => some (.notFound, s)
  | some db =>
    let data := dataMemory env.beyond db.data
    let dataSize := db.data.length
    if dataSize = 0 then some (.notFound, s)
    else if dataSize = 4 then some (.success, s)
    else
      (findCertsFromDb fuel key data dataSize).map fun found =>
        match found.2 with
        | none => (found.1, s)
        | some node =>
          let stop := (node.certNodeOffset + node.certNodeSize) % 2 ^ 32
          if dataSize < stop then (.notFound, s)
          else
            let newCertDbSize := (dataSize % 2 ^ 32 + 2 ^ 32 - node.certNodeSize) % 2 ^ 32
            let before := copyMem env.certDbStore 0 data 0 node.certNodeOffset
            let sized := copyMem before 0 (fun a => (leBytes 4 newCertDbSize).getD a 0) 0 4
            let newCertDb := copyMem sized node.certNodeOffset data stop (dataSize - stop)
            updateVariableInfo env s ⟨(certDbOf attributes).1, bytesAt newCertDb 0 newCertDbSize,
              (certDbOf attributes).2, none⟩

def insertCertsToDb (signerCert topLevelCert : List UInt8) : Option (EfiStatus × AuthState) :=
  match findVariableInfo env s (certDbOf attributes).1 with
  | none => some (.notFound, s)
  | some db =>
    let data := dataMemory env.beyond db.data
    let dataSize := db.data.length
    if dataSize = 0 then some (.notFound, s)
    else
      (findCertsFromDb fuel key data dataSize).map fun found =>
        if !found.1.isError then (.accessDenied, s)
        else
          let nameSize := key.1.length % 2 ^ 32
          let certNodeSize := (28 + 32 + 2 * nameSize) % 2 ^ 32
          let newCertDbSize := (dataSize + certNodeSize) % 2 ^ 32
          if env.maxCertDbSize < newCertDbSize then (.outOfResources, s)
          else
            match env.signChainDigest signerCert topLevelCert with
            | none => (.aborted, s)
            | some digest =>
              let node := key.2 ++ leBytes 4 certNodeSize ++ leBytes 4 nameSize ++ leBytes 4 32 ++
                nameBytes key.1 ++ digest
              let before := copyMem env.certDbStore 0 data 0 dataSize
              let sized := copyMem before 0 (fun a => (leBytes 4 newCertDbSize).getD a 0) 0 4
              let newCertDb := copyMem sized dataSize (fun a => node.getD a 0) 0 node.length
              updateVariableInfo env s ⟨(certDbOf attributes).1,
                bytesAt newCertDb 0 newCertDbSize, (certDbOf attributes).2, none⟩

end

/-! ## The check of a request -/

inductive AuthVarType
  | pk
  | kek
  | priv
  | payload
  deriving DecidableEq, Repr

/-- A component of the time stamp that has to be zero is not. -/
def isPadded (t : EfiTime) : Bool :=
  t.pad1 != 0 || t.nanosecond != 0 || t.timeZone != 0 || t.daylight != 0 || t.pad2 != 0

/-- `mSha256OidValue`. -/
def sha256OidValue : List UInt8 := [0x60, 0x86, 0x48, 0x01, 0x65, 0x03, 0x04, 0x02, 0x01]

/-- The digest algorithm is not SHA-256, as far as the SignedData is long enough to say so. -/
def isOtherDigest (b : AuthBuffer) : Bool :=
  decide (22 ≤ b.sigDataSize) &&
    ((b.data 41 &&& 0x82 != 0x82) || (bytesAt b.data 53 9 != sha256OidValue))

/-- The bytes that are signed: name, vendor GUID, attributes, time stamp and new data. -/
def serialized (key : VarKey) (attributes : BitVec 32) (b : AuthBuffer) : List UInt8 :=
  nameBytes key.1 ++ key.2 ++ leBytes 4 attributes.toNat ++ bytesAt b.data 0 16 ++ b.payload

/-- The first certificate of the lists at `m`. -/
def firstCertificate (m : Memory) : List UInt8 :=
  bytesAt m (firstSignature m 0 + 16) (sub64 (signatureSize m 0) 16)

/-- The request is signed with the platform key. -/
def verifyPk (newData : List UInt8) (b : AuthBuffer) : Bool :=
  match env.pkcs7GetSigners b.sigData with
  | none => false
  | some signers =>
    match findVariableInfo env s platformKey with
    | none => false
    | some pk =>
      let m := dataMemory env.beyond pk.data
      -- The sizes are compared first, then that number of bytes.
      if signers.topLevelCert.length ≠ sub64 (signatureSize m 0) 16 ∨
          bytesAt m (firstSignature m 0 + 16) signers.topLevelCert.length ≠ signers.topLevelCert then
        false
      else env.pkcs7Verify b.sigData signers.topLevelCert newData

/-- One round of the walk over the lists of KEK; it ends without a result where the processor
divides by zero. -/
def kekStep (kek : Memory) (verify : List UInt8 → Bool) (w : ℕ × ℕ) : (ℕ × ℕ) ⊕ Option Bool :=
  if 0 < w.1 ∧ signatureListSize kek w.2 ≤ w.1 then
    if signatureType kek w.2 = gEfiCertX509Guid then
      if signatureSize kek w.2 = 0 then .inr none
      else if anySignature
          (fun cert => verify (bytesAt kek (cert + 16) (sub64 (signatureSize kek w.2) 16)))
          (signatureSize kek w.2) (signatureCount kek w.2) (firstSignature kek w.2) = true then
        .inr (some true)
      else .inl (w.1 - signatureListSize kek w.2, w.2 + signatureListSize kek w.2)
    else .inl (w.1 - signatureListSize kek w.2, w.2 + signatureListSize kek w.2)
  else .inr (some false)

/-- The first certificate of the stack `Pkcs7GetSigners` returns. -/
def signerCert (signerCerts : List UInt8) : List UInt8 :=
  (signerCerts.drop 5).take (le (fun a => signerCerts.getD a 0) 1 4)

section

variable (key : VarKey) (attributes : BitVec 32)

/-- The signers are those whose certificates, or the digest of them, were stored for the variable.
-/
def signersMatch (signers : Signers) : Option Bool :=
  (getCertsFromDb env fuel s key attributes).map fun certs =>
    if certs.1.isError then false
    else if certs.2.length = 32 then
      env.signChainDigest (signerCert signers.signerCerts) signers.topLevelCert == some certs.2
    else signers.signerCerts == certs.2

/-- The request is signed as the stored certificates of the variable say; those of a new variable
are stored. -/
def verifyPriv (newData : List UInt8) (b : AuthBuffer) (found : Bool) : Option (Bool × AuthState) :=
  match env.pkcs7GetSigners b.sigData with
  | none => some (false, s)
  | some signers =>
    (if found then signersMatch env fuel s key attributes signers else some true).bind fun matching =>
      if !matching then some (false, s)
      else if !env.pkcs7Verify b.sigData signers.topLevelCert newData then some (false, s)
      else if !found && b.payloadSize != 0 then
        (insertCertsToDb env fuel s key attributes (signerCert signers.signerCerts)
          signers.topLevelCert).map fun o => (!o.1.isError, o.2)
      else some (true, s)

section

variable (b : AuthBuffer) (type : AuthVarType)

/-- The signature check of a request: an early status, or whether it is verified. -/
def verifySignature (found : Bool) : Option ((EfiStatus ⊕ Bool) × AuthState) :=
  let newData := serialized key attributes b
  match type with
  | .pk => some (.inr (verifyPk env s newData b), s)
  | .kek =>
    match findVariableInfo env s keyExchangeKey with
    | none => some (.inl .notFound, s)
    | some kek =>
      (loop (kekStep (dataMemory env.beyond kek.data)
          fun cert => env.pkcs7Verify b.sigData cert newData) fuel
        (kek.data.length % 2 ^ 32, 0)).join.map fun verified => (.inr verified, s)
  | .priv =>
    (verifyPriv env fuel s key attributes newData b found).map fun o => (.inr o.1, o.2)
  | .payload =>
    some (.inr (env.pkcs7Verify b.sigData (firstCertificate b.payloadMemory) newData), s)

def verifyTimeBasedPayload (orgTimeStamp : Option EfiTime) : Option (EfiStatus × AuthState) :=
  let isAppend := hasAttribute attributes efiVariableAppendWrite
  if isPadded b.timeStamp then some (.securityViolation, s)
  else if !isAppend && orgTimeStamp.any (compareTimeStamp b.timeStamp) then
    some (.securityViolation, s)
  else if b.wCertificateType ≠ 0x0EF1 ∨ b.certType ≠ gEfiCertPkcs7Guid then
    some (.securityViolation, s)
  else if hasAttribute attributes efiVariableTimeBasedAuthenticatedWriteAccess && isOtherDigest b then
    some (.securityViolation, s)
  else if b.payloadSize = 0 ∧ isAppend = false ∧ env.variablePolicyEnabled = false then
    (checkFormat env fuel key b.payloadMemory b.payloadSize).map fun status => (status, s)
  else if env.scratchBufferSize < (serialized key attributes b).length then
    some (.outOfResources, s)
  else
    match verifySignature env fuel s key attributes b type orgTimeStamp.isSome with
    | none => none
    | some (.inl status, s₁) => some (status, s₁)
    | some (.inr false, s₁) => some (.securityViolation, s₁)
    | some (.inr true, s₁) =>
      (checkFormat env fuel key b.payloadMemory b.payloadSize).map fun status => (status, s₁)

/-- `VerifyTimeBasedPayloadAndUpdate`: the status, `VarDel` and the state. -/
def verifyTimeBasedPayloadAndUpdate : Option (EfiStatus × Bool × AuthState) :=
  let org := findVariableInfo env s key
  let orgTimeStamp := if env.driver.authFormat then org.map VarRecord.timeStamp else none
  match verifyTimeBasedPayload env fuel s key attributes b type orgTimeStamp with
  | none => none
  | some (status, s₁) =>
    if status.isError then some (status, false, s₁)
    else
      let isDel := org.isSome && b.payloadSize == 0 &&
        !hasAttribute attributes efiVariableAppendWrite
      match updateVariableWithTimeStamp env fuel s₁ key b.payloadMemory b.payloadSize attributes
          b.timeStamp with
      | none => none
      | some (status, s₂) =>
        if isDel && type == .priv && !status.isError then
          (deleteCertsFromDb env fuel s₂ key attributes).map fun o =>
            (o.1, isDel && !o.1.isError, o.2)
        else some (status, isDel && !status.isError, s₂)

end

end

/-! ## Secure Boot variables -/

/-- The attributes are those of a non-volatile variable with time-based authentication. -/
def isTimeBasedNv (attributes : BitVec 32) : Bool :=
  hasAttribute attributes efiVariableNonVolatile &&
    hasAttribute attributes efiVariableTimeBasedAuthenticatedWriteAccess

/-- Custom mode with a physically present user. -/
def isCustomPresent : Bool := inCustomMode env s && env.userPhysicalPresent

/-- A request without authentication. The vendor keys count as modified where `modifies` says so. -/
def updateUnverified (key : VarKey) (attributes : BitVec 32) (b : AuthBuffer) (modifies : Bool) :
    Option (EfiStatus × AuthState) :=
  match checkFormat env fuel key b.payloadMemory b.payloadSize with
  | none => none
  | some status =>
    if status.isError then some (status, s)
    else
      (updateVariableWithTimeStamp env fuel s key b.payloadMemory b.payloadSize attributes
        b.timeStamp).map fun o =>
          if o.1.isError then o else if modifies then vendorKeyIsModified env o.2 else o

/-- The end of `ProcessVarWithPk` for PK: the platform mode follows. -/
def followPk (isPk : Bool) (status : EfiStatus) (del : Bool) : EfiStatus × AuthState :=
  if !status.isError && isPk then
    if s.platformMode = .setup ∧ del = false then updatePlatformMode env s .user
    else if s.platformMode = .user ∧ del = true then updatePlatformMode env s .setup
    else (status, s)
  else (status, s)

def processVarWithPk (key : VarKey) (attributes : BitVec 32) (b : AuthBuffer) (isPk : Bool) :
    Option (EfiStatus × AuthState) :=
  if !isTimeBasedNv attributes then some (.invalidParameter, s)
  else if isCustomPresent env s || (s.platformMode == .setup && !isPk) then
    (updateUnverified env fuel s key attributes b (s.platformMode != .setup || isPk)).map fun o =>
      followPk env o.2 isPk o.1 (b.payloadSize == 0)
  else
    (verifyTimeBasedPayloadAndUpdate env fuel s key attributes b
      (if s.platformMode = .user then .pk else .payload)).map fun o =>
        followPk env o.2.2 isPk o.1 o.2.1

def processVarWithKek (key : VarKey) (attributes : BitVec 32) (b : AuthBuffer) :
    Option (EfiStatus × AuthState) :=
  if !isTimeBasedNv attributes then some (.invalidParameter, s)
  else if s.platformMode == .user && !isCustomPresent env s then
    (verifyTimeBasedPayloadAndUpdate env fuel s key attributes b .kek).map fun o => (o.1, o.2.2)
  else updateUnverified env fuel s key attributes b (s.platformMode != .setup)

/-! ## Other variables -/

def authInfoSize : ℕ := 560

def isDeleteAuthVariable (orgAttributes : BitVec 32) (b : AuthBuffer) (attributes : BitVec 32) :
    Bool :=
  attributes == orgAttributes && hasAttribute attributes variableAttributeAtAw &&
    (if hasAttribute attributes efiVariableTimeBasedAuthenticatedWriteAccess then b.payloadSize == 0
    else b.dataSize == authInfoSize)

def needPhysicallyPresent (key : VarKey) : Bool :=
  env.variablePolicyEnabled && (key == secureBootEnableKey || key == customModeKey)

/-- `ProcessVariable`, of a request with an authentication descriptor. -/
def processVariable (key : VarKey) (attributes : BitVec 32) (b : AuthBuffer) :
    Option (EfiStatus × AuthState) :=
  let org := findVariableInfo env s key
  let isTimeBased := hasAttribute attributes efiVariableTimeBasedAuthenticatedWriteAccess
  if org.any (fun r => isDeleteAuthVariable r.attributes b attributes) &&
      (env.userPhysicalPresent || !env.variablePolicyEnabled) then
    let o := updateVariableInfo env s ⟨key, [], 0#32, none⟩
    if !o.1.isError && isTimeBased then deleteCertsFromDb env fuel o.2 key attributes else some o
  else if needPhysicallyPresent env key && !env.userPhysicalPresent then
    some (.securityViolation, s)
  else if hasAttribute attributes efiVariableAuthenticatedWriteAccess then some (.unsupported, s)
  else if isTimeBased then
    (verifyTimeBasedPayloadAndUpdate env fuel s key attributes b .priv).map fun o => (o.1, o.2.2)
  else if org.any (fun r => hasAttribute r.attributes variableAttributeAtAw) then
    some (.writeProtected, s)
  else
    some (updateVariableInfo env s ⟨key, bytesAt b.data 0 b.dataSize, attributes, none⟩)

/-- `AuthVariableLibProcessVariable`: PK and KEK are checked with PK, db, dbx and dbt with KEK where
PK does not do, and every other variable with the certificates stored for it. -/
def authVariableLibProcessVariable (key : VarKey) (attributes : BitVec 32) (b : AuthBuffer) :
    Option (EfiStatus × AuthState) :=
  if isPlatformKey key.1 key.2 then processVarWithPk env fuel s key attributes b true
  else if isKeyExchangeKey key.1 key.2 then processVarWithPk env fuel s key attributes b false
  else if isImageDatabase key.1 key.2 then
    match processVarWithPk env fuel s key attributes b false with
    | none => none
    | some (status, s₁) =>
      if status.isError then processVarWithKek env fuel s₁ key attributes b
      else some (status, s₁)
  else processVariable env fuel s key attributes b

end Service

end Edk2.Auth
