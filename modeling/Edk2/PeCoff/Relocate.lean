import Edk2.Lib.Adjust
import Edk2.Lib.Loop
import Edk2.Lib.Word

/-!
# Relocation of a loaded image

`PeCoffLoaderRelocateImage` and `PeCoffLoaderRelocateImageForRuntime` of `BasePeCoff.c`. Both run
through the blocks of the relocation directory and add an amount to the fields that the records of a
block name. The first pass notes what it has written in the `FixupData` log; the second one, which
is given that log, leaves out the fields that no longer hold what was noted.

The log is a buffer of its own, so it is kept apart from the memory with the image. Addresses are
those of a 64-bit build. A pass that fails an `ASSERT` has no result.
-/

namespace Edk2.PeCoff

/-- The fields of `PE_COFF_LOADER_IMAGE_CONTEXT` that relocation uses. -/
structure ImageContext where
  imageAddress : ℕ
  imageSize : ℕ
  destinationAddress : ℕ
  entryPoint : ℕ
  peCoffHeaderOffset : ℕ
  isTeImage : Bool
  relocationsStripped : Bool
  fixupData : Option ℕ
  fixupDataSize : ℕ
  deriving DecidableEq, Repr

/-- The `RETURN_STATUS` values of relocation. -/
inductive LoaderStatus
  | success
  | loadError
  | unsupported
  deriving DecidableEq, Repr

inductive ImageError
  | success
  | invalidImageAddress
  | failedRelocation
  deriving DecidableEq, Repr

/-! ## Headers -/

section Headers

variable (ctx : ImageContext) (m : Memory)

/-- The optional header of a PE image, behind the signature and the file header. -/
def optionalHeader : ℕ := ctx.imageAddress + ctx.peCoffHeaderOffset + 24

/-- `Magic` is `EFI_IMAGE_NT_OPTIONAL_HDR32_MAGIC`. -/
def isPe32 : Bool := le m (optionalHeader ctx) 2 = 0x10b

/-- `(UINT32) Hdr.Te->StrippedSize - sizeof (EFI_TE_IMAGE_HEADER)`, which is zero for a PE image. -/
def teStrippedOffset : ℕ :=
  if ctx.isTeImage then sub32 (le m (ctx.imageAddress + 6) 2) 40 else 0

/-- The base address that the image is linked for at present. -/
def linkedBase : ℕ :=
  if ctx.isTeImage then
    add64 (le m (ctx.imageAddress + 16) 8) (teStrippedOffset ctx m)
  else if isPe32 ctx m then le m (optionalHeader ctx + 28) 4
  else le m (optionalHeader ctx + 24) 8

/-- `ImageBase` of the header set for the base address `base`. -/
def setImageBase (base : ℕ) : Memory :=
  if ctx.isTeImage then
    storeBytes m (ctx.imageAddress + 16) (leBytes 8 (sub64 base (teStrippedOffset ctx m)))
  else if isPe32 ctx m then storeBytes m (optionalHeader ctx + 28) (leBytes 4 base)
  else storeBytes m (optionalHeader ctx + 24) (leBytes 8 base)

/-- `NumberOfRvaAndSizes` of a PE image. -/
def numberOfRvaAndSizes : ℕ :=
  if isPe32 ctx m then le m (optionalHeader ctx + 92) 4 else le m (optionalHeader ctx + 108) 4

/-- `EFI_IMAGE_DIRECTORY_ENTRY_BASERELOC`. -/
def directoryEntryBaseReloc : ℕ := 5

def relocDir : ℕ :=
  if ctx.isTeImage then ctx.imageAddress + 24
  else if isPe32 ctx m then optionalHeader ctx + 96 + 8 * directoryEntryBaseReloc
  else optionalHeader ctx + 112 + 8 * directoryEntryBaseReloc

def baseAddress : ℕ :=
  if ctx.destinationAddress ≠ 0 then ctx.destinationAddress else ctx.imageAddress

end Headers

/-- `PeCoffLoaderImageAddress`, for an image of `imageSize` bytes at `base`. -/
def imageAddress (base imageSize address stripped : ℕ) : Option ℕ :=
  if add64 imageSize stripped ≤ address then none
  else some (sub64 (add64 base address) stripped)

/-! ## Records -/

/-- The types of relocation records that the loader handles. -/
inductive RelocType
  | absolute
  | high
  | low
  | highLow
  | dir64
  deriving DecidableEq, Repr

/-- The type of a record by its number; the others are left to `PeCoffLoaderRelocateImageEx`, which
supports none. -/
def relocType : ℕ → Option RelocType
  | 0 => some .absolute
  | 1 => some .high
  | 2 => some .low
  | 3 => some .highLow
  | 10 => some .dir64
  | _ => none

namespace RelocType

def width : RelocType → ℕ
  | absolute => 0
  | high => 2
  | low => 2
  | highLow => 4
  | dir64 => 8

/-- What is added to the field when the image moves by `adjust`. -/
def amount (adjust : ℕ) : RelocType → ℕ
  | absolute => 0
  | high => adjust % 2 ^ 32 / 2 ^ 16
  | low => adjust % 2 ^ 16
  | highLow => adjust % 2 ^ 32
  | dir64 => adjust

def logAlign : RelocType → ℕ
  | absolute => 1
  | high => 1
  | low => 1
  | highLow => 4
  | dir64 => 8

end RelocType

def alignPointer (p k : ℕ) : ℕ := p + (k - p % k) % k

/-- A relocation record: its type and the place of its field. -/
structure Record where
  type : RelocType
  place : ℕ
  deriving DecidableEq, Repr

namespace Record

def width (r : Record) : ℕ := r.type.width

def amount (adjust : ℕ) (r : Record) : ℕ := r.type.amount adjust

end Record

/-! ## Passes -/

/-- The directory a pass runs through. -/
structure Directory where
  imageAddress : ℕ
  imageSize : ℕ
  stripped : ℕ
  /-- `RelocBaseOrg`. -/
  start : ℕ
  /-- `RelocBaseEnd`. -/
  last : ℕ
  /-- `RelocDir->Size`. -/
  size : ℕ
  deriving DecidableEq, Repr

/-- The loaded address of a field of the image. -/
def Directory.address (d : Directory) (va : ℕ) : Option ℕ :=
  PeCoff.imageAddress d.imageAddress d.imageSize va d.stripped

/-- What a pass does with a memory that it sees by `view`: the check of a block, and a record. -/
structure Pass (σ : Type) where
  view : σ → Memory
  check : Directory → ℕ → ℕ → Bool
  fix : Record → σ → σ

section Pass

variable {σ : Type} (pass : Pass σ) (d : Directory)

/-- The `n` records at `reloc` of a block for the page at `va`. -/
def runRecords (va : ℕ) : ℕ → ℕ → σ → σ × Option LoaderStatus
  | 0, _, s => (s, none)
  | n + 1, reloc, s =>
    match d.address (add32 va (le (pass.view s) reloc 2 % 4096)) with
    | none => (s, some .loadError)
    | some place =>
      match relocType (le (pass.view s) reloc 2 / 4096) with
      | none => (s, some .unsupported)
      | some type => runRecords va n (reloc + 2) (pass.fix ⟨type, place⟩ s)

/-- The number of rounds from `RelocBase + sizeof (EFI_IMAGE_BASE_RELOCATION)` to `RelocEnd`. -/
def recordCount (sizeOfBlock : ℕ) : ℕ := (sizeOfBlock - 8 + 1) / 2

/-- A round of the loop over the blocks, at `RelocBase`. It ends with an error, or none. -/
def blockStep (s : σ × ℕ) : σ × ℕ ⊕ σ × Option LoaderStatus :=
  let va := le (pass.view s.1) s.2 4
  let sizeOfBlock := le (pass.view s.1) (s.2 + 4) 4
  if d.last ≤ s.2 then .inr (s.1, none)
  else if !pass.check d s.2 sizeOfBlock then .inr (s.1, some .loadError)
  else
    match d.address va with
    | none => .inr (s.1, some .loadError)
    | some _ =>
      match runRecords pass d va (recordCount sizeOfBlock) (s.2 + 8) s.1 with
      | (s', some e) => .inr (s', some e)
      | (s', none) => .inl (s', add64 s.2 sizeOfBlock)

end Pass

/-! ## The first pass -/

structure Relocating where
  mem : Memory
  log : Memory
  fixupData : Option ℕ

/-- The check of a block by the first pass. -/
def checkBlock (d : Directory) (relocBase sizeOfBlock : ℕ) : Bool :=
  if sizeOfBlock = 0 then false
  else if 2 ^ 64 - 1 - sizeOfBlock < relocBase then false
  else if add64 d.start d.size < add64 relocBase sizeOfBlock then false
  else true

/-- A record in the first pass. -/
def fixRecord (adjust : ℕ) (r : Record) (s : Relocating) : Relocating :=
  let mem := Edk2.adjust s.mem r.place r.width (r.amount adjust)
  match s.fixupData with
  | none => { s with mem := mem }
  | some p =>
    let p := alignPointer p r.type.logAlign
    { mem := mem
      log := storeBytes s.log p (leBytes r.width (le mem r.place r.width))
      fixupData := some (p + r.width) }

def firstPass (adjust : ℕ) : Pass Relocating := ⟨Relocating.mem, checkBlock, fixRecord adjust⟩

/-- What `PeCoffLoaderRelocateImage` returns and leaves. -/
structure Relocated where
  status : LoaderStatus
  imageError : ImageError
  entryPoint : ℕ
  mem : Memory
  log : Memory

section

variable (ctx : ImageContext)

/-- The relocation directory of the image, if any, or an error. -/
def findDirectory (m : Memory) : Except ImageError (Option Directory) :=
  let dir := relocDir ctx m
  let va := le m dir 4
  let size := le m (dir + 4) 4
  let stripped := teStrippedOffset ctx m
  if !ctx.isTeImage && numberOfRvaAndSizes ctx m < directoryEntryBaseReloc then .ok none
  else if size = 0 then .ok none
  else
    match imageAddress ctx.imageAddress ctx.imageSize va stripped,
        imageAddress ctx.imageAddress ctx.imageSize (sub32 (add32 va size) 1) stripped with
    | some start, some last =>
      if start = 0 ∨ last = 0 ∨ last < start then .error .failedRelocation
      else .ok (some ⟨ctx.imageAddress, ctx.imageSize, stripped, start, last, size⟩)
    | _, _ => .error .failedRelocation

def movedEntryPoint : ℕ :=
  if ctx.destinationAddress ≠ 0 then
    add64 (sub64 ctx.entryPoint ctx.imageAddress) ctx.destinationAddress
  else ctx.entryPoint

/-- How the first pass ends behind its loop, with the `ASSERT` that the log fits its buffer. -/
def finish : Relocating × Option LoaderStatus → Option Relocated
  | (s, none) =>
    if s.fixupData.getD 0 ≤ add64 (ctx.fixupData.getD 0) ctx.fixupDataSize then
      some ⟨.success, .success, movedEntryPoint ctx, s.mem, s.log⟩
    else none
  | (s, some e) => some ⟨e, .failedRelocation, ctx.entryPoint, s.mem, s.log⟩

/-- `PeCoffLoaderRelocateImage`. -/
def relocateImage (m log : Memory) (fuel : ℕ) : Option Relocated :=
  if ctx.relocationsStripped then some ⟨.success, .success, ctx.entryPoint, m, log⟩
  else
    let adjust := sub64 (baseAddress ctx) (linkedBase ctx m)
    let mem := if adjust = 0 then m else setImageBase ctx m (baseAddress ctx)
    match findDirectory ctx mem with
    | .error e => some ⟨.loadError, e, ctx.entryPoint, mem, log⟩
    | .ok dir =>
      if adjust = 0 then some ⟨.success, .success, ctx.entryPoint, mem, log⟩
      else
        match dir with
        | none => finish ctx (⟨mem, log, ctx.fixupData⟩, none)
        | some d =>
          (loop (blockStep (firstPass adjust) d) fuel (⟨mem, log, ctx.fixupData⟩, d.start)).bind
            (finish ctx)

end

/-! ## The runtime pass -/

structure Revisiting where
  mem : Memory
  fixupData : ℕ

/-- The check of a block by the runtime pass. -/
def checkBlockForRuntime (d : Directory) (relocBase sizeOfBlock : ℕ) : Bool :=
  if sizeOfBlock = 0 ∨ d.size < sizeOfBlock then false
  else if add64 d.start d.size < add64 relocBase sizeOfBlock then false
  else true

/-- A record in the runtime pass: a field that holds what was noted is adjusted. -/
def refixRecord (adjust : ℕ) (log : Memory) (r : Record) (s : Revisiting) : Revisiting :=
  let p := alignPointer s.fixupData r.type.logAlign
  { mem :=
      if le log p r.width = le s.mem r.place r.width then
        Edk2.adjust s.mem r.place r.width (r.amount adjust)
      else s.mem
    fixupData := p + r.width }

def runtimePass (adjust : ℕ) (log : Memory) : Pass Revisiting :=
  ⟨Revisiting.mem, checkBlockForRuntime, refixRecord adjust log⟩

/-- `EFI_IMAGE_DOS_SIGNATURE`. -/
def dosSignature : ℕ := 0x5a4d

/-- `EFI_IMAGE_NT_SIGNATURE`. -/
def ntSignature : ℕ := 0x4550

/-- The offset of the PE header, by the DOS header if there is one. -/
def headerOffset (m : Memory) (imageBase : ℕ) : ℕ :=
  if le m imageBase 2 = dosSignature then le m (imageBase + 0x3c) 4 else 0

/-- The context that the runtime pass sets up. -/
def runtimeContext (m : Memory) (imageBase imageSize : ℕ) : ImageContext :=
  { imageAddress := imageBase, imageSize := imageSize, destinationAddress := 0, entryPoint := 0
    peCoffHeaderOffset := headerOffset m imageBase, isTeImage := false
    relocationsStripped := false, fixupData := none, fixupDataSize := 0 }

/-- `PeCoffLoaderRelocateImageForRuntime`: the memory afterwards. An image with too few directory
entries fails the `ASSERT`. -/
def relocateImageForRuntime (imageBase virtImageBase imageSize : ℕ) (relocationData : Option ℕ)
    (m log : Memory) (fuel : ℕ) : Option Memory :=
  match relocationData with
  | none => some m
  | some data =>
    let ctx := runtimeContext m imageBase imageSize
    let adjust := sub64 virtImageBase imageBase
    if imageBase = 0 ∨ virtImageBase = 0 then some m
    else if le m (imageBase + headerOffset m imageBase) 4 ≠ ntSignature then some m
    else if numberOfRvaAndSizes ctx m ≤ directoryEntryBaseReloc then none
    else
      match findDirectory ctx m with
      | .error _ => some m
      | .ok none => some m
      | .ok (some d) =>
        if adjust = 0 then some m
        else
          (loop (blockStep (runtimePass adjust log) d) fuel (⟨m, data⟩, d.start)).map
            fun r => r.1.mem

end Edk2.PeCoff
