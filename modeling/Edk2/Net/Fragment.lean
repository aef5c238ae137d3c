import Mathlib.Algebra.BigOperators.Group.List.Basic
import Mathlib.Algebra.Ring.Int.Defs

/-!
# Fragments

What the reassembly of IPv4 and of IPv6 packets shares: the part of a datagram that a packet holds.
-/

namespace Edk2.Net

open List

/-- The fields that `IP4_CLIP_INFO` and `IP6_CLIP_INFO` have in common. -/
structure ClipInfo where
  start : ℤ
  endPos : ℤ
  length : ℤ
  deriving DecidableEq

/-- The cast of a length to `UINT32`. -/
def toUInt32 (len : ℤ) : ℕ := (len % 2 ^ 32).toNat

variable {α : Type*} (info : α → ClipInfo)

/-- The test of the search for the insertion point fails at `f`. -/
def notBehind (p f : α) : Bool := ¬ (info p).start < (info f).start

/-- The lengths of fragments, added up. -/
def lengthsOf (fs : List α) : ℤ := (fs.map fun f => (info f).length).sum

@[simp] theorem lengthsOf_nil : lengthsOf info [] = 0 := rfl

@[simp] theorem lengthsOf_cons (f : α) (fs : List α) :
    lengthsOf info (f :: fs) = (info f).length + lengthsOf info fs := by
  rw [lengthsOf, map_cons, sum_cons, lengthsOf]

@[simp] theorem lengthsOf_append (fs gs : List α) :
    lengthsOf info (fs ++ gs) = lengthsOf info fs + lengthsOf info gs := by
  rw [lengthsOf, map_append, sum_append, lengthsOf, lengthsOf]

end Edk2.Net
