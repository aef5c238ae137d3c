import Mathlib.Data.List.Basic
import Mathlib.Data.List.GetD
import Mathlib.Data.List.Nodup
import Mathlib.Logic.Function.Basic
import Mathlib.Tactic.Ring

/-!
# Byte memories

A memory is a function from addresses to bytes. Numbers are read from it little-endian, a region is
read as a list of bytes, and `copyMem` writes one region of a memory over another.

## Main results

* `le_congr`, `bytesAt_congr`: a read depends on the bytes of its region only
* `take_bytesAt`, `drop_bytesAt`: the parts of a region
* `bytesAt_copyMem`, `bytesAt_copyMem_of_disjoint`: what a copy writes, and what it leaves
* `bytesAt_storeBytes`, `storeBytes_of_lt`, `storeBytes_of_le`: the same of a list of bytes
* `le_storeBytes`, `le_storeBytes_of_disjoint`: the same of a number
* `update_storeBytes`, `storeBytes_append`: one more byte, and more bytes
* `copyMem_eq_storeBytes`: a copy within one memory
-/

namespace Edk2

open List Option

abbrev Memory := ℕ → UInt8

/-- The little-endian number in the `n` bytes at `a`. -/
def le (m : Memory) : ℕ → ℕ → ℕ
  | _, 0 => 0
  | a, n + 1 => (m a).toNat + 256 * le m (a + 1) n

/-- The `n` bytes at `a`. -/
def bytesAt (m : Memory) : ℕ → ℕ → List UInt8
  | _, 0 => []
  | a, n + 1 => m a :: bytesAt m (a + 1) n

/-- The `n` lowest bytes of a number, little-endian. -/
def leBytes : ℕ → ℕ → List UInt8
  | 0, _ => []
  | n + 1, x => UInt8.ofNat x :: leBytes n (x / 256)

/-- `CopyMem`: the `n` bytes of `src` at `s` replace those of `dst` at `d`. -/
def copyMem (dst : Memory) (d : ℕ) (src : Memory) (s n : ℕ) : Memory :=
  fun a => if d ≤ a ∧ a < d + n then src (s + (a - d)) else dst a

/-- The memory with the bytes `bs` at `a`. -/
def storeBytes (m : Memory) (a : ℕ) (bs : List UInt8) : Memory :=
  fun x => if a ≤ x ∧ x < a + bs.length then bs.getD (x - a) 0 else m x

variable {m m' : Memory} {a b n : ℕ}

/-! ## Reads -/

theorem le_lt (m : Memory) (a n : ℕ) : le m a n < 256 ^ n := by
  induction n generalizing a with
  | zero => exact Nat.one_pos
  | succ n ih =>
    have hb := (m a).toNat_lt
    have hr := ih (a + 1)
    rw [le]
    omega

theorem le_congr (h : ∀ i < n, m (a + i) = m' (b + i)) : le m a n = le m' b n := by
  induction n generalizing a b with
  | zero => rfl
  | succ n ih =>
    have hh := h 0 (Nat.succ_pos n)
    have htail : le m (a + 1) n = le m' (b + 1) n := ih fun i hi => by
      have := h (i + 1) (Nat.succ_lt_succ hi)
      rwa [← add_assoc, add_right_comm, ← add_assoc, add_right_comm b] at this
    rw [add_zero, add_zero] at hh
    rw [le, le, hh, htail]

@[simp] theorem length_bytesAt (m : Memory) (a n : ℕ) : (bytesAt m a n).length = n := by
  induction n generalizing a with
  | zero => rfl
  | succ n ih => rw [bytesAt, length_cons, ih]

theorem getElem?_bytesAt {i : ℕ} (h : i < n) : (bytesAt m a n)[i]? = some (m (a + i)) := by
  induction n generalizing a i with
  | zero => exact absurd h (Nat.not_lt_zero i)
  | succ n ih =>
    cases i with
    | zero => rfl
    | succ i =>
      rw [bytesAt, List.getElem?_cons_succ, ih (Nat.lt_of_succ_lt_succ h), add_assoc,
        add_comm 1 i]

theorem bytesAt_eq_iff : bytesAt m a n = bytesAt m' b n ↔ ∀ i < n, m (a + i) = m' (b + i) := by
  constructor
  · intro h i hi
    have := congrArg (·[i]?) h
    simp only [getElem?_bytesAt hi] at this
    exact some.inj this
  · intro h
    refine ext_getElem? fun i => ?_
    by_cases hi : i < n
    · rw [getElem?_bytesAt hi, getElem?_bytesAt hi, h i hi]
    · have hle := Nat.le_of_not_lt hi
      rw [List.getElem?_eq_none (by rwa [length_bytesAt]),
        List.getElem?_eq_none (by rwa [length_bytesAt])]

theorem bytesAt_congr (h : ∀ i < n, m (a + i) = m' (b + i)) : bytesAt m a n = bytesAt m' b n :=
  bytesAt_eq_iff.mpr h

theorem bytesAt_add (m : Memory) (a n k : ℕ) :
    bytesAt m a (n + k) = bytesAt m a n ++ bytesAt m (a + n) k := by
  induction n generalizing a with
  | zero => rw [zero_add, add_zero, bytesAt, nil_append]
  | succ n ih =>
    rw [add_right_comm, bytesAt, bytesAt, ih, cons_append, add_assoc, add_comm 1 n]

theorem take_bytesAt {k : ℕ} (h : k ≤ n) : (bytesAt m a n).take k = bytesAt m a k := by
  have hs := bytesAt_add m a k (n - k)
  rw [Nat.add_sub_cancel' h] at hs
  rw [hs]
  exact take_left' (length_bytesAt m a k)

theorem drop_bytesAt {k : ℕ} (h : k ≤ n) :
    (bytesAt m a n).drop k = bytesAt m (a + k) (n - k) := by
  have hs := bytesAt_add m a k (n - k)
  rw [Nat.add_sub_cancel' h] at hs
  rw [hs]
  exact drop_left' (length_bytesAt m a k)

theorem le_eq_of_bytesAt {k i : ℕ} (h : bytesAt m a n = bytesAt m' b n) (hik : i + k ≤ n) :
    le m (a + i) k = le m' (b + i) k := by
  refine le_congr fun j hj => ?_
  rw [add_assoc, add_assoc]
  exact bytesAt_eq_iff.mp h (i + j) (by omega)

theorem bytesAt_eq_of_bytesAt {k i : ℕ} (h : bytesAt m a n = bytesAt m' b n) (hik : i + k ≤ n) :
    bytesAt m (a + i) k = bytesAt m' (b + i) k := by
  refine bytesAt_congr fun j hj => ?_
  rw [add_assoc, add_assoc]
  exact bytesAt_eq_iff.mp h (i + j) (by omega)

/-! ## Copies -/

section Copy

variable {dst src : Memory} {d s k : ℕ}

theorem copyMem_of_lt (h : a < d) : copyMem dst d src s n a = dst a := by
  rw [copyMem, if_neg (by omega)]

theorem copyMem_of_le (h : d + n ≤ a) : copyMem dst d src s n a = dst a := by
  rw [copyMem, if_neg (by omega)]

theorem copyMem_of_mem {i : ℕ} (h : i < n) : copyMem dst d src s n (d + i) = src (s + i) := by
  rw [copyMem, if_pos (by omega), Nat.add_sub_cancel_left]

/-- The region a copy writes holds the bytes of its source. -/
theorem bytesAt_copyMem : bytesAt (copyMem dst d src s n) d n = bytesAt src s n :=
  bytesAt_congr fun _ => copyMem_of_mem

/-- A region outside the copy is as before. -/
theorem bytesAt_copyMem_of_disjoint (h : a + k ≤ d ∨ d + n ≤ a) :
    bytesAt (copyMem dst d src s n) a k = bytesAt dst a k := by
  refine bytesAt_congr fun i hi => ?_
  rcases h with h | h
  · exact copyMem_of_lt (by omega)
  · exact copyMem_of_le (by omega)

end Copy

/-! ## Lists of bytes -/

section Store

variable {bs : List UInt8} {x : ℕ}

theorem storeBytes_of_lt (h : x < a) : storeBytes m a bs x = m x := by
  rw [storeBytes, if_neg (by omega)]

theorem storeBytes_of_le (h : a + bs.length ≤ x) : storeBytes m a bs x = m x := by
  rw [storeBytes, if_neg (by omega)]

theorem storeBytes_of_not (h : ¬ (a ≤ x ∧ x < a + bs.length)) : storeBytes m a bs x = m x := by
  rw [storeBytes, if_neg h]

@[simp] theorem storeBytes_nil (m : Memory) (a : ℕ) : storeBytes m a [] = m := by
  ext x
  rw [storeBytes, if_neg (by simp)]

/-- The region written holds the bytes. -/
theorem bytesAt_storeBytes (m : Memory) (a : ℕ) (bs : List UInt8) :
    bytesAt (storeBytes m a bs) a bs.length = bs := by
  refine ext_getElem? fun i => ?_
  by_cases hi : i < bs.length
  · rw [getElem?_bytesAt hi, storeBytes, if_pos (by omega), Nat.add_sub_cancel_left,
      getD_eq_getElem?_getD, List.getElem?_eq_getElem hi, Option.getD_some]
  · have hle := Nat.le_of_not_lt hi
    rw [List.getElem?_eq_none (by rwa [length_bytesAt]), List.getElem?_eq_none hle]

/-- Bytes written behind the bytes so far are more bytes. -/
theorem storeBytes_append (m : Memory) (a : ℕ) (bs cs : List UInt8) :
    storeBytes (storeBytes m a bs) (a + bs.length) cs = storeBytes m a (bs ++ cs) := by
  ext x
  simp only [storeBytes, length_append]
  by_cases hlt : x < a + bs.length
  · rw [if_neg (by omega)]
    by_cases hle : a ≤ x
    · rw [if_pos ⟨hle, hlt⟩, if_pos (by omega), getD_append _ _ _ _ (by omega)]
    · rw [if_neg (by omega), if_neg (by omega)]
  · rw [if_neg (by omega : ¬ (a ≤ x ∧ x < a + bs.length))]
    by_cases hin : x < a + (bs.length + cs.length)
    · rw [if_pos (by omega), if_pos (by omega), getD_append_right _ _ _ _ (by omega),
        Nat.sub_sub]
    · rw [if_neg (by omega), if_neg (by omega)]

@[simp] theorem length_leBytes (n x : ℕ) : (leBytes n x).length = n := by
  induction n generalizing x with
  | zero => rfl
  | succ n ih => rw [leBytes, length_cons, ih]

theorem le_of_bytesAt (h : bytesAt m a n = leBytes n x) : le m a n = x % 256 ^ n := by
  induction n generalizing a x with
  | zero => exact (Nat.mod_one x).symm
  | succ n ih =>
    rw [bytesAt, leBytes, List.cons.injEq] at h
    have hb : (UInt8.ofNat x).toNat = x % 256 := rfl
    rw [le, ih h.2, h.1, hb, pow_succ', Nat.mod_mul]

/-- A number written is the number read. -/
theorem le_storeBytes (m : Memory) (a n x : ℕ) :
    le (storeBytes m a (leBytes n x)) a n = x % 256 ^ n := by
  refine le_of_bytesAt ?_
  have h := bytesAt_storeBytes m a (leBytes n x)
  rwa [length_leBytes] at h

/-- A number outside the bytes written is as before. -/
theorem le_storeBytes_of_disjoint {k : ℕ} (h : b + k ≤ a ∨ a + bs.length ≤ b) :
    le (storeBytes m a bs) b k = le m b k := by
  refine le_congr fun i hi => ?_
  rcases h with h | h
  · exact storeBytes_of_lt (by omega)
  · exact storeBytes_of_le (by omega)

theorem bytesAt_storeBytes_of_disjoint {k : ℕ} (h : b + k ≤ a ∨ a + bs.length ≤ b) :
    bytesAt (storeBytes m a bs) b k = bytesAt m b k := by
  refine bytesAt_congr fun i hi => ?_
  rcases h with h | h
  · exact storeBytes_of_lt (by omega)
  · exact storeBytes_of_le (by omega)

theorem bytesAt_storeBytes_congr {k : ℕ} (h : bytesAt m a n = bytesAt m' b n) (bs : List UInt8) :
    bytesAt (storeBytes m (a + k) bs) a n = bytesAt (storeBytes m' (b + k) bs) b n := by
  refine bytesAt_congr fun i hi => ?_
  have hb := bytesAt_eq_iff.mp h i hi
  rw [storeBytes, storeBytes, hb, Nat.add_sub_add_left, Nat.add_sub_add_left]
  by_cases hin : k ≤ i ∧ i < k + bs.length
  · rw [if_pos (by omega), if_pos (by omega)]
  · rw [if_neg (by omega), if_neg (by omega)]

/-- A copy writes the bytes of its source. -/
theorem copyMem_eq_storeBytes (m : Memory) (d s n : ℕ) :
    copyMem m d m s n = storeBytes m d (bytesAt m s n) := by
  ext x
  rw [copyMem, storeBytes, length_bytesAt]
  split
  · rw [getD_eq_getElem?_getD, getElem?_bytesAt (by omega), Option.getD_some]
  · rfl

/-- A byte written behind the bytes so far is one byte more. -/
theorem update_storeBytes (m : Memory) (a : ℕ) (bs : List UInt8) (v : UInt8) :
    Function.update (storeBytes m a bs) (a + bs.length) v = storeBytes m a (bs ++ [v]) := by
  rw [← storeBytes_append]
  generalize storeBytes m a bs = m
  funext x
  by_cases hx : x = a + bs.length
  · subst hx
    simp [storeBytes]
  · rw [Function.update_of_ne hx, storeBytes_of_not (by rw [length_singleton]; omega)]

end Store

end Edk2
