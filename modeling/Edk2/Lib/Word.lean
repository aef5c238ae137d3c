import Mathlib.Algebra.Ring.Nat

/-!
# Unsigned words

Addresses and lengths are natural numbers below `2 ^ 64`, or below `2 ^ 32`; the operations that can
wrap are `add64` and `sub64`, `add32` and `sub32`. Attribute masks are bit vectors.

## Main results

* `add64_of_lt`, `sub64_of_le`, `add32_of_lt`, `sub32_of_le`: no wrap, no difference
* `and_highMask`, `shiftLeft_or_low`, `or_allOnes`: masks that cut a number in two, as arithmetic
-/

namespace Edk2

/-- Addition of unsigned 64-bit values. It does not unfold by itself: no reduction should ever count
down from `2 ^ 64`. -/
@[irreducible] def add64 (a b : ℕ) : ℕ := (a + b) % 2 ^ 64

@[irreducible] def sub64 (a b : ℕ) : ℕ := (a + (2 ^ 64 - b % 2 ^ 64)) % 2 ^ 64

@[irreducible] def add32 (a b : ℕ) : ℕ := (a + b) % 2 ^ 32

@[irreducible] def sub32 (a b : ℕ) : ℕ := (a + (2 ^ 32 - b % 2 ^ 32)) % 2 ^ 32

theorem add64_lt (a b : ℕ) : add64 a b < 2 ^ 64 := by
  unfold add64
  omega

theorem sub64_lt (a b : ℕ) : sub64 a b < 2 ^ 64 := by
  unfold sub64
  omega

theorem add64_of_lt {a b : ℕ} (h : a + b < 2 ^ 64) : add64 a b = a + b := by
  unfold add64
  exact Nat.mod_eq_of_lt h

theorem add64_add64 (a b c : ℕ) : add64 (add64 a b) c = add64 a (b + c) := by
  unfold add64
  omega

theorem sub64_of_le {a b : ℕ} (ha : a < 2 ^ 64) (h : b ≤ a) : sub64 a b = a - b := by
  unfold sub64
  omega

theorem add32_of_lt {a b : ℕ} (h : a + b < 2 ^ 32) : add32 a b = a + b := by
  unfold add32
  exact Nat.mod_eq_of_lt h

theorem sub32_of_le {a b : ℕ} (ha : a < 2 ^ 32) (h : b ≤ a) : sub32 a b = a - b := by
  unfold sub32
  omega

/-! ## Masks -/

/-- The mask of the `k` bits from bit `n` on. -/
theorem and_highMask {x n k : ℕ} (h : x < 2 ^ (n + k)) :
    x &&& (2 ^ k - 1) <<< n = x / 2 ^ n * 2 ^ n := by
  rw [← Nat.shiftRight_eq_div_pow, ← Nat.shiftLeft_eq]
  refine Nat.eq_of_testBit_eq fun i => ?_
  by_cases hn : n ≤ i
  · have hi : n + (i - n) = i := by omega
    by_cases hk : i - n < k
    · simp [hn, hk, hi]
    · have hb : x.testBit i = false :=
        Nat.testBit_lt_two_pow
          (Nat.lt_of_lt_of_le h (Nat.pow_le_pow_right (by omega) (by omega)))
      simp [hb, hi]
  · simp [hn]

/-- A number put above `n` bits, beside what fits into them. -/
theorem shiftLeft_or_low {a b n : ℕ} (h : b < 2 ^ n) : a <<< n ||| b = a * 2 ^ n + b := by
  rw [← Nat.shiftLeft_add_eq_or_of_lt h, Nat.shiftLeft_eq]

/-- With every bit from bit `n` on set, the lower bits are left. -/
theorem or_allOnes {x n k : ℕ} (h : x < 2 ^ (n + k)) :
    x ||| (2 ^ k - 1) <<< n = (2 ^ k - 1) * 2 ^ n + x % 2 ^ n := by
  rw [← shiftLeft_or_low (Nat.mod_lt x (Nat.two_pow_pos n))]
  refine Nat.eq_of_testBit_eq fun i => ?_
  by_cases hn : n ≤ i
  · by_cases hk : i - n < k
    · simp [hn, hk]
    · have hb : x.testBit i = false :=
        Nat.testBit_lt_two_pow
          (Nat.lt_of_lt_of_le h (Nat.pow_le_pow_right (by omega) (by omega)))
      simp [hb]
  · simp [hn, Nat.lt_of_not_le hn]

/-- `m` covers `b`: every bit of `b` is a bit of `m`. -/
def Covers (m b : BitVec 64) : Prop := m &&& b = b

instance (m b : BitVec 64) : Decidable (Covers m b) := inferInstanceAs (Decidable (_ = _))

theorem covers_iff {m b : BitVec 64} :
    Covers m b ↔ ∀ i, b.getLsbD i = true → m.getLsbD i = true := by
  unfold Covers
  rw [BitVec.eq_of_getLsbD_eq_iff]
  constructor
  · intro h i hi
    have hlt := BitVec.lt_of_getLsbD hi
    have := h i hlt
    rw [BitVec.getLsbD_and, hi, Bool.and_true] at this
    exact this
  · intro h i _
    rw [BitVec.getLsbD_and]
    cases hi : b.getLsbD i with
    | false => simp
    | true => simp [h i hi]

namespace Covers

variable {m a b c : BitVec 64}

theorem refl (m : BitVec 64) : Covers m m := BitVec.and_self

theorem zero (m : BitVec 64) : Covers m 0 := BitVec.and_zero

theorem trans (h₁ : Covers a b) (h₂ : Covers b c) : Covers a c :=
  covers_iff.mpr fun i hi => covers_iff.mp h₁ i (covers_iff.mp h₂ i hi)

theorem or (ha : Covers m a) (hb : Covers m b) : Covers m (a ||| b) := by
  refine covers_iff.mpr fun i hi => ?_
  rw [BitVec.getLsbD_or, Bool.or_eq_true] at hi
  exact hi.elim (covers_iff.mp ha i) (covers_iff.mp hb i)

theorem or_right (h : Covers a b) : Covers (a ||| c) b := by
  refine covers_iff.mpr fun i hi => ?_
  rw [BitVec.getLsbD_or, covers_iff.mp h i hi, Bool.true_or]

theorem left_or (h : Covers c b) : Covers (a ||| c) b := by
  rw [BitVec.or_comm]
  exact h.or_right

theorem and_right (a b : BitVec 64) : Covers b (a &&& b) := by
  refine covers_iff.mpr fun i hi => ?_
  rw [BitVec.getLsbD_and, Bool.and_eq_true] at hi
  exact hi.2

theorem and_left (a b : BitVec 64) : Covers a (a &&& b) := by
  rw [BitVec.and_comm]
  exact and_right b a

theorem and (ha : Covers a c) (hb : Covers b c) : Covers (a &&& b) c := by
  refine covers_iff.mpr fun i hi => ?_
  rw [BitVec.getLsbD_and, covers_iff.mp ha i hi, covers_iff.mp hb i hi, Bool.and_self]

theorem or_eq (h : Covers m b) : b ||| m = m := by
  refine BitVec.eq_of_getLsbD_eq fun i _ => ?_
  rw [BitVec.getLsbD_or]
  cases hi : b.getLsbD i with
  | false => rfl
  | true => rw [covers_iff.mp h i hi, Bool.true_or]

end Covers

end Edk2
