import Edk2.Lib.Bytes

/-!
# Fields adjusted in place

A field is a little-endian number of some width at some place. Amounts are added to the fields of a
list, one after the other; over fields that lie apart these additions compose like the amounts.

## Main results

* `adjustAll_adjustAll`: amounts added in two rounds
* `adjustAll_eq_self`: amounts that are zero for the widths of the fields
* `le_adjustAll`, `adjustAll_of_not`: what the fields, and the other bytes, then hold
* `adjustAll_storeBytes`: bytes written outside of the fields
-/

namespace Edk2

open List

variable {m : Memory} {a b w v x y j k : ℕ} {bs cs : List UInt8}

/-! ## Stores -/

/-- No byte is in both the `w` bytes at `a` and the `v` bytes at `b`. -/
def Apart (a w b v : ℕ) : Prop := ∀ x, a ≤ x → x < a + w → x < b ∨ b + v ≤ x

theorem Apart.symm (h : Apart a w b v) : Apart b v a w := by
  intro x hlo hhi
  by_contra hin
  have := h x (by omega) (by omega)
  omega

theorem apart_of_le (h : a + w ≤ b ∨ b + v ≤ a) : Apart a w b v := fun x _ _ => by omega

theorem storeBytes_storeBytes (h : cs.length = bs.length) :
    storeBytes (storeBytes m a bs) a cs = storeBytes m a cs := by
  funext x
  by_cases hx : a ≤ x ∧ x < a + cs.length
  · simp only [storeBytes, hx, and_self, if_true]
  · rw [storeBytes_of_not hx, storeBytes_of_not hx, storeBytes_of_not (by rwa [← h])]

theorem storeBytes_comm (h : Apart a bs.length b cs.length) :
    storeBytes (storeBytes m a bs) b cs = storeBytes (storeBytes m b cs) a bs := by
  funext x
  by_cases hx : a ≤ x ∧ x < a + bs.length
  · have hn := h x hx.1 hx.2
    rw [storeBytes_of_not (by omega), storeBytes, storeBytes, if_pos hx, if_pos hx]
  · unfold storeBytes
    simp only [hx, if_false]

theorem le_storeBytes_of_apart (h : Apart a bs.length b w) :
    le (storeBytes m a bs) b w = le m b w := by
  refine le_congr fun i hi => storeBytes_of_not ?_
  rintro ⟨hlo, hhi⟩
  have := h (b + i) hlo hhi
  omega

theorem leBytes_congr (h : x % 256 ^ w = y % 256 ^ w) : leBytes w x = leBytes w y := by
  induction w generalizing x y with
  | zero => rfl
  | succ w ih =>
    rw [pow_succ'] at h
    have hl : x % 256 = y % 256 := by
      rw [← Nat.mod_mul_right_mod x 256 (256 ^ w), h, Nat.mod_mul_right_mod]
    have hh : x / 256 % 256 ^ w = y / 256 % 256 ^ w := by
      rw [← Nat.mod_mul_right_div_self, h, Nat.mod_mul_right_div_self]
    have hb : UInt8.ofNat x = UInt8.ofNat y := by
      apply UInt8.toNat_inj.mp
      exact hl
    rw [leBytes, leBytes, hb, ih hh]

theorem leBytes_le (m : Memory) (a w : ℕ) : leBytes w (le m a w) = bytesAt m a w := by
  induction w generalizing a with
  | zero => rfl
  | succ w ih =>
    have hb : UInt8.ofNat ((m a).toNat + 256 * le m (a + 1) w) = m a := by
      apply UInt8.toNat_inj.mp
      have := (m a).toNat_lt
      change ((m a).toNat + 256 * le m (a + 1) w) % 256 = _
      omega
    have hr : ((m a).toNat + 256 * le m (a + 1) w) / 256 = le m (a + 1) w := by
      have := (m a).toNat_lt
      omega
    rw [le, leBytes, bytesAt, hb, hr, ih]

theorem storeBytes_le (h : x % 256 ^ w = le m a w) : storeBytes m a (leBytes w x) = m := by
  have hb : leBytes w x = bytesAt m a w := by
    rw [← leBytes_le m a w]
    apply leBytes_congr
    rw [h, Nat.mod_eq_of_lt (le_lt m a w)]
  rw [hb]
  funext y
  rw [storeBytes, length_bytesAt]
  split
  · rename_i hy
    rw [getD_eq_getElem?_getD, getElem?_bytesAt (by omega), Option.getD_some,
      Nat.add_sub_cancel' hy.1]
  · rfl

/-! ## One field -/

/-- The amount `k` added to the field of `w` bytes at `a`. -/
def adjust (m : Memory) (a w k : ℕ) : Memory := storeBytes m a (leBytes w (le m a w + k))

theorem le_adjust (m : Memory) (a w k : ℕ) : le (adjust m a w k) a w = (le m a w + k) % 256 ^ w :=
  le_storeBytes m a w _

theorem adjust_of_not (h : ¬ (a ≤ x ∧ x < a + w)) : adjust m a w k x = m x :=
  storeBytes_of_not (by rwa [length_leBytes])

theorem le_adjust_of_apart (h : Apart a w b v) : le (adjust m a w k) b v = le m b v :=
  le_storeBytes_of_apart (by rwa [length_leBytes])

theorem adjust_congr (h : j % 256 ^ w = k % 256 ^ w) : adjust m a w j = adjust m a w k := by
  unfold adjust
  rw [leBytes_congr]
  rw [Nat.add_mod, h, ← Nat.add_mod]

theorem adjust_eq_self (h : k % 256 ^ w = 0) : adjust m a w k = m := by
  apply storeBytes_le
  rw [Nat.add_mod, h, Nat.add_zero, Nat.mod_mod, Nat.mod_eq_of_lt (le_lt m a w)]

theorem adjust_adjust (m : Memory) (a w j k : ℕ) :
    adjust (adjust m a w j) a w k = adjust m a w (j + k) := by
  have hs : (le (adjust m a w j) a w + k) % 256 ^ w = (le m a w + (j + k)) % 256 ^ w := by
    rw [le_adjust, Nat.mod_add_mod, Nat.add_assoc]
  rw [adjust, leBytes_congr hs, adjust, storeBytes_storeBytes (by simp), adjust]

theorem adjust_storeBytes (h : Apart b bs.length a w) :
    adjust (storeBytes m b bs) a w k = storeBytes (adjust m a w k) b bs := by
  unfold adjust
  rw [le_storeBytes_of_apart h, storeBytes_comm (by rwa [length_leBytes])]

theorem adjust_comm (h : Apart a w b v) :
    adjust (adjust m a w j) b v k = adjust (adjust m b v k) a w j := by
  have hs : le (adjust m b v k) a w = le m a w := le_adjust_of_apart h.symm
  rw [adjust.eq_1 m a w j, adjust_storeBytes (by rwa [length_leBytes]),
    adjust.eq_1 (adjust m b v k) a w j, hs]

/-! ## Many fields -/

section Many

variable {ι : Type*} {place width : ι → ℕ} {f g : ι → ℕ} {rs : List ι} {r : ι}

/-- The amounts `f r` added to the fields of all `r` in `rs`. -/
def adjustAll (place width f : ι → ℕ) (rs : List ι) (m : Memory) : Memory :=
  rs.foldl (fun m r => adjust m (place r) (width r) (f r)) m

/-- The fields of `r` and `s` lie apart. -/
def FieldsApart (place width : ι → ℕ) (r s : ι) : Prop :=
  Apart (place r) (width r) (place s) (width s)

@[simp] theorem adjustAll_cons (r : ι) (rs : List ι) (m : Memory) :
    adjustAll place width f (r :: rs) m =
      adjustAll place width f rs (adjust m (place r) (width r) (f r)) := rfl

theorem adjustAll_storeBytes (h : ∀ r ∈ rs, Apart b bs.length (place r) (width r)) :
    adjustAll place width f rs (storeBytes m b bs) =
      storeBytes (adjustAll place width f rs m) b bs := by
  induction rs generalizing m with
  | nil => rfl
  | cons r rs ih =>
    obtain ⟨hr, hrs⟩ := forall_mem_cons.mp h
    rw [adjustAll_cons, adjustAll_cons, adjust_storeBytes hr, ih hrs]

theorem adjustAll_adjust (h : ∀ r ∈ rs, Apart b v (place r) (width r)) :
    adjustAll place width f rs (adjust m b v k) = adjust (adjustAll place width f rs m) b v k := by
  induction rs generalizing m with
  | nil => rfl
  | cons r rs ih =>
    obtain ⟨hr, hrs⟩ := forall_mem_cons.mp h
    rw [adjustAll_cons, adjustAll_cons, adjust_comm hr, ih hrs]

/-- **Amounts added in two rounds are added at once.** -/
theorem adjustAll_adjustAll (h : rs.Pairwise (FieldsApart place width)) :
    adjustAll place width g rs (adjustAll place width f rs m) =
      adjustAll place width (fun r => f r + g r) rs m := by
  induction rs generalizing m with
  | nil => rfl
  | cons r rs ih =>
    obtain ⟨hr, hrs⟩ := pairwise_cons.mp h
    rw [adjustAll_cons, adjustAll_cons, adjustAll_cons, ← adjustAll_adjust hr, ih hrs,
      adjust_adjust]

theorem adjustAll_congr (h : ∀ r ∈ rs, f r % 256 ^ width r = g r % 256 ^ width r) :
    adjustAll place width f rs m = adjustAll place width g rs m := by
  induction rs generalizing m with
  | nil => rfl
  | cons r rs ih =>
    obtain ⟨hr, hrs⟩ := forall_mem_cons.mp h
    rw [adjustAll_cons, adjustAll_cons, adjust_congr hr, ih hrs]

theorem adjustAll_eq_self (h : ∀ r ∈ rs, f r % 256 ^ width r = 0) :
    adjustAll place width f rs m = m := by
  induction rs generalizing m with
  | nil => rfl
  | cons r rs ih =>
    obtain ⟨hr, hrs⟩ := forall_mem_cons.mp h
    rw [adjustAll_cons, adjust_eq_self hr, ih hrs]

/-- Bytes outside of the fields are as before. -/
theorem adjustAll_of_not (h : ∀ r ∈ rs, ¬ (place r ≤ x ∧ x < place r + width r)) :
    adjustAll place width f rs m x = m x := by
  induction rs generalizing m with
  | nil => rfl
  | cons r rs ih =>
    obtain ⟨hr, hrs⟩ := forall_mem_cons.mp h
    rw [adjustAll_cons, ih hrs, adjust_of_not hr]

theorem le_adjustAll_of_apart (h : ∀ r ∈ rs, Apart (place r) (width r) b v) :
    le (adjustAll place width f rs m) b v = le m b v := by
  refine le_congr fun i hi => adjustAll_of_not fun r hr hin => ?_
  have := h r hr (b + i) hin.1 hin.2
  omega

/-- **Every field has had its amount added.** -/
theorem le_adjustAll (h : rs.Pairwise (FieldsApart place width)) (hr : r ∈ rs) :
    le (adjustAll place width f rs m) (place r) (width r) =
      (le m (place r) (width r) + f r) % 256 ^ width r := by
  induction rs generalizing m with
  | nil => cases hr
  | cons s rs ih =>
    obtain ⟨hs, hrs⟩ := pairwise_cons.mp h
    rw [adjustAll_cons]
    rcases mem_cons.mp hr with rfl | hr
    · rw [le_adjustAll_of_apart fun t ht => (hs t ht).symm, le_adjust]
    · rw [ih hrs hr, le_adjust_of_apart (hs r hr)]

end Many

end Edk2
