import Edk2.Lib.Bytes

/-!
# Scattered regions

A region of bytes may be scattered over a memory: byte `q` of it is at the address `place q`. Seen
through `place` it is a memory of its own. A write to a part of the region that is in one piece is a
write to that memory, and leaves alone every address that is not written.

## Main results

* `scattered_storeBytes`: a write in one piece
* `Scattered.append`: two writes, one behind the other
* `Scattered.view_eq`: the region after a write
* `bytesAt_zero_storeBytes`: the front of a memory after a write
-/

namespace Edk2

variable {place : ℕ → ℕ} {p q a n : ℕ} {bs cs : List UInt8} {m m' m'' : Memory}

/-- The bytes `bs` have been written at `p`, and nothing else has changed. -/
structure Scattered (place : ℕ → ℕ) (p : ℕ) (bs : List UInt8) (m m' : Memory) : Prop where
  hit : ∀ i < bs.length, m' (place (p + i)) = bs.getD i 0
  miss : ∀ a, (∀ i < bs.length, place (p + i) ≠ a) → m' a = m a

theorem scattered_nil (place : ℕ → ℕ) (p : ℕ) (m : Memory) : Scattered place p [] m m :=
  ⟨nofun, fun _ _ => rfl⟩

/-- A write in one piece. -/
theorem scattered_storeBytes (m : Memory) (h : ∀ i < bs.length, place (p + i) = a + i) :
    Scattered place p bs m (storeBytes m a bs) := by
  refine ⟨fun i hi => ?_, fun x hx => ?_⟩
  · rw [h i hi, storeBytes, if_pos (by omega), Nat.add_sub_cancel_left]
  · refine storeBytes_of_not fun hin => ?_
    refine hx (x - a) (by omega) ?_
    rw [h (x - a) (by omega)]
    omega

/-- Two writes, one behind the other. -/
theorem Scattered.append (h : Scattered place p bs m m')
    (h' : Scattered place (p + bs.length) cs m' m'')
    (hin : ∀ i < bs.length, ∀ j < cs.length, place (p + i) ≠ place (p + bs.length + j)) :
    Scattered place p (bs ++ cs) m m'' := by
  refine ⟨fun i hi => ?_, fun x hx => ?_⟩
  · rw [List.length_append] at hi
    by_cases hlt : i < bs.length
    · rw [h'.miss _ fun j hj => (hin i hlt j hj).symm, h.hit i hlt, List.getD_append _ _ _ _ hlt]
    · have hle := Nat.le_of_not_lt hlt
      have hh := h'.hit (i - bs.length) (by omega)
      rwa [add_assoc, Nat.add_sub_cancel' hle,
        ← List.getD_append_right bs cs 0 i hle] at hh
  · rw [List.length_append] at hx
    rw [h'.miss x fun j hj => ?_, h.miss x fun i hi => hx i (by omega)]
    rw [add_assoc]
    exact hx (bs.length + j) (by omega)

/-- The region after a write, in a part of it where no two bytes are at the same place. -/
theorem Scattered.view_eq (h : Scattered place p bs m m')
    (hinj : ∀ q' < n, place q' = place q → q' = q) (hlast : p + bs.length ≤ n) :
    m' (place q) = storeBytes (fun q => m (place q)) p bs q := by
  by_cases hin : p ≤ q ∧ q < p + bs.length
  · have hh := h.hit (q - p) (by omega)
    rw [Nat.add_sub_cancel' hin.1] at hh
    rw [hh, storeBytes, if_pos hin]
  · rw [storeBytes_of_not hin]
    refine h.miss _ fun i hi heq => hin ?_
    have hpi := hinj (p + i) (by omega) heq
    omega

/-- The front of a memory after a write: what is in front of the bytes, the bytes, and what is
behind them. -/
theorem bytesAt_zero_storeBytes (m : Memory) (p : ℕ) (bs : List UInt8) (k : ℕ) :
    bytesAt (storeBytes m p bs) 0 (p + bs.length + k) =
      bytesAt m 0 p ++ bs ++ bytesAt m (p + bs.length) k := by
  rw [bytesAt_add, bytesAt_add, zero_add, zero_add, bytesAt_storeBytes]
  congr 1
  · rw [bytesAt_storeBytes_of_disjoint (.inl (by omega))]
  · rw [bytesAt_storeBytes_of_disjoint (.inr (le_refl _))]

end Edk2
