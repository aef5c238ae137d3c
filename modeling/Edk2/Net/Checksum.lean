import Edk2.Net.Buffer
import Mathlib.Data.Nat.ModEq

/-!
# The checksum of a net buffer

`NetbufChecksum` of `NetBuffer.c` adds up the 16-bit words of a buffer with end-around carry, block
by block: the sum of a block that begins at an odd offset is swapped. The words of a block are added
up in 32 bits before the carries come back in, so a carry out of these is lost.

## Main results

* `checksumLoop_add_lost`: what the checksum of the blocks is short of
* `netbufChecksum_iff`: the checksum is the one's complement sum of the content iff what is lost
  makes no difference
-/

namespace Edk2.Net

open List

/-! ## Functions -/

/-- The left-over byte of a block of odd length. -/
def leftOver (m : Memory) (bulk len : ℕ) : ℕ :=
  if len % 2 ≠ 0 then (m (bulk + len - 1)).toNat else 0

/-- The loop over the words of a block. -/
def addWords (m : Memory) : ℕ → ℕ → ℕ → ℕ
  | bulk, len + 2, sum => addWords m (bulk + 2) len (add32 sum (le m bulk 2))
  | _, _, sum => sum

/-- The loop that folds a sum to 16 bits. -/
def fold16 (sum : ℕ) : ℕ :=
  if sum / 2 ^ 16 = 0 then sum else fold16 (sum % 2 ^ 16 + sum / 2 ^ 16)
termination_by sum
decreasing_by omega

def netblockChecksum (m : Memory) (bulk len : ℕ) : ℕ :=
  fold16 (addWords m bulk len (leftOver m bulk len))

def netAddChecksum (checksum1 checksum2 : ℕ) : ℕ :=
  let sum := checksum1 + checksum2
  if sum / 2 ^ 16 ≠ 0 then sum % 2 ^ 16 + 1 else sum

def swapBytes16 (x : ℕ) : ℕ := x % 2 ^ 8 * 2 ^ 8 + x / 2 ^ 8

/-- The checksum of a block, swapped if the block begins at an odd offset. -/
def swapped (offset blockSum : ℕ) : ℕ := if offset % 2 ≠ 0 then swapBytes16 blockSum else blockSum

/-- The loop of `NetbufChecksum`, at `Offset` with `TotalSum`. -/
def checksumLoop (m : Memory) : List NetBlockOp → ℕ → ℕ → ℕ
  | [], _, totalSum => totalSum
  | b :: bs, offset, totalSum =>
    if b.size = 0 then checksumLoop m bs offset totalSum
    else
      let blockSum := swapped offset (netblockChecksum m b.head b.size)
      checksumLoop m bs (add32 offset b.size) (netAddChecksum blockSum totalSum)

def netbufChecksum (m : Memory) (nbuf : NetBuf) : ℕ := checksumLoop m nbuf.blockOp 0 0

/-! ## One's complement sums -/

/-- The sum of the little-endian 16-bit words of a list, padded with a zero byte to even length.
Modulo `2 ^ 16 - 1` it is their one's complement sum, in which `0` and `0xffff` are both zero. -/
def wordSum : List UInt8 → ℕ
  | [] => 0
  | [a] => a.toNat
  | a :: b :: l => a.toNat + 256 * b.toNat + wordSum l

/-- What a byte at an offset counts. -/
def weight (offset : ℕ) : ℕ := if offset % 2 = 0 then 1 else 256

/-- The carries out of 32 bits, each by the weight of the offset its block begins at. -/
def lostCarries (m : Memory) : List NetBlockOp → ℕ → ℕ
  | [], _ => 0
  | b :: bs, offset =>
    weight offset * (wordSum (b.bytes m) / 2 ^ 32) + lostCarries m bs (offset + b.size)

variable {sum offset totalSum : ℕ}

theorem wordSum_cons (a : UInt8) (l : List UInt8) :
    wordSum (a :: l) ≡ a.toNat + 256 * wordSum l [MOD 65535] := by
  induction l using wordSum.induct generalizing a with
  | case1 => rfl
  | case2 b => rfl
  | case3 b c l ih =>
    -- a byte two places on counts `256 ^ 2`, which is one
    have hc := ih c
    simp only [wordSum, Nat.ModEq] at hc ⊢
    omega

theorem wordSum_append (l l' : List UInt8) :
    wordSum (l ++ l') ≡ wordSum l + weight l.length * wordSum l' [MOD 65535] := by
  induction l with
  | nil => simp [wordSum, weight, Nat.ModEq]
  | cons a l ih =>
    have ha := wordSum_cons a l
    have hap := wordSum_cons a (l ++ l')
    simp only [cons_append, length_cons, weight, Nat.ModEq] at ih ha hap ⊢
    split_ifs at ih ⊢ <;> omega

/-! ## The checksum of a block -/

theorem fold16_spec (sum : ℕ) : fold16 sum < 2 ^ 16 ∧ fold16 sum ≡ sum [MOD 65535] := by
  induction sum using fold16.induct with
  | case1 sum h =>
    rw [fold16, if_pos h]
    exact ⟨by omega, rfl⟩
  | case2 sum h ih =>
    rw [fold16, if_neg h]
    refine ⟨ih.1, ih.2.trans ?_⟩
    unfold Nat.ModEq
    omega

theorem addWords_eq (m : Memory) (bulk len sum : ℕ) :
    addWords m bulk len ((sum + leftOver m bulk len) % 2 ^ 32) =
      (sum + wordSum (bytesAt m bulk len)) % 2 ^ 32 := by
  induction len using Nat.twoStepInduction generalizing bulk sum with
  | zero => simp [addWords, leftOver, bytesAt, wordSum]
  | one => simp [addWords, leftOver, bytesAt, wordSum]
  | more len ih =>
    have hl : leftOver m bulk (len + 2) = leftOver m (bulk + 2) len := by
      unfold leftOver
      simp only [Nat.add_mod_right, show bulk + (len + 2) - 1 = bulk + 2 + len - 1 by omega]
    have ha : add32 ((sum + leftOver m (bulk + 2) len) % 2 ^ 32) (le m bulk 2) =
        (sum + le m bulk 2 + leftOver m (bulk + 2) len) % 2 ^ 32 := by
      unfold add32
      omega
    rw [hl, addWords, ha, ih]
    simp only [bytesAt, wordSum, le]
    congr 1
    ring

theorem netblockChecksum_spec (m : Memory) (bulk len : ℕ) :
    netblockChecksum m bulk len < 2 ^ 16 ∧
      netblockChecksum m bulk len + wordSum (bytesAt m bulk len) / 2 ^ 32 ≡
        wordSum (bytesAt m bulk len) [MOD 65535] := by
  have hb : leftOver m bulk len < 2 ^ 32 := by
    have hlt := (m (bulk + len - 1)).toNat_lt
    unfold leftOver
    split_ifs <;> omega
  have ha := addWords_eq m bulk len 0
  rw [Nat.zero_add, Nat.zero_add, Nat.mod_eq_of_lt hb] at ha
  obtain ⟨hlt, hf⟩ := fold16_spec (addWords m bulk len (leftOver m bulk len))
  refine ⟨hlt, (hf.add_right _).trans ?_⟩
  rw [ha]
  -- `2 ^ 32` is one as well
  unfold Nat.ModEq
  omega

/-! ## The checksum of a buffer -/

/-- Swapping the bytes of a sum is multiplying it by 256. -/
theorem swapped_spec {pos : ℕ} (ho : offset % 2 = pos % 2) (h : sum < 2 ^ 16) :
    swapped offset sum < 2 ^ 16 ∧ swapped offset sum ≡ weight pos * sum [MOD 65535] := by
  unfold swapped swapBytes16 weight Nat.ModEq
  split_ifs <;> omega

theorem netAddChecksum_spec {a b : ℕ} (ha : a < 2 ^ 16) (hb : b < 2 ^ 16) :
    netAddChecksum a b < 2 ^ 16 ∧ netAddChecksum a b ≡ a + b [MOD 65535] := by
  unfold netAddChecksum Nat.ModEq
  dsimp only
  split_ifs <;> omega

theorem weight_add (a b : ℕ) : weight (a + b) ≡ weight a * weight b [MOD 65535] := by
  unfold weight Nat.ModEq
  split_ifs <;> omega

/-- **The checksum is short of the carries that are lost.** -/
theorem checksumLoop_add_lost (m : Memory) (bs : List NetBlockOp) {pos : ℕ}
    (ho : offset % 2 = pos % 2) (ht : totalSum < 2 ^ 16) :
    checksumLoop m bs offset totalSum < 2 ^ 16 ∧
      checksumLoop m bs offset totalSum + lostCarries m bs pos ≡
        totalSum + weight pos * wordSum (bytesOf m bs) [MOD 65535] := by
  induction bs generalizing offset totalSum pos with
  | nil => exact ⟨ht, rfl⟩
  | cons b bs ih =>
    rw [checksumLoop, bytesOf_cons, lostCarries]
    by_cases hz : b.size = 0
    · rw [if_pos hz, bytes_of_size_zero hz, hz]
      simpa [wordSum] using ih ho ht
    · rw [if_neg hz]
      obtain ⟨hlt, hs⟩ := netblockChecksum_spec m b.head b.size
      obtain ⟨hlb, hb⟩ := swapped_spec ho hlt
      obtain ⟨hla, ha⟩ := netAddChecksum_spec hlb ht
      have hn : add32 offset b.size % 2 = (pos + b.size) % 2 := by
        unfold add32
        omega
      obtain ⟨hl, hr⟩ := ih hn hla
      refine ⟨hl, ?_⟩
      have hw := (weight_add pos b.size).mul_right (wordSum (bytesOf m bs))
      have hap := wordSum_append (b.bytes m) (bytesOf m bs)
      rw [length_bytes] at hap
      have hc := ((hs.add_right _).trans hap.symm).mul_left (weight pos)
      calc _ = checksumLoop m bs _ _ + lostCarries m bs (pos + b.size) +
            weight pos * (wordSum (b.bytes m) / 2 ^ 32) := by ring
        _ ≡ weight pos * netblockChecksum m b.head b.size + totalSum +
            weight pos * weight b.size * wordSum (bytesOf m bs) +
            weight pos * (wordSum (b.bytes m) / 2 ^ 32) [MOD 65535] :=
          (hr.trans ((ha.trans (hb.add_right _)).add hw)).add_right _
        _ = totalSum + weight pos * (netblockChecksum m b.head b.size +
            wordSum (b.bytes m) / 2 ^ 32 + weight b.size * wordSum (bytesOf m bs)) := by ring
        _ ≡ _ [MOD 65535] := hc.add_left _

theorem netbufChecksum_add_lost (m : Memory) (nbuf : NetBuf) :
    netbufChecksum m nbuf < 2 ^ 16 ∧ netbufChecksum m nbuf + lostCarries m nbuf.blockOp 0 ≡
      wordSum (nbuf.content m) [MOD 65535] := by
  have h := checksumLoop_add_lost m nbuf.blockOp (Eq.refl (0 % 2)) (Nat.two_pow_pos 16)
  rwa [Nat.zero_add, show weight 0 = 1 from rfl, Nat.one_mul] at h

/-- **The checksum of a buffer is the one's complement sum of its content**, however the content is
split into blocks, iff the carries that are lost add up to zero, which in one's complement is any
multiple of `2 ^ 16 - 1`. -/
theorem netbufChecksum_iff (m : Memory) (nbuf : NetBuf) :
    (netbufChecksum m nbuf < 2 ^ 16 ∧
      netbufChecksum m nbuf ≡ wordSum (nbuf.content m) [MOD 65535]) ↔
    65535 ∣ lostCarries m nbuf.blockOp 0 := by
  obtain ⟨hlt, hs⟩ := netbufChecksum_add_lost m nbuf
  rw [and_iff_right hlt]
  unfold Nat.ModEq at hs ⊢
  omega

theorem wordSum_ones (bulk n : ℕ) : wordSum (bytesAt (fun _ => 0xff) bulk (2 * n)) = 65535 * n := by
  induction n generalizing bulk with
  | zero => rfl
  | succ n ih =>
    rw [Nat.mul_succ, bytesAt, bytesAt, wordSum, ih]
    change 255 + 256 * 255 + _ = _
    ring

/-- A buffer of one block with 65538 words. -/
private def largeBuf : NetBuf := ⟨[netbufSetBlockOp 0x1000 (2 * 65538)], 2 * 65538⟩

/-- **A block that is too large**: that many words of ones have a carry out of 32 bits. -/
theorem not_netbufChecksum_large :
    largeBuf.Valid ∧ ¬ netbufChecksum (fun _ => 0xff) largeBuf ≡
      wordSum (largeBuf.content fun _ => 0xff) [MOD 65535] := by
  refine ⟨⟨by simp [largeBuf], by simp [largeBuf]⟩, fun hs => ?_⟩
  have hlo := (netbufChecksum_add_lost (fun _ => 0xff) largeBuf).2
  have hone : lostCarries (fun _ => 0xff) largeBuf.blockOp 0 = 1 := by
    rw [largeBuf, lostCarries, bytes_netbufSetBlockOp, wordSum_ones]
    simp [weight, lostCarries]
  rw [hone] at hlo
  unfold Nat.ModEq at hs hlo
  omega

end Edk2.Net
