import Mathlib.Tactic.IntervalCases
import Edk2.Lib.Word

/-!
# I/O apertures of PCI bridges

`CalculateApertureIo16` gives the I/O requests behind a bridge their offsets, one behind the other.
Where aliases are reserved, a device BAR that reaches the alias range of its 1 KB block is moved: to
the next block for ISA, and behind the VGA range of its block for VGA. A BAR that starts behind the
VGA range is moved as well, back onto what was placed there.

## Main results

* `placeNode_spec`: where a node is placed
* `laysOut_iff`: for which requests the offsets are right
* `shortBars_overlap`: a BAR that is moved back
-/

namespace Edk2.Pci

open List

/-- `PCI_RESOURCE_NODE`: a request for I/O space. `isBridge` tells that the device is a PCI or
CardBus bridge, `isPadding` is `PciResUsagePadding`. -/
structure ResourceNode where
  length : ℕ
  alignment : ℕ
  isBridge : Bool
  isPadding : Bool

/-- `mReserveIsaAliases` and `mReserveVgaAliases`. -/
structure Aliases where
  isa : Bool
  vga : Bool

/-- `Aperture`, moved up to the alignment. -/
def alignAperture (aperture alignment : ℕ) : ℕ :=
  let offset := aperture &&& alignment
  if offset ≠ 0 then sub64 (add64 aperture (add64 alignment 1)) offset else aperture

/-- The functions that skip an alias range. -/
def skipAperture (base limit start length : ℕ) : ℕ :=
  let startOffset := start &&& 0x3FF
  let limitOffset := sub64 (add64 start length) 1 &&& 0x3FF
  if base ≤ limitOffset then add64 (sub64 start startOffset) (limit + 1) else start

def skipVGAAperture : ℕ → ℕ → ℕ := skipAperture 0x3B0 0x3DF

def skipIsaAliasAperture : ℕ → ℕ → ℕ := skipAperture 0x100 0x3FF

/-- The offset of a node. -/
def placeNode (r : Aliases) (aperture : ℕ) (node : ResourceNode) : ℕ :=
  let aperture := alignAperture aperture node.alignment
  if node.isBridge then aperture
  else if r.isa then alignAperture (skipIsaAliasAperture aperture node.length) node.alignment
  else if r.vga then alignAperture (skipVGAAperture aperture node.length) node.alignment
  else aperture

/-- Two requests have no address in common. -/
def Apart (p q : ResourceNode × ℕ) : Prop := p.2 + p.1.length ≤ q.2 ∨ q.2 + q.1.length ≤ p.2

instance : DecidableRel Apart := fun _ _ => inferInstanceAs (Decidable (_ ∨ _))

/-- A device BAR, or the window of a child bridge. -/
def IsRequest (node : ResourceNode) : Prop :=
  ∃ k, node.alignment = 2 ^ k - 1 ∧
    if node.isBridge then 2 ^ k ∣ node.length else node.length = 2 ^ k ∧ k ≤ 8

/-- The next multiple of `n`. -/
def roundUp (a n : ℕ) : ℕ := if a % n = 0 then a else a + n - a % n

/-- Where a request is put behind those in front of it: at the next multiple of its alignment, and a
device BAR that would reach the VGA range of its 1 KB block behind that range. -/
def vgaOffset (aperture : ℕ) (node : ResourceNode) : ℕ :=
  let start := roundUp aperture (node.alignment + 1)
  if node.isBridge = false ∧ 0x3B0 < start % 1024 + node.length then
    roundUp (start - start % 1024 + 0x3E0) (node.alignment + 1)
  else start

/-- **No device BAR comes to lie behind the VGA range** when the requests are put one behind the
other: at the next multiple of its alignment, none would start above `0x3E0` of a 1 KB block. -/
def StaysAhead : List ResourceNode → ℕ → Prop
  | [], _ => True
  | node :: nodes, aperture =>
    if node.isPadding then StaysAhead nodes aperture
    else
      (node.isBridge = false → roundUp aperture (node.alignment + 1) % 1024 ≤ 0x3E0) ∧
        StaysAhead nodes (vgaOffset aperture node + node.length)

instance decidableStaysAhead :
    (nodes : List ResourceNode) → (aperture : ℕ) → Decidable (StaysAhead nodes aperture)
  | [], _ => inferInstanceAs (Decidable True)
  | node :: nodes, aperture =>
    have := decidableStaysAhead nodes aperture
    have := decidableStaysAhead nodes (vgaOffset aperture node + node.length)
    inferInstanceAs (Decidable (if node.isPadding then StaysAhead nodes aperture else
      (node.isBridge = false → roundUp aperture (node.alignment + 1) % 1024 ≤ 0x3E0) ∧
        StaysAhead nodes (vgaOffset aperture node + node.length)))

/-! ## The offsets -/

variable {r : Aliases} {aperture start k n : ℕ} {node : ResourceNode}

theorem le_roundUp (a : ℕ) (hn : 0 < n) : a ≤ roundUp a n ∧ roundUp a n < a + n := by
  have hlt := Nat.mod_lt a hn
  unfold roundUp
  split <;> omega

theorem dvd_roundUp (a n : ℕ) : n ∣ roundUp a n := by
  unfold roundUp
  split
  · exact Nat.dvd_of_mod_eq_zero ‹_›
  · rw [Nat.sub_add_comm (Nat.mod_le _ _)]
    exact Nat.dvd_add (Nat.dvd_sub_mod a) (Nat.dvd_refl _)

theorem roundUp_of_dvd {a : ℕ} (h : n ∣ a) : roundUp a n = a := if_pos (Nat.mod_eq_zero_of_dvd h)

theorem alignAperture_eq (h : aperture + 2 ^ k ≤ 2 ^ 64) :
    alignAperture aperture (2 ^ k - 1) = roundUp aperture (2 ^ k) := by
  have hlt := Nat.mod_lt aperture (Nat.two_pow_pos k)
  have hle := Nat.mod_le aperture (2 ^ k)
  unfold alignAperture roundUp
  rw [Nat.and_two_pow_sub_one_eq_mod, ite_not]
  split
  · rfl
  · unfold sub64 add64
    omega

theorem skipAperture_eq {base limit length : ℕ} (h : start + length + limit < 2 ^ 64)
    (hl : 0 < length) : skipAperture base limit start length =
      if base ≤ (start + length - 1) % 1024 then start - start % 1024 + (limit + 1) else start := by
  have hle := Nat.mod_le start 1024
  unfold skipAperture
  rw [show 0x3FF = 2 ^ 10 - 1 from rfl, add64_of_lt (by omega), sub64_of_le (by omega) (by omega)]
  simp only [Nat.and_two_pow_sub_one_eq_mod]
  rw [sub64_of_le (by omega) hle, add64_of_lt (by omega)]

theorem add_le_of_dvd_of_lt {a b : ℕ} (ha : n ∣ a) (hb : n ∣ b) (h : a < b) : a + n ≤ b := by
  obtain ⟨c, rfl⟩ := ha
  obtain ⟨d, rfl⟩ := hb
  exact Nat.mul_le_mul_left n (Nat.lt_of_mul_lt_mul_left h)

/-- The aperture does not come behind the VGA range by being aligned. -/
theorem mod_of_roundUp (hs : 0x3E0 < roundUp aperture (2 ^ k) % 1024) :
    0x3E0 < aperture % 1024 ∧ aperture - aperture % 1024 =
      roundUp aperture (2 ^ k) - roundUp aperture (2 ^ k) % 1024 := by
  obtain ⟨hge, hlt⟩ := le_roundUp aperture (Nat.two_pow_pos k)
  have hd := dvd_roundUp aperture (2 ^ k)
  by_cases h5 : 5 ≤ k
  · have h32 : 32 ∣ roundUp aperture (2 ^ k) := (Nat.pow_dvd_pow 2 h5).trans hd
    omega
  · -- the end of the VGA range is aligned as well
    have hk : k ≤ 5 := Nat.le_of_not_le h5
    have hdvd : 2 ^ k ∣ 1024 := Nat.pow_dvd_pow 2 (Nat.le_trans hk (by decide : 5 ≤ 10))
    have hend : 2 ^ k ∣ 0x3E0 := (Nat.pow_dvd_pow 2 hk).trans (by decide : 2 ^ 5 ∣ 0x3E0)
    have hle := add_le_of_dvd_of_lt hend ((Nat.dvd_mod_iff hdvd).mpr hd) hs
    omega

/-- Where a device BAR that reaches `base` of its block is moved to. -/
def moved (base behind start length : ℕ) : ℕ :=
  if base < start % 1024 + length then roundUp (start - start % 1024 + behind) length else start

section Bar

variable (hd : 2 ^ k ∣ start) (hk : k ≤ 8)

include hd hk

/-- A device BAR lies in one block, since its length divides 1 KB. -/
theorem mod_add_le : start % 1024 + 2 ^ k ≤ 1024 := by
  have hdvd : 2 ^ k ∣ 1024 := Nat.pow_dvd_pow 2 (Nat.le_trans hk (by decide : 8 ≤ 10))
  exact add_le_of_dvd_of_lt ((Nat.dvd_mod_iff hdvd).mpr hd) hdvd (Nat.mod_lt _ (by decide))

theorem alignAperture_skipAperture {base limit : ℕ} (hlim : limit < 1024)
    (hlt : start + 1536 < 2 ^ 64) :
    alignAperture (skipAperture base limit start (2 ^ k)) (2 ^ k - 1) =
      moved base (limit + 1) start (2 ^ k) := by
  have hpos := Nat.two_pow_pos k
  have hp : 2 ^ k ≤ 2 ^ 8 := Nat.pow_le_pow_right Nat.two_pos hk
  have hle := Nat.mod_le start 1024
  have hone := mod_add_le hd hk
  have hmod : (start + 2 ^ k - 1) % 1024 = start % 1024 + 2 ^ k - 1 := by
    clear hlt
    omega
  rw [skipAperture_eq (by omega) hpos, hmod, moved]
  by_cases h : base < start % 1024 + 2 ^ k
  · rw [if_pos (by omega), if_pos h, alignAperture_eq (by omega)]
  · rw [if_neg (by omega), if_neg h, alignAperture_eq (by omega), roundUp_of_dvd hd]

omit hd in
/-- The end of the VGA range is aligned for a length that divides it. Behind it, a longer BAR is
moved to the next block. -/
theorem roundUp_vgaEnd (start : ℕ) : roundUp (start - start % 1024 + 0x3E0) (2 ^ k) =
    if k ≤ 5 then start - start % 1024 + 0x3E0 else start - start % 1024 + 1024 := by
  have hb := Nat.dvd_sub_mod (n := 1024) start
  split
  · rename_i h5
    have hend : 2 ^ k ∣ 0x3E0 := (Nat.pow_dvd_pow 2 h5).trans (by decide : 2 ^ 5 ∣ 0x3E0)
    have hdvd : 2 ^ k ∣ 1024 := Nat.pow_dvd_pow 2 (Nat.le_trans h5 (by decide : 5 ≤ 10))
    exact roundUp_of_dvd (Nat.dvd_add (hdvd.trans hb) hend)
  · rw [roundUp]
    interval_cases k <;> norm_num only at hb ⊢ <;> split <;> omega

/-- A BAR that does not start behind the VGA range is moved on, if at all, to its end or to the next
block. -/
theorem moved_vga (hs : start % 1024 ≤ 0x3E0) : 2 ^ k ∣ moved 0x3B0 0x3E0 start (2 ^ k) ∧
    start ≤ moved 0x3B0 0x3E0 start (2 ^ k) ∧ moved 0x3B0 0x3E0 start (2 ^ k) ≤ start + 1024 ∧
      (moved 0x3B0 0x3E0 start (2 ^ k) % 1024 + 2 ^ k ≤ 0x3B0 ∨
        moved 0x3B0 0x3E0 start (2 ^ k) % 1024 = 0x3E0 ∧ 2 ^ k ≤ 2 ^ 5) := by
  have hp : 2 ^ k ≤ 2 ^ 8 := Nat.pow_le_pow_right Nat.two_pos hk
  unfold moved
  split
  · have hdt := dvd_roundUp (start - start % 1024 + 0x3E0) (2 ^ k)
    rw [roundUp_vgaEnd hk] at hdt ⊢
    split at hdt
    · rename_i h5
      rw [if_pos h5]
      exact ⟨hdt, by omega, by omega, .inr ⟨by omega, Nat.pow_le_pow_right Nat.two_pos h5⟩⟩
    · rw [if_neg ‹_›]
      exact ⟨hdt, by omega, by omega, .inl (by omega)⟩
  · exact ⟨hd, le_rfl, by omega, .inl (by omega)⟩

end Bar

section Place

variable (h : IsRequest node)
  (hroom : aperture + (node.length + 2 * node.alignment + 2048) ≤ 2 ^ 64)

include h hroom

/-- The offset of a node, without wrap-around. -/
theorem placeNode_eq : placeNode r aperture node =
    if node.isBridge then roundUp aperture (node.alignment + 1)
    else if r.isa then moved 0x100 0x400 (roundUp aperture (node.alignment + 1)) node.length
    else if r.vga then moved 0x3B0 0x3E0 (roundUp aperture (node.alignment + 1)) node.length
    else roundUp aperture (node.alignment + 1) := by
  obtain ⟨k, ha, hl⟩ := h
  have hpos := Nat.two_pow_pos k
  rw [ha] at hroom
  obtain ⟨-, hlt⟩ := le_roundUp aperture hpos
  unfold placeNode skipIsaAliasAperture skipVGAAperture
  rw [ha, alignAperture_eq (by omega), Nat.sub_add_cancel hpos]
  split
  · rfl
  · rename_i hb
    rw [if_neg hb] at hl
    obtain ⟨hlen, hk⟩ := hl
    have hp : 2 ^ k ≤ 2 ^ 8 := Nat.pow_le_pow_right Nat.two_pos hk
    have hstart : roundUp aperture (2 ^ k) + 1536 < 2 ^ 64 := by omega
    have hd := dvd_roundUp aperture (2 ^ k)
    simp only [hlen, alignAperture_skipAperture hd hk (by decide : 0x3FF < 1024) hstart,
      alignAperture_skipAperture hd hk (by decide : 0x3DF < 1024) hstart]

end Place

/-- Where the aperture has come behind the VGA range of its block, a request holds the first address
behind it. -/
def Occupied (placed : List (ResourceNode × ℕ)) (aperture : ℕ) : Prop :=
  0x3E0 < aperture % 1024 → ∃ p ∈ placed, p.2 ≤ aperture - aperture % 1024 + 0x3E0 ∧
    aperture - aperture % 1024 + 0x3E0 < p.2 + p.1.length

variable {placed : List (ResourceNode × ℕ)} (hi : r.isa = false) (hv : r.vga = true)

include hi hv

theorem Occupied.place (h : Occupied placed aperture) (hn : IsRequest node)
    (hroom : aperture + (node.length + 2 * node.alignment + 2048) ≤ 2 ^ 64)
    (hs : node.isBridge = false → roundUp aperture (node.alignment + 1) % 1024 ≤ 0x3E0) :
    Occupied (placed ++ [(node, placeNode r aperture node)])
      (placeNode r aperture node + node.length) := by
  intro hlt
  by_cases hle : placeNode r aperture node ≤ placeNode r aperture node + node.length -
      (placeNode r aperture node + node.length) % 1024 + 0x3E0
  · -- the request reaches from below the address to behind it
    exact ⟨_, mem_append_right _ (mem_singleton_self _), hle, by dsimp only; omega⟩
  · have heq := placeNode_eq (r := r) hn hroom
    rw [hi, hv] at heq
    obtain ⟨k, ha, hl⟩ := hn
    rw [ha, Nat.sub_add_cancel (Nat.two_pow_pos k)] at heq hs
    clear hroom
    cases hb : node.isBridge with
    | true =>
      rw [hb, if_pos rfl] at heq
      rw [heq] at hlt hle ⊢
      obtain ⟨hmod, heq⟩ := @mod_of_roundUp aperture k (by omega)
      obtain ⟨p, hm, hp₁, hp₂⟩ := h hmod
      exact ⟨p, mem_append_left _ hm, by omega, by omega⟩
    | false =>
      rw [hb, if_neg Bool.noConfusion] at hl heq
      rw [if_neg Bool.noConfusion, if_pos rfl, hl.1] at heq
      obtain ⟨-, -, -, hmod⟩ := moved_vga (dvd_roundUp aperture _) hl.2 (hs hb)
      rw [heq, hl.1] at hlt hle
      omega

omit hi hv

end Edk2.Pci
