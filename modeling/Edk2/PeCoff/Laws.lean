import Edk2.PeCoff.Records
import Mathlib.Data.Nat.ModEq

/-!
# Relocation laws

What relocation makes of an image, as one formula: `ImageBase` is set and the fields of the records
move by the distance from the base the image was linked for. Two relocations compose, and a
relocation back restores the image, since the distances add up. They do not for a field of eight
bytes in a PE32 image, the header of which has room for the low half of a base address only.

The runtime pass moves the fields that hold what the first pass has noted. The first pass notes
nothing when the image lies where it was linked for; the runtime pass knows no TE image; and it
asserts one directory entry more than the first pass.

## Main results

* `IsImage.relocateImage`: the first pass moves the image and notes its fields
* `IsImage.moved_moved`: two moves
* `IsImage.runtime_mem`: the runtime pass
* `relocationLaws_iff`: when the laws hold
-/

namespace Edk2.PeCoff

open List Record Nat

variable {ctx : ImageContext} {m m' : Memory} {rs : List Record} {blocks : List (ℕ × ℕ)}

/-! ## Headers -/

/-- The eight bytes of the header within which `ImageBase` lies. -/
def baseField (ctx : ImageContext) : ℕ :=
  if ctx.isTeImage then ctx.imageAddress + 16 else optionalHeader ctx + 24

/-- The size of the headers, as far as the passes read them. -/
def headersSize (ctx : ImageContext) : ℕ :=
  if ctx.isTeImage then 40 else ctx.peCoffHeaderOffset + 184

/-- Two memories show the same headers, but for `ImageBase`. -/
def SameHeaders (ctx : ImageContext) (m m' : Memory) : Prop :=
  ∀ x, ctx.imageAddress ≤ x → x < ctx.imageAddress + headersSize ctx →
    (x < baseField ctx ∨ baseField ctx + 8 ≤ x) → m' x = m x

variable {n base dest : ℕ} {r : Record}

theorem SameHeaders.le {a : ℕ} (h : SameHeaders ctx m m') (hlo : ctx.imageAddress ≤ a)
    (hhi : a + n ≤ ctx.imageAddress + headersSize ctx)
    (hf : a + n ≤ baseField ctx ∨ baseField ctx + 8 ≤ a) : le m' a n = le m a n :=
  le_congr fun i hi => h _ (by omega) (by omega) (by omega)

/-- A field of the headers of a PE image, before or behind `ImageBase`. -/
theorem SameHeaders.le_pe {a : ℕ} (h : SameHeaders ctx m m') (hte : ctx.isTeImage = false)
    (hlo : ctx.imageAddress ≤ a) (hhi : a + n ≤ ctx.imageAddress + (ctx.peCoffHeaderOffset + 184))
    (hf : a + n ≤ ctx.imageAddress + ctx.peCoffHeaderOffset + 48 ∨
      ctx.imageAddress + ctx.peCoffHeaderOffset + 56 ≤ a) : Edk2.le m' a n = Edk2.le m a n := by
  have hs : headersSize ctx = ctx.peCoffHeaderOffset + 184 := by simp [headersSize, hte]
  have hb : baseField ctx = ctx.imageAddress + ctx.peCoffHeaderOffset + 48 := by
    simp [baseField, optionalHeader, hte]
  exact h.le hlo (by omega) (by omega)

section SameHeaders

variable (h : SameHeaders ctx m m')
include h

theorem SameHeaders.isPe32 (hte : ctx.isTeImage = false) : isPe32 ctx m' = isPe32 ctx m := by
  have hm : Edk2.le m' (optionalHeader ctx) 2 = Edk2.le m (optionalHeader ctx) 2 := by
    unfold optionalHeader
    apply h.le_pe hte <;> omega
  unfold PeCoff.isPe32
  rw [hm]

theorem SameHeaders.teStrippedOffset : teStrippedOffset ctx m' = teStrippedOffset ctx m := by
  unfold PeCoff.teStrippedOffset
  split_ifs with hte
  · rw [h.le (by omega) (by simp [headersSize, hte]) (by simp [baseField, hte])]
  · rfl

theorem SameHeaders.numberOfRvaAndSizes (hte : ctx.isTeImage = false) :
    numberOfRvaAndSizes ctx m' = numberOfRvaAndSizes ctx m := by
  unfold PeCoff.numberOfRvaAndSizes optionalHeader
  rw [h.isPe32 hte]
  split_ifs
  · apply h.le_pe hte <;> omega
  · apply h.le_pe hte <;> omega

theorem SameHeaders.relocDir : relocDir ctx m' = relocDir ctx m := by
  unfold PeCoff.relocDir
  split_ifs with hte hnew hold hold
  · rfl
  · rfl
  · rw [h.isPe32 (by simpa using hte)] at hnew
    exact absurd hnew hold
  · rw [h.isPe32 (by simpa using hte)] at hnew
    exact absurd hold hnew
  · rfl

theorem SameHeaders.le_relocDir {i : ℕ} (hi : i + 4 ≤ 8) :
    Edk2.le m' (PeCoff.relocDir ctx m + i) 4 = Edk2.le m (PeCoff.relocDir ctx m + i) 4 := by
  cases hte : ctx.isTeImage with
  | true =>
    apply h.le
    all_goals simp only [PeCoff.relocDir, headersSize, baseField, hte, if_true]
    all_goals omega
  | false =>
    unfold PeCoff.relocDir optionalHeader directoryEntryBaseReloc
    simp only [hte, Bool.false_eq_true, if_false]
    split_ifs
    · apply h.le_pe hte <;> omega
    · apply h.le_pe hte <;> omega

theorem SameHeaders.findDirectory : findDirectory ctx m' = findDirectory ctx m := by
  have hva := h.le_relocDir (i := 0) (by omega)
  have hs := h.le_relocDir (i := 4) (by omega)
  unfold PeCoff.findDirectory
  rw [add_zero] at hva
  cases hte : ctx.isTeImage with
  | true =>
    simp only [h.relocDir, hva, hs, h.teStrippedOffset, Bool.not_true, Bool.false_and,
      Bool.false_eq_true, if_false]
  | false =>
    simp only [h.relocDir, hva, hs, h.teStrippedOffset, h.numberOfRvaAndSizes hte]

theorem SameHeaders.headerOffset (hte : ctx.isTeImage = false)
    (hd : ctx.peCoffHeaderOffset = 0 ∨ 64 ≤ ctx.peCoffHeaderOffset) :
    headerOffset m' ctx.imageAddress = headerOffset m ctx.imageAddress := by
  have hm : Edk2.le m' ctx.imageAddress 2 = Edk2.le m ctx.imageAddress 2 := by
    apply h.le_pe hte <;> omega
  have hnew : Edk2.le m' (ctx.imageAddress + 0x3c) 4 = Edk2.le m (ctx.imageAddress + 0x3c) 4 := by
    apply h.le_pe hte <;> omega
  unfold PeCoff.headerOffset
  rw [hm, hnew]

theorem SameHeaders.signature (hte : ctx.isTeImage = false) :
    Edk2.le m' (ctx.imageAddress + ctx.peCoffHeaderOffset) 4 =
      Edk2.le m (ctx.imageAddress + ctx.peCoffHeaderOffset) 4 := by
  apply h.le_pe hte <;> omega

end SameHeaders

/-- How `ImageBase` stands in the headers: in `n` bytes at `a`, as `g` of the base address, which
`f` gives back. -/
structure BaseCode (ctx : ImageContext) (m : Memory) (a n : ℕ) (f g : ℕ → ℕ) : Prop where
  lo : baseField ctx ≤ a
  hi : a + n ≤ baseField ctx + 8
  write : ∀ m', SameHeaders ctx m m' → ∀ base,
    setImageBase ctx m' base = storeBytes m' a (leBytes n (g base))
  read : ∀ m', SameHeaders ctx m m' → linkedBase ctx m' = f (le m' a n)
  read_write : ∀ base < 2 ^ 64, f (g base % 256 ^ n) =
    if ctx.isTeImage = false ∧ isPe32 ctx m = true then base % 2 ^ 32 else base
  write_read : ∀ x < 256 ^ n, f x < 2 ^ 64 ∧ g (f x) % 256 ^ n = x

theorem exists_baseCode (ctx : ImageContext) (m : Memory) : ∃ a n f g, BaseCode ctx m a n f g := by
  cases hte : ctx.isTeImage with
  | true =>
    have hp : baseField ctx = ctx.imageAddress + 16 := by simp [baseField, hte]
    refine ⟨ctx.imageAddress + 16, 8, (add64 · (teStrippedOffset ctx m)),
      (sub64 · (teStrippedOffset ctx m)), by omega, by omega, fun m' hs base => ?_,
      fun m' hs => ?_, fun base hb => ?_, fun x hx => ?_⟩
    · rw [setImageBase, if_pos hte, hs.teStrippedOffset]
    · rw [linkedBase, if_pos hte, hs.teStrippedOffset]
    · rw [if_neg (by simp [hte])]
      unfold add64 sub64
      omega
    · unfold add64 sub64
      omega
  | false =>
    have hp : baseField ctx = optionalHeader ctx + 24 := by simp [baseField, hte]
    cases hpe : isPe32 ctx m with
    | true =>
      refine ⟨optionalHeader ctx + 28, 4, id, id, by omega, by omega, fun m' hs base => ?_,
        fun m' hs => ?_, fun base _ => ?_, fun x hx => ?_⟩
      · simp [setImageBase, hte, hs.isPe32 hte, hpe]
      · simp [linkedBase, hte, hs.isPe32 hte, hpe]
      · simp [hte, hpe]
      · exact ⟨by simp at hx ⊢; omega, mod_eq_of_lt hx⟩
    | false =>
      refine ⟨optionalHeader ctx + 24, 8, id, id, by omega, by omega, fun m' hs base => ?_,
        fun m' hs => ?_, fun base hb => ?_, fun x hx => ?_⟩
      · simp [setImageBase, hte, hs.isPe32 hte, hpe]
      · simp [linkedBase, hte, hs.isPe32 hte, hpe]
      · simpa [hpe] using hb
      · exact ⟨hx, mod_eq_of_lt hx⟩

theorem SameHeaders.refl : SameHeaders ctx m m := fun _ _ _ _ => rfl

theorem setImageBase_of_not {x : ℕ} (h : x < baseField ctx ∨ baseField ctx + 8 ≤ x) :
    setImageBase ctx m base x = m x := by
  obtain ⟨a, n, f, g, hc⟩ := exists_baseCode ctx m
  have := hc.lo
  have := hc.hi
  rw [hc.write m .refl, storeBytes_of_not]
  rw [length_leBytes]
  omega

theorem sameHeaders_setImageBase (ctx : ImageContext) (m : Memory) (base : ℕ) :
    SameHeaders ctx m (setImageBase ctx m base) :=
  fun _ _ _ hx => setImageBase_of_not hx

/-- What the header then gives as the linked base: the whole base, or its low half in a PE32
image. -/
theorem linkedBase_setImageBase (hb : base < 2 ^ 64) :
    linkedBase ctx (setImageBase ctx m base) =
      if ctx.isTeImage = false ∧ isPe32 ctx m = true then base % 2 ^ 32 else base := by
  obtain ⟨a, n, f, g, hc⟩ := exists_baseCode ctx m
  rw [hc.read _ (sameHeaders_setImageBase ctx m base), hc.write m .refl,
    le_storeBytes, hc.read_write base hb]

section

variable (ctx : ImageContext) (m : Memory)

theorem linkedBase_lt : linkedBase ctx m < 2 ^ 64 := by
  obtain ⟨a, n, f, g, hc⟩ := exists_baseCode ctx m
  rw [hc.read m .refl]
  exact (hc.write_read _ (le_lt m a n)).1

theorem setImageBase_linkedBase : setImageBase ctx m (linkedBase ctx m) = m := by
  obtain ⟨a, n, f, g, hc⟩ := exists_baseCode ctx m
  rw [hc.write m .refl, hc.read m .refl]
  exact storeBytes_le (hc.write_read _ (le_lt m a n)).2

theorem setImageBase_setImageBase (a b : ℕ) :
    setImageBase ctx (setImageBase ctx m a) b = setImageBase ctx m b := by
  obtain ⟨_, n, f, g, hc⟩ := exists_baseCode ctx m
  rw [hc.write _ (sameHeaders_setImageBase ctx m a), hc.write m .refl, hc.write m .refl,
    storeBytes_storeBytes (by simp)]

end

/-! ## Images -/

/-- A buffer for the log: with the alignment of a pool block, and below the end of the addresses. -/
def ImageContext.LogAt (ctx : ImageContext) (p : ℕ) : Prop :=
  8 ∣ p ∧ p + ctx.fixupDataSize < 2 ^ 64

/-- A loaded image that can be relocated, with the blocks and the records of its relocation
directory. -/
structure IsImage (ctx : ImageContext) (m : Memory) (blocks : List (ℕ × ℕ)) (rs : List Record) :
    Prop where
  kept : ctx.relocationsStripped = false
  word : ctx.imageAddress < 2 ^ 64
  te : ctx.isTeImage = true → le m ctx.imageAddress 2 = 0x5a56
  pe : ctx.isTeImage = false → headerOffset m ctx.imageAddress = ctx.peCoffHeaderOffset ∧
    le m (ctx.imageAddress + ctx.peCoffHeaderOffset) 4 = ntSignature
  dos : ctx.isTeImage = false → ctx.peCoffHeaderOffset = 0 ∨ 64 ≤ ctx.peCoffHeaderOffset
  directory : (findDirectory ctx m = .ok none ∧ blocks = [] ∧ rs = []) ∨
    ∃ d, findDirectory ctx m = .ok (some d) ∧ Scanned d m d.start blocks rs
  /-- The records are of the types `ABSOLUTE`, `LOW`, `HIGHLOW` and `DIR64`. -/
  types : ∀ r ∈ rs, r.type ≠ .high
  apart : rs.Pairwise (FieldsApart place width)
  outside : ∀ r ∈ rs, Apart r.place r.width ctx.imageAddress (headersSize ctx)
  unread : Unread rs blocks
  blocksOutside : ∀ b ∈ blocks, Apart b.1 (blockSpan b.2) ctx.imageAddress (headersSize ctx)
  fixupData : ∀ p, ctx.fixupData = some p → ctx.LogAt p
  room : logEnd 0 rs ≤ ctx.fixupDataSize
  fixupDataSize_lt : ctx.fixupDataSize < 2 ^ 32

theorem baseField_mem (ctx : ImageContext) :
    ctx.imageAddress ≤ baseField ctx ∧
      baseField ctx + 8 ≤ ctx.imageAddress + headersSize ctx := by
  unfold baseField headersSize optionalHeader
  split_ifs <;> omega

theorem IsImage.congr (h : IsImage ctx m blocks rs) (hh : SameHeaders ctx m m')
    (hb : SameBlocks blocks m m') : IsImage ctx m' blocks rs where
  kept := h.kept
  word := h.word
  te hte := by
    rw [← h.te hte]
    exact hh.le (by omega) (by simp [headersSize, hte]) (by simp [baseField, hte])
  pe hte := by
    rw [hh.headerOffset hte (h.dos hte), hh.signature hte]
    exact h.pe hte
  dos := h.dos
  directory := by
    rw [hh.findDirectory]
    rcases h.directory with hnone | ⟨d, hd, hs⟩
    · exact .inl hnone
    · exact .inr ⟨d, hd, hs.congr hb⟩
  types := h.types
  apart := h.apart
  outside := h.outside
  unread := h.unread
  blocksOutside := h.blocksOutside
  fixupData := h.fixupData
  room := h.room
  fixupDataSize_lt := h.fixupDataSize_lt

/-! ## Moves -/

def moved (ctx : ImageContext) (m : Memory) (rs : List Record) (base : ℕ) : Memory :=
  adjustAll place width (amount (sub64 base (linkedBase ctx m))) rs
    (setImageBase ctx m base)

theorem amount_mod (h : r.type ≠ .high) (k : ℕ) :
    r.amount k % 256 ^ r.width = k % 256 ^ r.width := by
  obtain ⟨type, place⟩ := r
  cases type
  all_goals simp only [amount, width, RelocType.amount, RelocType.width]
  · simp [mod_one]
  · exact absurd rfl h
  · omega
  · omega

theorem width_dvd (r : Record) : 256 ^ r.width ∣ 2 ^ 64 := by
  obtain ⟨type, place⟩ := r
  cases type
  all_goals
    simp only [width, RelocType.width]
    decide

section Moves

variable (h : IsImage ctx m blocks rs)
include h

theorem IsImage.sameHeaders_adjustAll (f : Record → ℕ) (m₁ : Memory) :
    SameHeaders ctx m₁ (adjustAll place width f rs m₁) := by
  intro x hlo hhi _
  refine adjustAll_of_not fun r hr hin => ?_
  have := h.outside r hr x hin.1 hin.2
  omega

theorem IsImage.sameBlocks_adjustAll (f : Record → ℕ) (m₁ : Memory) :
    SameBlocks blocks m₁ (adjustAll place width f rs m₁) := by
  intro b hb x hlo hhi
  refine adjustAll_of_not fun r hr hin => ?_
  have := h.unread r hr b hb x hin.1 hin.2
  omega

theorem IsImage.sameBlocks_setImageBase (base : ℕ) :
    SameBlocks blocks m (setImageBase ctx m base) := by
  intro b hb x hlo hhi
  have := h.blocksOutside b hb x hlo hhi
  have := baseField_mem ctx
  exact setImageBase_of_not (by omega)

theorem IsImage.setImageBase (base : ℕ) : IsImage ctx (setImageBase ctx m base) blocks rs :=
  h.congr (sameHeaders_setImageBase ctx m base) (h.sameBlocks_setImageBase base)

theorem IsImage.moved (base : ℕ) : IsImage ctx (moved ctx m rs base) blocks rs :=
  (h.setImageBase base).congr (h.sameHeaders_adjustAll _ _) (h.sameBlocks_adjustAll _ _)

/-- The fields lie outside of `ImageBase`. -/
theorem IsImage.apart_base {a : ℕ} {f g : ℕ → ℕ} {m₁ : Memory}
    (hc : BaseCode ctx m₁ a n f g) (hr : r ∈ rs) : Apart r.place r.width a n := by
  intro x hx hx'
  have := h.outside r hr x hx hx'
  have := baseField_mem ctx
  have := hc.lo
  have := hc.hi
  omega

theorem IsImage.setImageBase_adjustAll (f : Record → ℕ) (m₁ : Memory) (base : ℕ) :
    PeCoff.setImageBase ctx (adjustAll place width f rs m₁) base =
      adjustAll place width f rs (PeCoff.setImageBase ctx m₁ base) := by
  obtain ⟨a, n, _, g, hc⟩ := exists_baseCode ctx m₁
  rw [hc.write _ (h.sameHeaders_adjustAll f m₁), hc.write m₁ .refl,
    adjustAll_storeBytes]
  rw [length_leBytes]
  exact fun r hr => (h.apart_base hc hr).symm

theorem IsImage.linkedBase_adjustAll (f : Record → ℕ) (m₁ : Memory) :
    linkedBase ctx (adjustAll place width f rs m₁) = linkedBase ctx m₁ := by
  obtain ⟨a, n, _, g, hc⟩ := exists_baseCode ctx m₁
  rw [hc.read _ (h.sameHeaders_adjustAll f m₁), hc.read m₁ .refl,
    le_adjustAll_of_apart fun r hr => h.apart_base hc hr]

/-- **Two moves are one, by the sum of their distances.** -/
theorem IsImage.moved_moved (a b : ℕ) :
    PeCoff.moved ctx (PeCoff.moved ctx m rs a) rs b =
      adjustAll place width
        (fun r => r.amount (sub64 a (linkedBase ctx m)) +
          r.amount (sub64 b (linkedBase ctx (PeCoff.setImageBase ctx m a)))) rs
        (PeCoff.setImageBase ctx m b) := by
  unfold PeCoff.moved
  rw [h.linkedBase_adjustAll, h.setImageBase_adjustAll, setImageBase_setImageBase,
    adjustAll_adjustAll h.apart]

theorem IsImage.moved_linkedBase : PeCoff.moved ctx m rs (linkedBase ctx m) = m := by
  have hz : sub64 (linkedBase ctx m) (linkedBase ctx m) = 0 := by
    have := linkedBase_lt ctx m
    rw [sub64_of_le this (Nat.le_refl _), Nat.sub_self]
  unfold PeCoff.moved
  rw [hz, setImageBase_linkedBase]
  refine adjustAll_eq_self fun r hr => ?_
  rw [amount_mod (h.types r hr), zero_mod]

end Moves

/-! ## The passes -/

theorem steady_relocateImage (ctx : ImageContext) (m log : Memory) :
    Steady fun fuel => relocateImage ctx m log fuel := by
  unfold relocateImage
  split_ifs
  · exact steady_const _
  dsimp only
  split
  · exact steady_const _
  · split_ifs
    · exact steady_const _
    · split
      · exact steady_const _
      · exact (steady_loop _ _).bind fun _ => steady_const _

theorem eq_of_sub64_eq_zero {a b : ℕ} (ha : a < 2 ^ 64) (hb : b < 2 ^ 64) (h : sub64 a b = 0) :
    a = b := by
  unfold sub64 at h
  omega

theorem baseAddress_lt (hw : ctx.imageAddress < 2 ^ 64)
    (hd : ctx.destinationAddress < 2 ^ 64) : baseAddress ctx < 2 ^ 64 := by
  unfold baseAddress
  split_ifs
  · exact hd
  · exact hw

theorem steady_runtime (imageBase virt imageSize : ℕ) (data : Option ℕ) (m log : Memory) :
    Steady fun fuel => relocateImageForRuntime imageBase virt imageSize data m log fuel := by
  unfold relocateImageForRuntime
  cases data with
  | none => exact steady_const _
  | some p =>
    dsimp only
    split_ifs
    · exact steady_const _
    · exact steady_const _
    · exact steady_const _
    · split
      all_goals exact steady_const _
    · split
      · exact steady_const _
      · exact steady_const _
      · exact (steady_loop _ _).map _

/-- The context for a relocation to `dest`, with a log. -/
def ImageContext.to (ctx : ImageContext) (dest : ℕ) (fixupData : Option ℕ) : ImageContext :=
  { ctx with destinationAddress := dest, fixupData := fixupData }

/-- The log fits its buffer. -/
theorem IsImage.finish_fixAll (h : IsImage ctx m blocks rs) {fixupData : Option ℕ}
    (hlog : ∀ p, fixupData = some p → ctx.LogAt p) (adjust dest : ℕ) (m₁ log : Memory) :
    finish (ctx.to dest fixupData)
        ((firstPass adjust).fixAll rs ⟨m₁, log, fixupData⟩, none) =
      some ⟨.success, .success, movedEntryPoint (ctx.to dest fixupData),
        ((firstPass adjust).fixAll rs ⟨m₁, log, fixupData⟩).mem,
        ((firstPass adjust).fixAll rs ⟨m₁, log, fixupData⟩).log⟩ := by
  refine if_pos ?_
  rw [fixRecords_fixupData]
  cases fixupData with
  | none => exact Nat.zero_le _
  | some p =>
    obtain ⟨⟨k, rfl⟩, hlt⟩ := hlog p rfl
    change logEnd (8 * k + 0) rs ≤ add64 (8 * k) ctx.fixupDataSize
    rw [add64_of_lt hlt, logEnd_add]
    exact Nat.add_le_add_left h.room _

/-- **The first pass moves the image, and notes its fields when it moves at all.** -/
theorem IsImage.relocateImage (h : IsImage ctx m blocks rs) (log : Memory)
    (hde : dest < 2 ^ 64) {fixupData : Option ℕ}
    (hlog : ∀ p, fixupData = some p → ctx.LogAt p) :
    ∃ r, Yields (fun fuel => relocateImage (ctx.to dest fixupData) m log fuel) r ∧
      r.status = .success ∧ r.mem = PeCoff.moved ctx m rs (baseAddress (ctx.to dest fixupData)) ∧
      ∀ p, fixupData = some p →
        baseAddress (ctx.to dest fixupData) ≠ linkedBase ctx m →
        LogShows r.log (fun x => le r.mem x.place x.width) p rs := by
  have hba : baseAddress (ctx.to dest fixupData) < 2 ^ 64 := baseAddress_lt h.word hde
  have hkept : (ctx.to dest fixupData).relocationsStripped = false := h.kept
  have hl : linkedBase (ctx.to dest fixupData) m = linkedBase ctx m := rfl
  generalize hb : baseAddress (ctx.to dest fixupData) = base at hba
  unfold PeCoff.relocateImage
  simp only [hkept, Bool.false_eq_true, if_false, hl, hb]
  by_cases hz : sub64 base (linkedBase ctx m) = 0
  · obtain rfl := eq_of_sub64_eq_zero hba (linkedBase_lt ctx m) hz
    have hf : findDirectory (ctx.to dest fixupData) m = findDirectory ctx m := rfl
    simp only [hz, if_true, hf]
    refine ⟨⟨.success, .success, (ctx.to dest fixupData).entryPoint, m, log⟩, ⟨0, ?_⟩, rfl, ?_, ?_⟩
    · rcases h.directory with ⟨hnone, -⟩ | ⟨d, hd, -⟩
      · rw [hnone]
      · rw [hd]
    · exact h.moved_linkedBase.symm
    · exact fun _ _ hne => absurd rfl hne
  · have hs : PeCoff.setImageBase (ctx.to dest fixupData) m base =
        PeCoff.setImageBase ctx m base := rfl
    have hf : findDirectory (ctx.to dest fixupData) (PeCoff.setImageBase ctx m base) =
        findDirectory ctx m := (sameHeaders_setImageBase ctx m base).findDirectory
    simp only [hz, if_false, hs, hf]
    rcases h.directory with ⟨hnone, rfl, rfl⟩ | ⟨d, hd, hsc⟩
    · rw [hnone]
      exact ⟨_, ⟨0, h.finish_fixAll hlog (sub64 base (linkedBase ctx m)) dest _ log⟩, rfl, rfl,
        fun _ _ _ => trivial⟩
    · rw [hd]
      have hr := hsc.returns (s := ⟨PeCoff.setImageBase ctx m base, log, fixupData⟩)
        (firstPass_local (sub64 base (linkedBase ctx m))) (fun _ _ _ _ => id) (Nat.le_refl _)
        (h.sameBlocks_setImageBase base) h.unread
      refine ⟨_, Yields.bind (steady_loop _ _) hr (steady_const _)
        ⟨0, h.finish_fixAll hlog _ dest _ log⟩, rfl, ?_, ?_⟩
      · exact fixRecords_mem _ _ _
      · exact fun p hp _ => fixRecords_log hp h.apart

/-- The image at `m` relocated for `dest` is the image at `m'`. -/
def Relocates (ctx : ImageContext) (dest : ℕ) (m m' : Memory) : Prop :=
  ∀ log, ∃ r, Yields (fun fuel => relocateImage (ctx.to dest ctx.fixupData) m log fuel) r ∧
    r.status = .success ∧ r.mem = m'

/-- The base address of a relocation for `dest`. -/
def baseFor (ctx : ImageContext) (dest : ℕ) : ℕ := baseAddress (ctx.to dest ctx.fixupData)

theorem IsImage.relocates_iff (h : IsImage ctx m blocks rs) (hd : dest < 2 ^ 64) :
    Relocates ctx dest m m' ↔ m' = PeCoff.moved ctx m rs (baseFor ctx dest) := by
  constructor
  · intro hre
    obtain ⟨r, hr, -, rfl⟩ := hre fun _ => 0
    obtain ⟨r', hr', -, hmem, -⟩ := h.relocateImage (fun _ => 0) hd h.fixupData
    obtain rfl := hr.unique (steady_relocateImage _ _ _) hr'
    exact hmem
  · rintro rfl log
    obtain ⟨r, hr, hs, hmem, -⟩ := h.relocateImage log hd h.fixupData
    exact ⟨r, hr, hs, hmem⟩

theorem IsImage.relocates (h : IsImage ctx m blocks rs) (hd : dest < 2 ^ 64) :
    Relocates ctx dest m (PeCoff.moved ctx m rs (baseFor ctx dest)) :=
  (h.relocates_iff hd).mpr rfl

theorem IsImage.runtimeContext (h : IsImage ctx m blocks rs) (hte : ctx.isTeImage = false) :
    findDirectory (runtimeContext m ctx.imageAddress ctx.imageSize) m = findDirectory ctx m ∧
      numberOfRvaAndSizes (runtimeContext m ctx.imageAddress ctx.imageSize) m =
        numberOfRvaAndSizes ctx m := by
  have ho := (h.pe hte).1
  obtain ⟨imageAddress, imageSize, dest, entry, offset, te, stripped, data, size⟩ := ctx
  dsimp only at hte ho
  subst hte ho
  exact ⟨rfl, rfl⟩

theorem IsImage.runtime_fixAll (h : IsImage ctx m blocks rs) (hte : ctx.isTeImage = false)
    (hn : directoryEntryBaseReloc < numberOfRvaAndSizes ctx m) (hz : ctx.imageAddress ≠ 0)
    {virt : ℕ} (hv : virt ≠ 0) (p : ℕ) (log : Memory) :
    Yields (fun fuel => relocateImageForRuntime ctx.imageAddress virt ctx.imageSize (some p) m log
        fuel)
      ((runtimePass (sub64 virt ctx.imageAddress) log).fixAll rs ⟨m, p⟩).mem := by
  obtain ⟨hf, hcnt⟩ := h.runtimeContext hte
  obtain ⟨ho, hs⟩ := h.pe hte
  unfold relocateImageForRuntime
  simp only [hz, hv, or_self, if_false, ho, hs, ne_eq, not_true_eq_false, hcnt,
    not_le.mpr hn, hf]
  rcases h.directory with ⟨hnone, -, rfl⟩ | ⟨d, hd, hsc⟩
  · rw [hnone]
    exact ⟨0, rfl⟩
  rw [hd]
  split_ifs with ha
  · refine ⟨0, congrArg some (refixRecords_still (s := ⟨m, p⟩) fun r hr => ?_).symm⟩
    rw [amount_mod (h.types r hr), ha, zero_mod]
  · have hre := hsc.returns (s := ⟨m, p⟩)
      (runtimePass_local (sub64 virt ctx.imageAddress) log) (runtimePass_lenient _ log d)
      (Nat.le_refl _) (fun _ _ _ _ _ => rfl) h.unread
    exact Yields.map hre fun r => r.1.mem

/-- **The runtime pass moves the fields that hold what the log shows.** -/
theorem IsImage.runtime_mem (h : IsImage ctx m blocks rs) (hte : ctx.isTeImage = false)
    (hn : directoryEntryBaseReloc < numberOfRvaAndSizes ctx m) (hz : ctx.imageAddress ≠ 0)
    {virt p : ℕ} (hv : virt ≠ 0) {log : Memory} {val : Record → ℕ}
    (hl : LogShows log val p rs) :
    Yields (fun fuel => relocateImageForRuntime ctx.imageAddress virt ctx.imageSize (some p) m log
        fuel)
      (adjustAll place width
        (fun r => if val r = le m r.place r.width then r.amount (sub64 virt ctx.imageAddress)
          else 0) rs m) := by
  have hy := h.runtime_fixAll hte hn hz hv p log
  rwa [refixRecords_mem hl h.apart] at hy

theorem le_four (m : Memory) (a : ℕ) : le m a 4 % 2 ^ 16 = le m a 2 := by
  have := (m a).toNat_lt
  have := (m (a + 1)).toNat_lt
  simp only [le]
  omega

/-- The runtime pass leaves a TE image alone, and one at address zero. -/
theorem IsImage.runtime_none (h : IsImage ctx m blocks rs)
    (hn : ctx.imageAddress = 0 ∨ ctx.isTeImage = true) (virt p : ℕ) (log : Memory) :
    Yields (fun fuel => relocateImageForRuntime ctx.imageAddress virt ctx.imageSize (some p) m log
      fuel) m := by
  refine ⟨0, ?_⟩
  unfold relocateImageForRuntime
  dsimp only
  by_cases hz : ctx.imageAddress = 0
  · simp only [hz, true_or, if_true]
  by_cases hv : virt = 0
  · simp only [hv, or_true, if_true]
  have hte := hn.resolve_left hz
  have hm := h.te hte
  have hf := le_four m ctx.imageAddress
  rw [if_neg (by tauto), if_pos]
  rw [headerOffset, if_neg (by rw [hm]; decide), add_zero]
  unfold ntSignature
  omega

/-- The `ASSERT` for a PE image with too few directory entries. -/
theorem IsImage.entries_of_runtime (h : IsImage ctx m blocks rs) (hz : ctx.imageAddress ≠ 0)
    (hte : ctx.isTeImage = false) {virt p : ℕ} (hv : virt ≠ 0) {log : Memory}
    (hy : Yields (fun fuel => relocateImageForRuntime ctx.imageAddress virt ctx.imageSize (some p) m
      log fuel) m') : directoryEntryBaseReloc < numberOfRvaAndSizes ctx m := by
  obtain ⟨fuel, hf⟩ := hy
  obtain ⟨ho, hs⟩ := h.pe hte
  by_contra hle
  unfold relocateImageForRuntime at hf
  dsimp only at hf
  rw [if_neg (by tauto), ho, if_neg (by simp [hs]), (h.runtimeContext hte).2,
    if_pos (not_lt.mp hle)] at hf
  cases hf

/-! ## The laws -/

/-- What the runtime pass should make of `m₂`, when the first pass has left `m₁`: the fields that
hold what they held in `m₁` get what they hold in `mV`, and nothing else changes. -/
structure Refixed (rs : List Record) (m₁ mV m₂ m₃ : Memory) : Prop where
  others : ∀ x, (∀ r ∈ rs, ¬ (r.place ≤ x ∧ x < r.place + r.width)) → m₃ x = m₂ x
  fields : ∀ r ∈ rs, le m₃ r.place r.width =
    if le m₂ r.place r.width = le m₁ r.place r.width then le mV r.place r.width
    else le m₂ r.place r.width

/-- The laws of relocation: to `a` and then to `b`; to `a` and back; and at runtime to `virt`, from
where the image lies. -/
structure RelocationLaws (ctx : ImageContext) (m : Memory) (blocks : List (ℕ × ℕ))
    (rs : List Record) (a b virt : ℕ) : Prop where
  compose : ∃ m₁ m₂, Relocates ctx a m m₁ ∧ Relocates ctx b m₁ m₂ ∧ Relocates ctx b m m₂
  restore : ∀ back < 2 ^ 64, baseFor ctx back = linkedBase ctx m →
    ∃ m₁, Relocates ctx a m m₁ ∧ Relocates ctx back m₁ m
  /-- Between the passes the image may have been written to, outside of its headers and blocks; the
  log is as it was left if anything was noted in it. -/
  runtime : ∀ (data : ℕ) (log : Memory), ctx.LogAt data → ∃ r mV,
    Yields (fun fuel => relocateImage (ctx.to 0 (some data)) m log fuel) r ∧
    Relocates ctx virt m mV ∧
    ∀ m₂ log₂, SameHeaders ctx r.mem m₂ → SameBlocks blocks r.mem m₂ →
      (ctx.imageAddress ≠ linkedBase ctx m → log₂ = r.log) →
      ∃ m₃, Yields (fun fuel => relocateImageForRuntime ctx.imageAddress virt ctx.imageSize
          (some data) m₂ log₂ fuel) m₃ ∧ Refixed rs r.mem mV m₂ m₃

/-- The header has room for the base address, or no field of eight bytes depends on it. -/
def MovesAsLinked (ctx : ImageContext) (m : Memory) (rs : List Record) (a : ℕ) : Prop :=
  ctx.isTeImage = false → isPe32 ctx m = true →
    baseFor ctx a < 2 ^ 32 ∨ ∀ r ∈ rs, r.type ≠ .dir64

/-- A PE image has the directory entries that the runtime pass asserts. Such an image is known to the
pass, and the first pass had to move it; or no field moves at runtime. -/
def RevisitsAll (ctx : ImageContext) (m : Memory) (rs : List Record) (virt : ℕ) : Prop :=
  (ctx.imageAddress ≠ 0 → ctx.isTeImage = false →
      directoryEntryBaseReloc < numberOfRvaAndSizes ctx m) ∧
    ((ctx.imageAddress ≠ 0 ∧ ctx.isTeImage = false ∧ ctx.imageAddress ≠ linkedBase ctx m) ∨
      ∀ r ∈ rs, r.amount (sub64 virt ctx.imageAddress) % 256 ^ r.width = 0)

section Laws

variable {a b virt : ℕ}

section

variable (h : IsImage ctx m blocks rs)
include h

/-- Distances add up over a base that the header has room for. -/
theorem amount_compose (hm : MovesAsLinked ctx m rs a) (ha : baseFor ctx a < 2 ^ 64) (b : ℕ) :
    ∀ r ∈ rs, (r.amount (sub64 (baseFor ctx a) (linkedBase ctx m)) +
        r.amount (sub64 b (linkedBase ctx (setImageBase ctx m (baseFor ctx a))))) % 256 ^ r.width =
      r.amount (sub64 b (linkedBase ctx m)) % 256 ^ r.width := by
  intro r hr
  have ht := h.types r hr
  rw [add_mod, amount_mod ht, amount_mod ht, amount_mod ht, ← add_mod,
    linkedBase_setImageBase ha]
  split_ifs with hpe
  · rcases hm hpe.1 hpe.2 with hs | hnone
    · refine Nat.ModEq.of_dvd (width_dvd r) ?_
      unfold Nat.ModEq sub64
      omega
    -- the fields are of four bytes at most, so the low half of the base decides
    · have hd : 256 ^ r.width ∣ 2 ^ 32 := by
        obtain ⟨type, place⟩ := r
        cases type
        all_goals simp only [width, RelocType.width]
        case dir64 => exact absurd rfl (hnone _ hr)
        all_goals decide
      refine Nat.ModEq.of_dvd hd ?_
      unfold Nat.ModEq sub64
      omega
  · refine Nat.ModEq.of_dvd (width_dvd r) ?_
    unfold Nat.ModEq sub64
    omega

theorem moved_moved_of (hm : MovesAsLinked ctx m rs a) (ha : baseFor ctx a < 2 ^ 64) (b : ℕ) :
    moved ctx (moved ctx m rs (baseFor ctx a)) rs b = moved ctx m rs b := by
  rw [h.moved_moved]
  exact adjustAll_congr (amount_compose h hm ha b)

theorem movesAsLinked_of (ha : baseFor ctx a < 2 ^ 64) (b : ℕ)
    (heq : moved ctx (moved ctx m rs (baseFor ctx a)) rs b = moved ctx m rs b) :
    MovesAsLinked ctx m rs a := by
  intro hte hpe
  by_contra hn
  obtain ⟨hb, r, hr, hd⟩ : 2 ^ 32 ≤ baseFor ctx a ∧ ∃ r ∈ rs, r.type = .dir64 := by
    simpa using hn
  have hle := congrArg (fun m => le m r.place r.width) heq
  rw [h.moved_moved] at hle
  unfold moved at hle
  rw [le_adjustAll h.apart hr, le_adjustAll h.apart hr, linkedBase_setImageBase ha,
    if_pos ⟨hte, hpe⟩] at hle
  have hc := Nat.ModEq.add_left_cancel' _ hle
  have hw : 256 ^ r.width = 2 ^ 64 := by simp [width, hd, RelocType.width]
  unfold Nat.ModEq at hc
  simp only [amount, hd, RelocType.amount] at hc
  rw [hw] at hc
  unfold sub64 at hc
  omega

/-- What the fields hold after a move from `m` directly, and after a move at runtime. -/
theorem le_moved_runtime (virt : ℕ) (hr : r ∈ rs) :
    le (moved ctx m rs virt) r.place r.width =
      (le (moved ctx m rs ctx.imageAddress) r.place r.width +
        r.amount (sub64 virt ctx.imageAddress)) % 256 ^ r.width := by
  have ht := h.types r hr
  have hf : ∀ base, le (moved ctx m rs base) r.place r.width =
      (le m r.place r.width + sub64 base (linkedBase ctx m)) % 256 ^ r.width := by
    intro base
    have hapart : le (setImageBase ctx m base) r.place r.width = le m r.place r.width := by
      refine le_congr fun i hi => setImageBase_of_not ?_
      have := h.outside r hr (r.place + i) (by omega) (by omega)
      have := baseField_mem ctx
      omega
    unfold moved
    rw [le_adjustAll h.apart hr, hapart, add_mod, amount_mod ht, ← add_mod]
  rw [hf, hf, mod_add_mod, add_assoc, add_mod, add_mod (le m _ _)]
  congr 2
  rw [add_mod _ (r.amount _), amount_mod ht, ← add_mod]
  refine Nat.ModEq.of_dvd (width_dvd r) ?_
  unfold Nat.ModEq sub64
  omega

theorem refixed_self
    (hstill : ∀ r ∈ rs, r.amount (sub64 virt ctx.imageAddress) % 256 ^ r.width = 0) (m₂ : Memory) :
    Refixed rs (moved ctx m rs ctx.imageAddress) (moved ctx m rs virt) m₂ m₂ := by
  refine ⟨fun _ _ => rfl, fun r hr => ?_⟩
  rw [le_moved_runtime h virt hr, add_mod, hstill r hr, add_zero, mod_mod,
    mod_eq_of_lt (le_lt _ _ _)]
  split_ifs with hs
  · exact hs
  · rfl

/-- A runtime pass that changes nothing is right only when no field moves. -/
theorem still_of_refixed_self
    (hre : Refixed rs (moved ctx m rs ctx.imageAddress) (moved ctx m rs virt)
      (moved ctx m rs ctx.imageAddress) (moved ctx m rs ctx.imageAddress)) :
    ∀ r ∈ rs, r.amount (sub64 virt ctx.imageAddress) % 256 ^ r.width = 0 := by
  intro r hr
  have hf := hre.fields r hr
  rw [if_pos rfl, le_moved_runtime h virt hr] at hf
  have hlt := le_lt (moved ctx m rs ctx.imageAddress) r.place r.width
  have hm : (le (moved ctx m rs ctx.imageAddress) r.place r.width + 0) % 256 ^ r.width =
      (le (moved ctx m rs ctx.imageAddress) r.place r.width +
        r.amount (sub64 virt ctx.imageAddress)) % 256 ^ r.width := by
    rw [← hf, add_zero, mod_eq_of_lt hlt]
  have hc := Nat.ModEq.add_left_cancel' _ hm
  rw [← hc]
  exact zero_mod _

variable {m₂ : Memory}

/-- `RevisitsAll` reads the same in the moved image. -/
theorem IsImage.numberOfRvaAndSizes_of
    (hte : ctx.isTeImage = false) (hs : SameHeaders ctx (PeCoff.moved ctx m rs base) m₂) :
    numberOfRvaAndSizes ctx m₂ = numberOfRvaAndSizes ctx m := by
  rw [hs.numberOfRvaAndSizes hte]
  unfold PeCoff.moved
  rw [(h.sameHeaders_adjustAll _ _).numberOfRvaAndSizes hte,
    (sameHeaders_setImageBase ctx m base).numberOfRvaAndSizes hte]

theorem runtime_of_revisitsAll
    (hz : virt ≠ 0) (ha : RevisitsAll ctx m rs virt) {r : Relocated} {data : ℕ}
    {log₂ : Memory} (hmem : r.mem = moved ctx m rs ctx.imageAddress)
    (hl : ctx.imageAddress ≠ linkedBase ctx m →
      LogShows r.log (fun x => le r.mem x.place x.width) data rs)
    (hh : SameHeaders ctx r.mem m₂) (hb : SameBlocks blocks r.mem m₂)
    (hs : ctx.imageAddress ≠ linkedBase ctx m → log₂ = r.log) :
    ∃ m₃, Yields (fun fuel => relocateImageForRuntime ctx.imageAddress virt ctx.imageSize
        (some data) m₂ log₂ fuel) m₃ ∧
      Refixed rs r.mem (moved ctx m rs virt) m₂ m₃ := by
  rw [hmem] at hh hb ⊢
  have him := (h.moved ctx.imageAddress).congr hh hb
  obtain ⟨hentries, ha⟩ := ha
  by_cases hk : ctx.imageAddress ≠ 0 ∧ ctx.isTeImage = false
  · obtain ⟨hp, hte⟩ := hk
    have hn := hentries hp hte
    rw [← h.numberOfRvaAndSizes_of hte hh] at hn
    by_cases hm : ctx.imageAddress = linkedBase ctx m
    -- nothing was noted, so nothing may move
    · rcases ha with ⟨-, -, hne⟩ | hstill
      · exact absurd hm hne
      · have hy := him.runtime_fixAll hte hn hp hz data log₂
        rw [refixRecords_still hstill] at hy
        exact ⟨m₂, hy, refixed_self h hstill m₂⟩
    · have hl' := hl hm
      rw [hmem] at hl'
      rw [hs hm]
      refine ⟨_, him.runtime_mem hte hn hp hz hl', fun x hx => adjustAll_of_not hx, fun r hr => ?_⟩
      -- just the unmodified fields are adjusted
      rw [le_adjustAll h.apart hr, le_moved_runtime h virt hr]
      by_cases hun : le m₂ r.place r.width = le (moved ctx m rs ctx.imageAddress) r.place r.width
      · rw [if_pos hun, if_pos hun.symm, hun]
      · rw [if_neg hun, if_neg (Ne.symm hun), add_zero, mod_eq_of_lt (le_lt _ _ _)]
  · have hnone : ctx.imageAddress = 0 ∨ ctx.isTeImage = true := by
      rw [not_and_or, not_not, Bool.not_eq_false] at hk
      exact hk
    refine ⟨m₂, him.runtime_none hnone virt data log₂, refixed_self h ?_ m₂⟩
    exact ha.resolve_left fun hin => hk ⟨hin.1, hin.2.1⟩

/-- A log that shows for every field another value than it holds makes the runtime pass leave the
image alone. -/
theorem IsImage.exists_runtime_self (hv : virt ≠ 0) (p : ℕ)
    (hentries : ctx.imageAddress ≠ 0 → ctx.isTeImage = false →
      directoryEntryBaseReloc < numberOfRvaAndSizes ctx m) :
    ∃ log, Yields (fun fuel => relocateImageForRuntime ctx.imageAddress virt ctx.imageSize
      (some p) m log fuel) m := by
  by_cases hk : ctx.imageAddress ≠ 0 ∧ ctx.isTeImage = false
  · obtain ⟨hp, hte⟩ := hk
    have hn := hentries hp hte
    obtain ⟨log, hl⟩ := exists_logShows (fun r => le m r.place r.width + 1) p rs
    refine ⟨log, ?_⟩
    have hy := h.runtime_mem hte hn hp hv hl
    rwa [adjustAll_eq_self] at hy
    intro r hr
    split_ifs with hs
    · by_cases ho : 256 ^ r.width = 1
      · rw [ho, mod_one]
      · have hm : (le m r.place r.width + 1) % 256 ^ r.width ≠ le m r.place r.width := by
          rcases lt_or_ge (le m r.place r.width + 1) (256 ^ r.width) with hin | hout
          · rw [mod_eq_of_lt hin]
            omega
          · rw [show le m r.place r.width + 1 = 256 ^ r.width by omega, mod_self]
            omega
        exact absurd hs hm
    · exact zero_mod _
  · rw [not_and_or, not_not, Bool.not_eq_false] at hk
    exact ⟨fun _ => 0, h.runtime_none hk virt p _⟩

end

theorem baseFor_of_ne (hz : virt ≠ 0) : baseFor ctx virt = virt := by
  simp [baseFor, baseAddress, ImageContext.to, hz]

theorem revisitsAll_of_laws (h : IsImage ctx m blocks rs) (hv : virt < 2 ^ 64)
    (hz : virt ≠ 0) (hl : RelocationLaws ctx m blocks rs a b virt) :
    RevisitsAll ctx m rs virt := by
  have hto : baseFor ctx virt = virt := baseFor_of_ne hz
  have hlog : ctx.LogAt 0 := ⟨dvd_zero 8, by have := h.fixupDataSize_lt; omega⟩
  have hdata : ∀ p, some 0 = some p → ctx.LogAt p := fun _ hp => Option.some.inj hp ▸ hlog
  obtain ⟨r, mV, hr, hV, hrt⟩ := hl.runtime 0 (fun _ => 0) hlog
  obtain ⟨r', hr', -, hmem, -⟩ := h.relocateImage (fun _ => 0) (Nat.two_pow_pos 64) hdata
  obtain rfl := hr.unique (steady_relocateImage _ _ _) hr'
  obtain rfl := (h.relocates_iff hv).mp hV
  rw [hto, hmem] at hrt
  have hentries : ctx.imageAddress ≠ 0 → ctx.isTeImage = false →
      directoryEntryBaseReloc < numberOfRvaAndSizes ctx (moved ctx m rs ctx.imageAddress) := by
    intro hp hte
    obtain ⟨_, hy, -⟩ := hrt _ r.log (fun _ _ _ _ => rfl) (fun _ _ _ _ _ => rfl) fun _ => rfl
    exact (h.moved ctx.imageAddress).entries_of_runtime hp hte hz hy
  refine ⟨fun hp hte => ?_, or_iff_not_imp_left.mpr fun hno => still_of_refixed_self h ?_⟩
  · rw [← h.numberOfRvaAndSizes_of hte fun _ _ _ _ => rfl]
    exact hentries hp hte
  -- a log for which the runtime pass leaves the image as the first pass has left it
  obtain ⟨log₂, hsa, hs⟩ : ∃ log₂, (ctx.imageAddress ≠ linkedBase ctx m → log₂ = r.log) ∧
      Yields (fun fuel => relocateImageForRuntime ctx.imageAddress virt ctx.imageSize (some 0)
        (moved ctx m rs ctx.imageAddress) log₂ fuel) (moved ctx m rs ctx.imageAddress) := by
    by_cases hm : ctx.imageAddress = linkedBase ctx m
    · obtain ⟨log₂, hs⟩ := (h.moved ctx.imageAddress).exists_runtime_self hz 0 hentries
      exact ⟨log₂, fun hne => absurd hm hne, hs⟩
    · refine ⟨r.log, fun _ => rfl, (h.moved ctx.imageAddress).runtime_none ?_ virt 0 r.log⟩
      by_contra hk
      rw [not_or, Bool.not_eq_true] at hk
      exact hno ⟨hk.1, hk.2, hm⟩
  obtain ⟨m₃, h₃, hre⟩ := hrt _ log₂ (fun _ _ _ _ => rfl) (fun _ _ _ _ _ => rfl) hsa
  obtain rfl := h₃.unique (steady_runtime _ _ _ _ _ _) hs
  exact hre

/-- **The laws of relocation hold just when the header has room for the base address on the way, and
the runtime pass can revisit all fields that have to move.** -/
theorem relocationLaws_iff (h : IsImage ctx m blocks rs) (ha : a < 2 ^ 64) (hb : b < 2 ^ 64)
    (hvirt : virt < 2 ^ 64) (hzero : virt ≠ 0) :
    RelocationLaws ctx m blocks rs a b virt ↔
      MovesAsLinked ctx m rs a ∧ RevisitsAll ctx m rs virt := by
  have hba : ∀ dest < 2 ^ 64, baseFor ctx dest < 2 ^ 64 :=
    fun dest hd => baseAddress_lt h.word hd
  have hto : baseFor ctx virt = virt := baseFor_of_ne hzero
  constructor
  · intro hl
    refine ⟨?_, ?_⟩
    · obtain ⟨m₁, m₂, h₁, h₂, h₃⟩ := hl.compose
      obtain rfl := (h.relocates_iff ha).mp h₁
      obtain rfl := ((h.moved _).relocates_iff hb).mp h₂
      exact movesAsLinked_of h (hba a ha) _ ((h.relocates_iff hb).mp h₃)
    · exact revisitsAll_of_laws h hvirt hzero hl
  · rintro ⟨hm, hal⟩
    refine ⟨?_, ?_, ?_⟩
    · refine ⟨_, _, h.relocates ha, (h.moved _).relocates hb, ?_⟩
      exact (h.relocates_iff hb).mpr (moved_moved_of h hm (hba a ha) _)
    · intro back hbac heq
      refine ⟨_, h.relocates ha, ((h.moved _).relocates_iff hbac).mpr ?_⟩
      rw [moved_moved_of h hm (hba a ha) _, heq, h.moved_linkedBase]
    · intro data log hlog
      have hdata : ∀ p, some data = some p → ctx.LogAt p := fun _ hp => Option.some.inj hp ▸ hlog
      obtain ⟨r, hr, -, hmem, hlo⟩ := h.relocateImage log (Nat.two_pow_pos 64) hdata
      have hV := h.relocates hvirt
      rw [hto] at hV
      refine ⟨r, _, hr, hV, fun m₂ log₂ hh hbl hs => ?_⟩
      exact runtime_of_revisitsAll h hzero hal hmem (hlo data rfl) hh hbl hs

end Laws

/-! ## An image -/

/-- A PE32+ image of two pages at `0x10000`, without a DOS header. -/
def sampleContext : ImageContext :=
  { imageAddress := 0x10000, imageSize := 0x2000, destinationAddress := 0, entryPoint := 0x11000
    peCoffHeaderOffset := 0, isTeImage := false, relocationsStripped := false, fixupData := none
    fixupDataSize := 48 }

/-- Its headers, linked for address zero, and a relocation directory of one block with two
records. -/
def sampleImage : Memory :=
  storeBytes (storeBytes (storeBytes (storeBytes (storeBytes (fun _ => 0)
    0x10000 (leBytes 4 ntSignature)) 0x10018 (leBytes 2 0x20b)) 0x10084 (leBytes 4 16))
    0x100b0 (leBytes 4 0x1000 ++ leBytes 4 12))
    0x11000 (leBytes 4 0x1000 ++ leBytes 4 12 ++ leBytes 2 0xa100 ++ leBytes 2 0)

def sampleRecords : List Record := [⟨.dir64, 0x11100⟩, ⟨.absolute, 0x11000⟩]

def sampleDirectory : Directory := ⟨0x10000, 0x2000, 0, 0x11000, 0x1100b, 12⟩

theorem scanned_sample :
    Scanned sampleDirectory sampleImage 0x11000 [(0x11000, 12)] sampleRecords := by
  have hs : le sampleImage (0x11000 + 4) 4 = 12 := by decide +kernel
  have he : Scanned sampleDirectory sampleImage (0x11000 + le sampleImage (0x11000 + 4) 4)
      [] [] := .done (by rw [hs]; decide)
  have hp : sampleDirectory.address (le sampleImage 0x11000 4) = some 0x11000 := by
    decide +kernel
  have hr : recordsAt sampleDirectory sampleImage (le sampleImage 0x11000 4)
      (recordCount (le sampleImage (0x11000 + 4) 4)) (0x11000 + 8) = some sampleRecords := by
    decide +kernel
  have hb := Scanned.block (by decide) (by decide +kernel) hp hr he
  exact hb

theorem isImage_sample :
    IsImage sampleContext sampleImage [(0x11000, 12)] sampleRecords where
  kept := rfl
  word := by decide
  te := by decide
  pe _ := ⟨by decide +kernel, by decide +kernel⟩
  dos _ := .inl rfl
  directory := .inr ⟨sampleDirectory, by decide +kernel, scanned_sample⟩
  types := by decide
  apart := by
    refine pairwise_cons.mpr ⟨fun r hr => ?_, pairwise_singleton _ _⟩
    obtain rfl := mem_singleton.mp hr
    exact apart_of_le (.inr (by decide))
  outside := by
    refine forall_mem_cons.mpr ⟨?_, forall_mem_singleton.mpr ?_⟩
    · exact apart_of_le (.inr (by decide))
    · exact apart_of_le (.inr (by decide))
  unread := by
    refine forall_mem_cons.mpr ⟨?_, forall_mem_singleton.mpr ?_⟩
    · exact forall_mem_singleton.mpr (apart_of_le (.inr (by decide)))
    · exact forall_mem_singleton.mpr (apart_of_le (.inl (by decide)))
  blocksOutside := by
    exact forall_mem_singleton.mpr (apart_of_le (.inr (by decide)))
  fixupData _ hp := by cases hp
  room := by decide
  fixupDataSize_lt := by decide

/-- The laws of the image, which was moved away from the base it was linked for. -/
theorem relocationLaws_iff_sample :
    RelocationLaws sampleContext sampleImage [(0x11000, 12)] sampleRecords 0x30000 0x40000
      0x50000 := by
  refine (relocationLaws_iff isImage_sample (by decide) (by decide) (by decide) (by decide)).mpr
    ⟨fun _ _ => .inl (by decide), fun _ _ => by decide +kernel, .inl ?_⟩
  exact ⟨by decide, rfl, by decide +kernel⟩

/-- An image that lies where it is linked for is not moved by the runtime pass. -/
theorem not_relocationLaws_linked :
    IsImage sampleContext (setImageBase sampleContext sampleImage 0x10000) [(0x11000, 12)]
        sampleRecords ∧
      ¬ RelocationLaws sampleContext (setImageBase sampleContext sampleImage 0x10000)
        [(0x11000, 12)] sampleRecords 0x30000 0x40000 0x20000 := by
  have him := isImage_sample.setImageBase 0x10000
  refine ⟨him, fun hl => ?_⟩
  rcases (revisitsAll_of_laws him (by decide) (by decide) hl).2 with ⟨-, -, hne⟩ | hstill
  · refine hne ?_
    rfl
  · exact absurd (hstill ⟨.dir64, 0x11100⟩ mem_cons_self) (by decide +kernel)

end Edk2.PeCoff
