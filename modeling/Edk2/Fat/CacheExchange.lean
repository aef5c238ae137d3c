import Edk2.Fat.CachePages

/-!
# One page of the disk cache

The operations on one page keep what the caches and the disk show together, as long as the disk does
not refuse to load a page into a group that holds another one: the tag of the group then names the
new page, over the bytes of the old one.

## Main results

* `exchange_write`, `exchange_load`: `FatExchangeCachePage`
* `fatGetCachePage_spec`, `accessUnaligned_read`, `accessUnaligned_write`
-/

namespace Edk2.Fat

open Fat.Geometry EfiStatus

variable {g : Geometry} {v v' : CachedVolume} {t t' : CacheDataType} {c k k' i a : ℕ}
  {content : Memory} {page buffer : List UInt8}

/-! ## Exchanging a page -/

/-- Copies of a dirty page on the disk are nothing to what is shown. -/
theorem Coherent.wrote (h : Coherent g v content) (hpos : 0 < (v.tag t i).realSize)
    (hdir : (v.tag t i).dirty = true)
    (hw : Wrote g t c (v.tag t i).pageNo page v v') : Coherent g v' content := by
  have hli : ∀ t', lines g v' t' = lines g v t' := fun t' =>
    lines_congr (by rw [hw.caches])
  have hdi : ∀ a, v'.disk a ≠ v.disk a → ∃ c, g.PlaceOf t c (v.tag t i).pageNo a := by
    intro a ha
    obtain ⟨c', -, hp⟩ := hw.disk a ha
    exact ⟨c', hp⟩
  refine ⟨fun t' => ?_, fun t' j line hl hd => ?_⟩
  · rw [hli]
    by_cases ht : t' = t
    · subst ht
      have hl : lines g v t' i = some _ := if_pos hpos
      exact (h.shows t').scribble hl hdir fun c k hk => stores_congr hdi c (.inr hk)
    · have hs : stores g v' t' = stores g v t' := by
        funext c k
        exact stores_congr hdi c (.inl ht)
      rw [hs]
      exact h.shows t'
  · rw [hli] at hl
    rw [hw.caches]
    exact h.dirty t' j line hl hd

/-- **A dirty page is written back.** -/
theorem exchange_write (h : Coherent g v content) (hpos : 0 < (v.tag t i).realSize)
    (hd : (v.tag t i).dirty = true) :
    let r := fatExchangeCachePage g v t .writeDisk i
    Coherent g r.2 content ∧ News (InPlace g content) v r.2 ∧
      (r.1 = .success ↔ ∀ j < g.writeCount t, v.refuses j = false) ∧
      (r.1 = .success → (∀ j, r.2.refuses j = v.refuses (j + g.writeCount t)) ∧
        r.2.diskCache = (v.setTag t i { v.tag t i with dirty := false }).diskCache) := by
  have hl : lines g v t i = some _ := if_pos hpos
  have hk := h.pagePos_lt hpos
  have hco := (h.shows t).page_eq i _ hl
  generalize hp : bytesAt (v.diskCache t).cacheBase (i * g.pageSize t) (v.tag t i).realSize =
    page at hco
  have hle : page.length = g.pageLength t (v.tag t i).pageNo := by
    rw [← hp, length_bytesAt, h.realSize_eq hpos]
  have hsp := writeCopies_spec (v := v) (le_of_lt hk) hle (zero_add _)
  rw [zero_mul] at hsp
  simp only [fatExchangeCachePage, and_groupMask, shiftLeft_pageAlignment,
    h.slot_eq hpos, hp]
  rw [← pagePos]
  generalize writeCopies g (g.writeCount t) v (g.pagePos t (v.tag t i).pageNo) page = r at hsp
  obtain ⟨status, v₁⟩ := r
  obtain ⟨hwr, hif, hok⟩ := hsp
  simp only at hwr hok
  have hcoh : Coherent g v₁ content := h.wrote hpos hd hwr
  have hn : News (InPlace g content) v v₁ := by
    refine hwr.written.mono fun w hw => ?_
    obtain ⟨c, hc, rfl⟩ := hw
    have hm : g.pageLength t (v.tag t i).pageNo ≤
      g.limitAddress t - g.pagePos t (v.tag t i).pageNo := min_le_left _ _
    refine ⟨t, c, _, hc, rfl, ?_, ?_⟩
    · simp only [hle]
      omega
    · simp only [hle]
      exact hco
  cases he : status.isError with
  | true =>
    have hne := isError_eq_true.mp he
    exact ⟨hcoh, hn, hif, fun hs => absurd hs hne⟩
  | false =>
    have hs := isError_eq_false.mp he
    obtain ⟨hsh, hcopies⟩ := hok hs
    have ht : v₁.tag t i = v.tag t i := by
      rw [CachedVolume.tag, hwr.caches, CachedVolume.tag]
    rw [if_neg Bool.false_ne_true]
    refine ⟨?_, hn, ⟨fun _ => hif.mp hs, fun _ => rfl⟩, fun _ => ⟨hsh, ?_⟩⟩
    · rw [← ht] at hpos ⊢
      have hl : lines g v₁ t i = some _ := if_pos hpos
      refine hcoh.changed (changed_setTag v₁ t i _) (Nat.zero_le _) hpos (fun _ _ => rfl) ?_ ?_
      · have hcl := (hcoh.shows t).clean hl fun c => by
          have hcop := hcopies c (Nat.zero_le _) c.2
          rwa [hle, ← hp, ← ht, ← hwr.caches] at hcop
        rw [changedLine, storeBytes_nil]
        exact hcl
      · rintro (hd | hd)
        · cases hd
        · rwa [dirty_setTag]
    · simp only [CachedVolume.setTag, hwr.caches]

/-- **A page is loaded** into a group without a dirty page. When the disk refuses, the group has to
be empty. -/
theorem exchange_load (h : Coherent g v content) (hk : g.pagePos t k < g.limitAddress t)
    (hcl : 0 < (v.tag t (g.slot t k)).realSize → (v.tag t (g.slot t k)).dirty = false)
    (hkept : v.refuses 0 = true → (v.tag t (g.slot t k)).realSize = 0) :
    let r := fatExchangeCachePage g
      (v.setTag t (g.slot t k) { v.tag t (g.slot t k) with pageNo := k }) t .readDisk (g.slot t k)
    Coherent g r.2 content ∧ r.2.written = v.written ∧ (r.1 = .success ↔ v.refuses 0 = false) ∧
      (r.1 = .success → r.2.tag t (g.slot t k) = ⟨k, g.pageLength t k, false⟩) := by
  have hcnt := g.writeCount_pos t
  have hlen : 0 < g.pageLength t k :=
    Nat.lt_min.mpr ⟨Nat.sub_pos_of_lt hk, g.pageSize_pos t⟩
  have hle := place_le g hcnt (le_of_lt hk) (le_refl _)
  rw [zero_mul] at hle
  have hst : bytesAt v.disk (g.pagePos t k) (g.pageLength t k) = pages g content t k := by
    have hsto := (h.shows t).store_eq ⟨0, hcnt⟩ k fun line hli _ => by
      obtain ⟨hpos, -, hd⟩ := lines_eq_some hli
      rw [hd]
      exact hcl hpos
    rwa [stores, zero_mul, add_zero] at hsto
  generalize hi : g.slot t k = i at hcl hkept
  generalize ht : ({ v.tag t i with pageNo := k } : CacheTag) = tag
  have hc : Changed g t i tag 0 [] v (v.setTag t i tag) := changed_setTag v t i tag
  have hdi : ((v.setTag t i tag).diskCache t).dirty = (v.diskCache t).dirty := dirty_setTag ..
  have hpa : tag.pageNo = k := by rw [← ht]
  simp only [fatExchangeCachePage, hc.tag_self, hpa, and_groupMask, hi,
    shiftLeft_pageAlignment]
  rw [← pagePos, ← pageLength]
  generalize hv₁ : v.setTag t i tag = v₁ at hc hdi
  have hre : v₁.refuses = v.refuses := by rw [← hv₁]; rfl
  have hw : v₁.written = v.written := by rw [← hv₁]; rfl
  cases hr : v.refuses 0 with
  | true =>
    -- the tag of an empty group may name any page
    have hempty := hkept hr
    rw [fatDiskIo_refused .readDisk (by rwa [length_bytesAt]) (by rw [hre, hr])]
    have hne : EfiStatus.deviceError ≠ .success := by decide
    refine ⟨?_, hw, iff_of_false hne (by decide), fun hs => absurd hs hne⟩
    exact h.changed_none (hc.congr rfl rfl) hempty (by rw [← ht]; exact hempty) hdi
  | false =>
    rw [fatDiskIo_read (by rwa [length_bytesAt]) (by rw [hre, hr]), length_bytesAt,
      hc.disk, hst]
    simp only [isError_success, Bool.false_eq_true, if_false]
    have hde : Changed g t i tag 0 [] v v₁.decided := hc.congr rfl rfl
    have hl := (hde.store 0 (pages g content t k)).setTag ⟨k, g.pageLength t k, false⟩
    refine ⟨?_, hw, trivial, fun _ => hl.tag_self⟩
    have hp : (pages g content t k).length = g.pageLength t k := length_bytesAt ..
    refine h.changed hl ?_ hlen (fun _ _ => rfl) ?_ ?_
    · rw [hp, zero_add]
      exact min_le_right _ _
    · rw [← hi]
      refine (h.shows t).load (fun old hold => ?_) ?_
      · rw [hi] at hold
        obtain ⟨hpos, -, hd⟩ := lines_eq_some hold
        rw [hd]
        exact hcl hpos
      · rw [← hp]
        exact bytesAt_storeBytes _ _ _
    · rintro (hd | hd)
      · cases hd
      · rw [dirty_setTag, dirty_store]
        exact hdi.trans hd

/-! ## A page of the cache -/

section

variable (g : Geometry) (v : CachedVolume) (t : CacheDataType)

/-- The group holds the page. -/
def Hit (k : ℕ) : Prop :=
  0 < (v.tag t (g.slot t k)).realSize ∧ (v.tag t (g.slot t k)).pageNo = k

/-- The number of requests to write back the page of the group. -/
def writeBacks (k : ℕ) : ℕ :=
  if 0 < (v.tag t (g.slot t k)).realSize ∧ (v.tag t (g.slot t k)).dirty = true then g.writeCount t
  else 0

/-- **No load into an occupied group is refused.** If the group holds another page, the disk gives
the new one, unless it refuses the old one before. -/
def LoadKept (k : ℕ) : Prop :=
  Hit g v t k ∨ (v.tag t (g.slot t k)).realSize = 0 ∨
    (∃ j < writeBacks g v t k, v.refuses j = true) ∨ v.refuses (writeBacks g v t k) = false

/-- The disk refuses a request on the way to the page. -/
def PageRefused (k : ℕ) : Prop :=
  ¬ Hit g v t k ∧ ∃ j ≤ writeBacks g v t k, v.refuses j = true

/-- What `FatGetCachePage` does before it loads. -/
def writeBack (k : ℕ) : EfiStatus × CachedVolume :=
  if 0 < (v.tag t (g.slot t k)).realSize ∧ (v.tag t (g.slot t k)).dirty = true then
    fatExchangeCachePage g v t .writeDisk (g.slot t k)
  else (.success, v)

end

theorem writeBack_spec (h : Coherent g v content) :
    let tag := v.tag t (g.slot t k)
    let r := writeBack g v t k
    Coherent g r.2 content ∧ News (InPlace g content) v r.2 ∧
      (r.1 = .success ↔ ∀ j < writeBacks g v t k, v.refuses j = false) ∧
      (r.1 = .success → (∀ j, r.2.refuses j = v.refuses (j + writeBacks g v t k)) ∧
        (r.2.tag t (g.slot t k)).realSize = tag.realSize ∧
        (0 < tag.realSize → (r.2.tag t (g.slot t k)).dirty = false)) := by
  intro tag
  rw [writeBack]
  by_cases hd : 0 < tag.realSize ∧ tag.dirty = true
  · have hb : writeBacks g v t k = g.writeCount t := if_pos hd
    obtain ⟨hco, hn, hif, hok⟩ := exchange_write h hd.1 hd.2
    rw [if_pos hd, hb]
    refine ⟨hco, hn, hif, fun hs => ?_⟩
    obtain ⟨hsh, hc⟩ := hok hs
    refine ⟨hsh, ?_, fun _ => ?_⟩
    · rw [CachedVolume.tag, hc, ← CachedVolume.tag, (changed_setTag (g := g) ..).tag_self]
    · rw [CachedVolume.tag, hc, ← CachedVolume.tag, (changed_setTag (g := g) ..).tag_self]
  · have hb : writeBacks g v t k = 0 := if_neg hd
    rw [if_neg hd, hb]
    refine ⟨h, .of_eq rfl, ?_, fun _ => ⟨fun j => rfl, rfl, fun hpos => ?_⟩⟩
    · exact ⟨fun _ j hj => absurd hj (Nat.not_lt_zero j), fun _ => rfl⟩
    · rw [not_and, Bool.not_eq_true] at hd
      exact hd hpos

/-- `FatGetCachePage`, when the group does not hold the page. -/
theorem fatGetCachePage_miss (h : ¬ Hit g v t k) :
    fatGetCachePage g v t k (g.slot t k) =
      let r := writeBack g v t k
      if r.1.isError then r
      else fatExchangeCachePage g
        (r.2.setTag t (g.slot t k) { r.2.tag t (g.slot t k) with pageNo := k }) t .readDisk
        (g.slot t k) :=
  if_neg h

/-- **`FatGetCachePage`** keeps what is shown when no load into an occupied group is refused. -/
theorem fatGetCachePage_spec (h : Coherent g v content) (hk : g.pagePos t k < g.limitAddress t)
    (hkept : LoadKept g v t k) :
    let r := fatGetCachePage g v t k (g.slot t k)
    Coherent g r.2 content ∧ News (InPlace g content) v r.2 ∧
      (r.1 = .success ↔ ¬ PageRefused g v t k) ∧ (r.1 = .success → Hit g r.2 t k) := by
  by_cases hh : Hit g v t k
  · have heq : fatGetCachePage g v t k (g.slot t k) = (.success, v) := if_pos hh
    rw [heq]
    refine ⟨h, .of_eq rfl, ⟨fun _ hr => hr.1 hh, fun _ => rfl⟩, fun _ => hh⟩
  · rw [fatGetCachePage_miss hh]
    have hsp := writeBack_spec (t := t) (k := k) h
    generalize writeBack g v t k = r at hsp
    obtain ⟨status, v₁⟩ := r
    obtain ⟨hc, hn, hif, hok⟩ := hsp
    cases he : status.isError with
    | true =>
      have hne := isError_eq_true.mp he
      simp only [he, if_true]
      refine ⟨hc, hn, ⟨fun hs => absurd hs hne, fun hno => ?_⟩, fun hs => absurd hs hne⟩
      refine hif.mpr fun j hj => Bool.eq_false_iff.mpr fun hr => ?_
      exact hno ⟨hh, j, le_of_lt hj, hr⟩
    | false =>
      have hs := isError_eq_false.mp he
      obtain ⟨hsh, hsi, hcl⟩ := hok hs
      have hnone := hif.mp hs
      simp only [he, Bool.false_eq_true, if_false]
      have hz : v₁.refuses 0 = v.refuses (writeBacks g v t k) := by
        rw [hsh, zero_add]
      have hl := exchange_load hc hk (fun hpos => hcl (hsi ▸ hpos)) fun hr => by
        rcases hkept with hkept | hkept | ⟨j, hj, hkept⟩ | hkept
        · exact absurd hkept hh
        · rw [hsi, hkept]
        · rw [hnone j hj] at hkept
          cases hkept
        · rw [hz, hkept] at hr
          cases hr
      obtain ⟨hc', hw, hi', hok'⟩ := hl
      refine ⟨hc', hn.trans (.of_eq hw), ?_, fun hs' => ?_⟩
      · rw [hi', hz]
        constructor
        · rintro hlast ⟨-, j, hj, hr⟩
          rcases lt_or_eq_of_le hj with hlt | rfl
          · rw [hnone j hlt] at hr
            cases hr
          · rw [hlast] at hr
            cases hr
        · intro hno
          exact Bool.eq_false_iff.mpr fun hr => hno ⟨hh, _, le_refl _, hr⟩
      · rw [Hit, hok' hs']
        exact ⟨Nat.lt_min.mpr ⟨Nat.sub_pos_of_lt hk, g.pageSize_pos t⟩, rfl⟩

/-- **A read of a part of a page.** -/
theorem accessUnaligned_read (h : Coherent g v content) (hk : g.pagePos t k < g.limitAddress t)
    (hkept : LoadKept g v t k) (hf : a + buffer.length ≤ g.pageLength t k) :
    let r := fatAccessUnalignedCachePage g v t .readDisk k a buffer
    Coherent g r.2.1 content ∧ News (InPlace g content) v r.2.1 ∧
      (r.1 = .success ↔ ¬ PageRefused g v t k) ∧
      (r.1 = .success → r.2.2 = bytesAt content (g.pagePos t k + a) buffer.length) := by
  obtain ⟨hc, hn, hif, hh⟩ := fatGetCachePage_spec h hk hkept
  simp only [fatAccessUnalignedCachePage, and_groupMask,
    shiftLeft_pageAlignment]
  generalize fatGetCachePage g v t k (g.slot t k) = r at hc hn hif hh
  obtain ⟨status, v₁⟩ := r
  cases he : status.isError with
  | true =>
    have hne := isError_eq_true.mp he
    exact ⟨hc, hn, hif, fun hs => absurd hs hne⟩
  | false =>
    refine ⟨hc, hn, hif, fun hs => ?_⟩
    obtain ⟨hpos, hp⟩ := hh hs
    have hl : lines g v₁ t (g.slot t k) = some _ := if_pos hpos
    have hco := (hc.shows t).page_eq _ _ hl
    simp only [hp, pages, hc.realSize_eq hpos] at hco
    exact bytesAt_eq_of_bytesAt hco hf

theorem pages_storeBytes_of_ne (hf : a + buffer.length ≤ g.pageLength t k)
    (hne : t' ≠ t ∨ k' ≠ k) :
    pages g (storeBytes content (g.pagePos t k + a) buffer) t' k' = pages g content t' k' := by
  refine bytesAt_congr fun j hj => ?_
  rw [storeBytes]
  split
  · have hp : g.PlaceOf t 0 k (g.pagePos t' k' + j) :=
      ⟨g.writeCount_pos t, by omega, by omega⟩
    have hp' : g.PlaceOf t' 0 k' (g.pagePos t' k' + j) :=
      ⟨g.writeCount_pos t', by omega, by omega⟩
    obtain ⟨ht, -, hk⟩ := hp'.unique hp
    rcases hne with hne | hne
    · exact absurd ht hne
    · exact absurd hk hne
  · rfl

/-- **A write of a part of a page.** -/
theorem accessUnaligned_write (h : Coherent g v content) (hk : g.pagePos t k < g.limitAddress t)
    (hkept : LoadKept g v t k) (hf : a + buffer.length ≤ g.pageLength t k) :
    let r := fatAccessUnalignedCachePage g v t .writeDisk k a buffer
    News (InPlace g content) v r.2.1 ∧ (r.1 = .success ↔ ¬ PageRefused g v t k) ∧
      (r.1 ≠ .success → Coherent g r.2.1 content) ∧
      (r.1 = .success → Coherent g r.2.1 (storeBytes content (g.pagePos t k + a) buffer)) := by
  obtain ⟨hco, hn, hif, hh⟩ := fatGetCachePage_spec h hk hkept
  simp only [fatAccessUnalignedCachePage, and_groupMask,
    shiftLeft_pageAlignment]
  generalize fatGetCachePage g v t k (g.slot t k) = r at hco hn hif hh
  obtain ⟨status, v₁⟩ := r
  cases he : status.isError with
  | true =>
    have hne := isError_eq_true.mp he
    exact ⟨hn, hif, fun _ => hco, fun hs => absurd hs hne⟩
  | false =>
    have hs := isError_eq_false.mp he
    simp only [Bool.false_eq_true, if_false]
    refine ⟨hn, hif, fun hne => absurd hs hne, fun _ => ?_⟩
    obtain ⟨hpos, hpa⟩ := hh hs
    have hl : lines g v₁ t (g.slot t k) = some _ := if_pos hpos
    have hch := ((changed_setTag (g := g) v₁ t (g.slot t k)
      { v₁.tag t (g.slot t k) with dirty := true }).setDirty true).store a buffer
    have hle : g.pageLength t k ≤ g.pageSize t := min_le_right _ _
    refine hco.changed hch (le_trans hf hle) hpos ?_ ?_ ?_
    · intro t' ht
      funext k'
      exact pages_storeBytes_of_ne hf (.inl ht)
    · have hpu := (hco.shows t).put hl
        (changedLine g v₁ t (g.slot t k) { v₁.tag t (g.slot t k) with dirty := true } a buffer).page
      have hp : pages g (storeBytes content (g.pagePos t k + a) buffer) t =
          Function.update (pages g content t) (v₁.tag t (g.slot t k)).pageNo
            (changedLine g v₁ t (g.slot t k)
              { v₁.tag t (g.slot t k) with dirty := true } a buffer).page := by
        have hc := (hco.shows t).page_eq _ _ hl
        simp only [hpa, pages, hco.realSize_eq hpos] at hc
        funext k'
        rw [hpa]
        by_cases hkk : k' = k
        · subst hkk
          rw [Function.update_self, changedLine]
          simp only [hco.realSize_eq hpos, hpa]
          exact (bytesAt_storeBytes_congr hc buffer).symm
        · rw [Function.update_of_ne hkk]
          exact pages_storeBytes_of_ne hf (.inr hkk)
      rw [hp]
      exact hpu
    · simp [CachedVolume.setDirty]

end Edk2.Fat
