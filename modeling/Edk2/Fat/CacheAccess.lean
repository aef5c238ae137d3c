import Edk2.Fat.CacheExchange

/-!
# Accesses through the disk cache

`FatAccessCache` cut into its parts: a part of a page at the start, aligned pages, and a part of a
page at the end. Aligned pages go around the cache: what is newer in the cache is copied over what
was read, and pages that were written are dropped from the cache. A read returns the content that
disk and caches show, and a write changes it, when the disk refuses no load into an occupied group,
and no request of a write a part of which is stored.

## Main results

* `fatAccessCache_eq`: `FatAccessCache` is its parts one after another
* `accessParts_read`, `accessParts_write`: what the parts do
-/

namespace Edk2.Fat

open List Option Fat.Geometry EfiStatus Bool

variable {g : Geometry} {v v' : CachedVolume} {t : CacheDataType} {k n a i : ℕ}
  {content : Memory} {buffer : List UInt8}

/-! ## Aligned pages -/

theorem Geometry.pagePos_add (g : Geometry) (t : CacheDataType) (k n : ℕ) :
    g.pagePos t (k + n) = g.pagePos t k + n * g.pageSize t := by
  rw [pagePos, pagePos, add_mul, add_assoc]

theorem Geometry.pageLength_full (h : g.pagePos t (k + 1) ≤ g.limitAddress t) :
    g.pageLength t k = g.pageSize t := by
  rw [pagePos_add] at h
  exact min_eq_right (by omega)

theorem copyInto_append (before old after bytes : List UInt8) (h : old.length = bytes.length) :
    copyInto (before ++ (old ++ after)) before.length bytes = before ++ (bytes ++ after) := by
  rw [copyInto, take_left, ← h, drop_append, Nat.add_sub_cancel_left,
    drop_eq_nil_of_le (Nat.le_add_right _ _), nil_append, drop_left,
    append_assoc]

variable {start k' offset : ℕ} {started : Bool}

/-- One round of `FatFlushDataCacheRange` after a read. -/
theorem flushPage_read (h : Coherent g v content) {before after : List UInt8}
    (hf : g.pagePos .data (k + 1) ≤ g.limitAddress .data)
    (hb : before.length = (k - start) * g.pageSize .data) :
    flushPage g .readDisk start k v
      (before ++ (bytesAt v.disk (g.pagePos .data k) (g.pageSize .data) ++ after)) =
      (v, before ++ (bytesAt content (g.pagePos .data k) (g.pageSize .data) ++ after)) := by
  have hle := pageLength_full hf
  simp only [flushPage, and_groupMask, shiftLeft_pageAlignment]
  by_cases hdi : Hit g v .data k ∧ (v.tag .data (g.slot .data k)).dirty = true
  · -- the page is newer in the cache
    have hl : lines g v .data (g.slot .data k) = some _ := if_pos hdi.1.1
    have hc := (h.shows .data).page_eq _ _ hl
    simp only [hdi.1.2, pages, h.realSize_eq hdi.1.1, hle] at hc
    have hh : 0 < (v.tag .data (g.slot .data k)).realSize ∧
      (v.tag .data (g.slot .data k)).pageNo = k := hdi.1
    simp only [if_pos hh, if_pos hdi.2]
    rw [hc, ← hb, copyInto_append _ _ _ _ (by rw [length_bytesAt, length_bytesAt])]
  · have hcl : CleanAt (g.slot .data) (lines g v .data) k := by
      intro line hl hk
      obtain ⟨hpos, hk', hd⟩ := lines_eq_some hl
      rw [hd]
      exact eq_false_iff.mpr fun hd' => hdi ⟨⟨hpos, hk'.symm.trans hk⟩, hd'⟩
    have hdis := (h.shows .data).store_eq ⟨0, g.writeCount_pos .data⟩ k hcl
    rw [stores, zero_mul, add_zero, pages, hle] at hdis
    rw [hdis]
    by_cases hh : 0 < (v.tag .data (g.slot .data k)).realSize ∧
        (v.tag .data (g.slot .data k)).pageNo = k
    · rw [if_pos hh, if_neg fun hd => hdi ⟨hh, hd⟩]
    · rw [if_neg hh]

/-- **`FatFlushDataCacheRange` after a read** turns what is on the disk into what is shown. -/
theorem flushRange_read (h : Coherent g v content) (hst : start ≤ k)
    (hf : g.pagePos .data (k + n) ≤ g.limitAddress .data) (before : List UInt8)
    (hb : before.length = (k - start) * g.pageSize .data) :
    fatFlushDataCacheRange g .readDisk start n k v
      (before ++ bytesAt v.disk (g.pagePos .data k) (n * g.pageSize .data)) =
      (v, before ++ bytesAt content (g.pagePos .data k) (n * g.pageSize .data)) := by
  induction n generalizing k before with
  | zero => simp [fatFlushDataCacheRange, bytesAt]
  | succ n ih =>
    have hm : g.pagePos .data (k + 1) ≤ g.limitAddress .data := by
      rw [pagePos_add]
      rw [pagePos_add, Nat.succ_mul] at hf
      omega
    have hs : ∀ m : Memory, bytesAt m (g.pagePos .data k) ((n + 1) * g.pageSize .data) =
        bytesAt m (g.pagePos .data k) (g.pageSize .data) ++
          bytesAt m (g.pagePos .data (k + 1)) (n * g.pageSize .data) := by
      intro m
      rw [Nat.succ_mul, add_comm, bytesAt_add, pagePos_add, one_mul]
    rw [fatFlushDataCacheRange, hs, hs, flushPage_read h hm hb]
    simp only
    rw [← append_assoc, ih (by omega) (by rwa [add_assoc, add_comm 1 n]),
      append_assoc]
    rw [length_append, hb, length_bytesAt, Nat.succ_sub hst, Nat.succ_mul]

/-- Lines of pages `k` with `K k` are dropped from the data cache. -/
structure Dropped (g : Geometry) (K : ℕ → Prop) (v v' : CachedVolume) : Prop where
  disk : v'.disk = v.disk
  written : v'.written = v.written
  other : v'.diskCache .fat = v.diskCache .fat
  dirty : (v'.diskCache .data).dirty = (v.diskCache .data).dirty
  lines_iff : ∀ i line, lines g v' .data i = some line ↔
    lines g v .data i = some line ∧ ¬ K line.key

/-- One round of `FatFlushDataCacheRange` after a write. -/
theorem flushPage_write (hsl : ∀ i line, lines g v .data i = some line →
    g.slot .data line.key = i) (start : ℕ) (buffer : List UInt8) :
    Dropped g (· = k) v (flushPage g .writeDisk start k v buffer).1 := by
  simp only [flushPage, and_groupMask]
  by_cases hh : 0 < (v.tag .data (g.slot .data k)).realSize ∧
      (v.tag .data (g.slot .data k)).pageNo = k
  · rw [if_pos hh]
    have hc := changed_setTag (g := g) v .data (g.slot .data k)
      { v.tag .data (g.slot .data k) with realSize := 0 }
    refine ⟨rfl, rfl, hc.other .fat (by decide), dirty_setTag .., fun i line => ?_⟩
    by_cases hi : i = g.slot .data k
    · subst hi
      rw [lines_eq_none (by rw [hc.tag_self])]
      refine ⟨nofun, fun hl => ?_⟩
      obtain ⟨-, hk, -⟩ := lines_eq_some hl.1
      exact absurd (hk.trans hh.2) hl.2
    · have hs : lines g (v.setTag .data (g.slot .data k)
          { v.tag .data (g.slot .data k) with realSize := 0 }) .data i = lines g v .data i := by
        refine lines_apply_congr ?_ ?_
        · rw [CachedVolume.tag, hc.tags, Function.update_of_ne hi, CachedVolume.tag]
        · rw [hc.base, storeBytes_nil]
      rw [hs]
      refine ⟨fun hl => ⟨hl, fun hk => hi ?_⟩, fun hl => hl.1⟩
      rw [← hk]
      exact (hsl i line hl).symm
  · rw [if_neg hh]
    refine ⟨rfl, rfl, rfl, rfl, fun i line => ⟨fun hl => ⟨hl, fun hk => ?_⟩, And.left⟩⟩
    have hi := hsl i line hl
    rw [hk] at hi
    subst hi
    obtain ⟨hpos, hk', -⟩ := lines_eq_some hl
    exact hh ⟨hpos, hk'.symm.trans hk⟩

/-- **`FatFlushDataCacheRange` after a write** drops the pages that were written. -/
theorem flushRange_write (hs : ∀ i line, lines g v .data i = some line →
    g.slot .data line.key = i) (start : ℕ) (buffer : List UInt8) :
    Dropped g (fun k' => k ≤ k' ∧ k' < k + n) v
      (fatFlushDataCacheRange g .writeDisk start n k v buffer).1 := by
  induction n generalizing k v buffer with
  | zero =>
    refine ⟨rfl, rfl, rfl, rfl, fun i line => ⟨fun hl => ⟨hl, ?_⟩, And.left⟩⟩
    omega
  | succ n ih =>
    have hd := flushPage_write (k := k) hs start buffer
    rw [fatFlushDataCacheRange]
    generalize flushPage g .writeDisk start k v buffer = r at hd
    have hr := ih (k := k + 1) (fun i line hl => hs i line ((hd.lines_iff i line).mp hl).1) r.2
    refine ⟨hr.disk.trans hd.disk, hr.written.trans hd.written,
      hr.other.trans hd.other, hr.dirty.trans hd.dirty, fun i line => ?_⟩
    rw [hr.lines_iff, hd.lines_iff]
    constructor
    · rintro ⟨⟨hl, hne⟩, hout⟩
      exact ⟨hl, by omega⟩
    · rintro ⟨hl, hout⟩
      exact ⟨⟨hl, by omega⟩, by omega⟩

/-- **A read of aligned pages.** -/
theorem accessAligned_read (h : Coherent g v content)
    (hf : g.pagePos .data (k + n) ≤ g.limitAddress .data)
    (hl : buffer.length = n * g.pageSize .data) :
    let r := accessAligned g v .data .readDisk k n buffer
    Coherent g r.2.1 content ∧ r.2.1.written = v.written ∧
      (r.1 = .success ↔ ¬ v.refuses 0 = true) ∧
      (r.1 = .success → r.2.2 = bytesAt content (g.pagePos .data k) buffer.length) := by
  have hle : g.pagePos .data k + buffer.length ≤ g.volumeSize := by
    rw [hl, ← pagePos_add]
    exact hf
  simp only [accessAligned, shiftLeft_pageAlignment]
  have hpos : g.rootPos + k * g.pageSize .data = g.pagePos .data k := rfl
  rw [hpos]
  cases hr : v.refuses 0 with
  | true =>
    rw [fatDiskIo_refused .readDisk hle hr]
    refine ⟨?_, rfl, ⟨nofun, nofun⟩, nofun⟩
    exact ⟨h.shows, h.dirty⟩
  | false =>
    have hd : Coherent g v.decided content := ⟨h.shows, h.dirty⟩
    have hra := flushRange_read hd (le_refl k) hf [] (by simp)
    rw [nil_append, ← hl] at hra
    rw [fatDiskIo_read hle hr]
    simp only [isError_success, false_eq_true, if_false]
    have hdi : v.disk = v.decided.disk := rfl
    rw [hdi, hra]
    exact ⟨hd, rfl, ⟨fun _ => nofun, fun _ => trivial⟩, fun _ => rfl⟩

theorem bytesAt_storeBytes_aligned {t' : CacheDataType} {c : ℕ} (m : Memory)
    (hl : buffer.length = n * g.pageSize .data) (hc : c < g.writeCount t')
    (hout : t' = .data → ¬ (k ≤ k' ∧ k' < k + n)) :
    bytesAt (storeBytes m (g.pagePos .data k) buffer) (g.pagePos t' k' + c * g.fatSize)
      (g.pageLength t' k') = bytesAt m (g.pagePos t' k' + c * g.fatSize) (g.pageLength t' k') := by
  refine bytesAt_congr fun j hj => ?_
  have hp : g.PlaceOf t' c k' (g.pagePos t' k' + c * g.fatSize + j) :=
    ⟨hc, Nat.le_add_right _ _, Nat.add_lt_add_left hj _⟩
  have hb := hp.bounds
  have hba : g.rootPos ≤ g.pagePos .data k := Nat.le_add_right _ _
  cases t' with
  | fat =>
    have hco := g.copy_le hc
    simp only [limitAddress] at hb
    exact storeBytes_of_lt (by omega)
  | data =>
    have hz : c = 0 := Nat.lt_one_iff.mp hc
    subst hz
    have hlen : g.pageLength .data k' ≤ g.pageSize .data := min_le_right _ _
    rcases lt_or_ge k' k with hlt | hge
    · have hm := mul_lt_of_lt (m := g.pageSize .data) hlt
      simp only [pagePos] at *
      exact storeBytes_of_lt (by omega)
    · have hle : k + n ≤ k' := by
        have := hout rfl
        omega
      have hm := Nat.mul_le_mul_right (g.pageSize .data) hle
      rw [add_mul] at hm
      simp only [pagePos] at *
      exact storeBytes_of_le (by omega)

/-- **A write of aligned pages.** -/
theorem accessAligned_write (h : Coherent g v content)
    (hf : g.pagePos .data (k + n) ≤ g.limitAddress .data)
    (hlen : buffer.length = n * g.pageSize .data) :
    let r := accessAligned g v .data .writeDisk k n buffer
    (r.1 = .success ↔ ¬ v.refuses 0 = true) ∧
      (r.1 ≠ .success → Coherent g r.2.1 content ∧ r.2.1.written = v.written) ∧
      (r.1 = .success → Coherent g r.2.1 (storeBytes content (g.pagePos .data k) buffer) ∧
        News (InPlace g (storeBytes content (g.pagePos .data k) buffer)) v r.2.1) := by
  have hle : g.pagePos .data k + buffer.length ≤ g.volumeSize := by
    rw [hlen, ← pagePos_add]
    exact hf
  simp only [accessAligned, shiftLeft_pageAlignment]
  have hpos : g.rootPos + k * g.pageSize .data = g.pagePos .data k := rfl
  rw [hpos]
  cases hr : v.refuses 0 with
  | true =>
    rw [fatDiskIo_refused .writeDisk hle hr]
    have hne : EfiStatus.deviceError ≠ .success := by decide
    exact ⟨iff_of_false hne (not_not.mpr rfl), fun _ => ⟨⟨h.shows, h.dirty⟩, rfl⟩,
      fun hs => absurd hs hne⟩
  | false =>
    rw [fatDiskIo_write hle hr]
    simp only [isError_success, false_eq_true, if_false]
    generalize hv₁ : ({ v.decided with
      disk := storeBytes v.disk (g.pagePos .data k) buffer
      written := (g.pagePos .data k, buffer) :: v.written } : CachedVolume) = v₁
    have hc : v₁.diskCache = v.diskCache := by rw [← hv₁]; rfl
    have hli : ∀ t, lines g v₁ t = lines g v t := fun t => lines_congr (by rw [hc])
    have hdr := flushRange_write (g := g) (v := v₁) (k := k) (n := n)
      (fun i line hl => by
        rw [hli] at hl
        exact (h.shows .data).slot_eq i line hl) k buffer
    generalize fatFlushDataCacheRange g .writeDisk k n k v₁ buffer = r at hdr
    obtain ⟨v₂, buffer₂⟩ := r
    have hdi : v₂.disk = storeBytes v.disk (g.pagePos .data k) buffer := by
      rw [hdr.disk, ← hv₁]
    refine ⟨⟨fun _ => nofun, fun _ => trivial⟩, fun hne => absurd rfl hne, fun _ => ⟨⟨?_, ?_⟩, ?_⟩⟩
    · intro t
      cases t with
      | fat =>
        have hst : stores g v₂ .fat = stores g v .fat := by
          funext c k'
          rw [stores, hdi]
          exact bytesAt_storeBytes_aligned v.disk hlen c.2 fun ht => by cases ht
        have hp : pages g (storeBytes content (g.pagePos .data k) buffer) .fat =
            pages g content .fat := by
          funext k'
          have hsa : bytesAt _ (g.pagePos .fat k' + 0 * g.fatSize) _ = _ :=
            bytesAt_storeBytes_aligned (k := k) content hlen (g.writeCount_pos .fat)
              fun ht => by cases ht
          rwa [zero_mul, add_zero] at hsa
        rw [lines_congr hdr.other, hli, hst, hp]
        exact h.shows .fat
      | data =>
        refine (h.shows .data).bypass (K := fun k' => k ≤ k' ∧ k' < k + n) ?_ ?_ ?_ ?_
        · intro i line
          rw [hdr.lines_iff, hli]
        · intro c k' hin
          have hz : (c : ℕ) = 0 := Nat.lt_one_iff.mp c.2
          rw [stores, hdi, hz, zero_mul, add_zero]
          -- the bytes written in aligned pages are the same over every memory
          refine bytesAt_congr fun j hj => ?_
          have hle : g.pageLength .data k' ≤ g.pageSize .data := min_le_right _ _
          have hm := Nat.mul_le_mul_right (g.pageSize .data) hin.1
          have hm' := mul_lt_of_lt (m := g.pageSize .data) hin.2
          rw [add_mul] at hm'
          have hr : g.pagePos .data k ≤ g.pagePos .data k' + j ∧
              g.pagePos .data k' + j < g.pagePos .data k + buffer.length := by
            simp only [pagePos]
            omega
          rw [storeBytes, storeBytes, if_pos hr, if_pos hr]
        · intro k' hout
          have hsa := bytesAt_storeBytes_aligned content hlen (g.writeCount_pos .data)
            (fun _ => hout)
          rwa [zero_mul, add_zero] at hsa
        · intro c k' hout
          rw [stores, stores, hdi]
          exact bytesAt_storeBytes_aligned v.disk hlen c.2 fun _ => hout
    · intro t i line hl hd
      cases t with
      | fat =>
        rw [lines_congr hdr.other, hli] at hl
        rw [hdr.other, hc]
        exact h.dirty .fat i line hl hd
      | data =>
        rw [hdr.lines_iff, hli] at hl
        rw [hdr.dirty, hc]
        exact h.dirty .data i line hl.1 hd
    · refine ⟨[(g.pagePos .data k, buffer)], by rw [hdr.written, ← hv₁]; rfl, fun w hw => ?_⟩
      rw [mem_singleton.mp hw]
      refine ⟨.data, 0, k, Nat.one_pos, ?_, ?_, ?_⟩
      · rw [zero_mul, add_zero]
      · rw [hlen, ← pagePos_add]
        exact hf
      · exact (bytesAt_storeBytes _ _ _).symm

/-! ## The parts of an access -/

/-- An access of a part of a page, or of aligned pages. -/
inductive Part
  | page (pageNo offset : ℕ) (buffer : List UInt8)
  | aligned (pageNo count : ℕ) (buffer : List UInt8)

def Part.bytes : Part → List UInt8
  | .page _ _ buffer => buffer
  | .aligned _ _ buffer => buffer

def accessPart (g : Geometry) (v : CachedVolume) (t : CacheDataType) (mode : IoMode) :
    Part → EfiStatus × CachedVolume × List UInt8
  | .page pageNo offset buffer => fatAccessUnalignedCachePage g v t mode pageNo offset buffer
  | .aligned pageNo count buffer => accessAligned g v t mode pageNo count buffer

/-- Parts one after another, until one fails. -/
def accessParts (g : Geometry) (t : CacheDataType) (mode : IoMode) :
    List Part → CachedVolume → EfiStatus × CachedVolume × List UInt8
  | [], v => (.success, v, [])
  | part :: rest, v =>
    let r := accessPart g v t mode part
    if r.1.isError then (r.1, r.2.1, r.2.2 ++ (rest.map Part.bytes).flatten)
    else
      let r' := accessParts g t mode rest r.2.1
      (r'.1, r'.2.1, r.2.2 ++ r'.2.2)

section

variable (g : Geometry) (t : CacheDataType)

def restParts (pageNo : ℕ) (buffer : List UInt8) : List Part :=
  let count := buffer.length / g.pageSize t
  let aligned := buffer.take (count * g.pageSize t)
  let overRun := buffer.drop (count * g.pageSize t)
  (if 0 < count then [.aligned pageNo count aligned] else []) ++
    if overRun = [] then [] else [.page (pageNo + count) 0 overRun]

def parts (offset : ℕ) (buffer : List UInt8) : List Part :=
  let entryPos := offset - g.baseAddress t
  let pageNo := entryPos / g.pageSize t
  let underRun := entryPos % g.pageSize t
  let length := min (g.pageSize t - underRun) buffer.length
  if 0 < underRun then
    .page pageNo underRun (buffer.take length) ::
      restParts g t (pageNo + 1) (buffer.drop length)
  else restParts g t pageNo buffer

theorem flatten_restParts (k : ℕ) (buffer : List UInt8) :
    ((restParts g t k buffer).map Part.bytes).flatten = buffer := by
  have hs := take_append_drop (buffer.length / g.pageSize t * g.pageSize t) buffer
  simp only [restParts]
  by_cases hcnt : 0 < buffer.length / g.pageSize t
  · by_cases hnil : buffer.drop (buffer.length / g.pageSize t * g.pageSize t) = []
    · rw [hnil] at hs
      simp [hcnt, hnil, Part.bytes, hs]
    · simp [hcnt, hnil, Part.bytes]
  · have hz : buffer.length / g.pageSize t = 0 := Nat.eq_zero_of_not_pos hcnt
    rw [hz]
    by_cases hnil : buffer = []
    · simp [hnil]
    · simp [hnil, Part.bytes]

end

section

variable (g : Geometry) (v : CachedVolume) (t : CacheDataType)

theorem accessParts_singleton
    (mode : IoMode) (part : Part) : accessParts g t mode [part] v = accessPart g v t mode part := by
  rw [accessParts]
  generalize accessPart g v t mode part = r
  obtain ⟨status, v₁, bytes⟩ := r
  cases he : status.isError with
  | true => simp
  | false => simp [accessParts, isError_eq_false.mp he]

theorem accessRest_eq (mode : IoMode) (k : ℕ) (buffer : List UInt8) :
    accessRest g v t mode k buffer = accessParts g t mode (restParts g t k buffer) v := by
  simp only [accessRest, restParts, shiftLeft_pageAlignment, Nat.shiftRight_eq_div_pow]
  rw [← pageSize]
  generalize buffer.length / g.pageSize t = count
  generalize buffer.drop (count * g.pageSize t) = overRun
  generalize hr : (if 0 < count then
    accessAligned g v t mode k count (buffer.take (count * g.pageSize t))
    else (.success, v, buffer.take (count * g.pageSize t))) = r
  obtain ⟨status, v₁, aligned⟩ := r
  by_cases hcnt : 0 < count
  · rw [if_pos hcnt] at hr
    rw [if_pos hcnt, singleton_append, accessParts, accessPart, hr]
    by_cases hnil : overRun = []
    · cases he : status.isError with
      | true => simp [hnil]
      | false => simp [hnil, accessParts, isError_eq_false.mp he]
    · cases he : status.isError with
      | true => simp [hnil, Part.bytes]
      | false => simp [hnil, accessParts_singleton, accessPart]
  · have hz : count = 0 := Nat.eq_zero_of_not_pos hcnt
    subst hz
    obtain ⟨rfl, rfl, rfl⟩ := hr
    by_cases hnil : overRun = []
    · simp [hnil, accessParts]
    · simp [hnil, accessParts_singleton, accessPart]

/-- **`FatAccessCache` is its parts one after another.** -/
theorem fatAccessCache_eq (mode : IoMode) (offset : ℕ) (buffer : List UInt8) :
    fatAccessCache g v t mode offset buffer =
      accessParts g t mode (parts g t offset buffer) v := by
  simp only [fatAccessCache, parts, Nat.shiftRight_eq_div_pow, accessRest_eq]
  rw [pageSize, Nat.and_two_pow_sub_one_eq_mod]
  split
  · rw [accessParts, accessPart, flatten_restParts]
  · rfl

end

/-- The part is at this place of the region. -/
def Part.Fits (g : Geometry) (t : CacheDataType) (offset : ℕ) : Part → Prop
  | .page k a buffer =>
    g.pagePos t k + a = offset ∧ a + buffer.length ≤ g.pageLength t k ∧
      g.pagePos t k < g.limitAddress t
  | .aligned k n buffer =>
    g.pagePos t k = offset ∧ buffer.length = n * g.pageSize t ∧
      g.pagePos t (k + n) ≤ g.limitAddress t

def Laid (g : Geometry) (t : CacheDataType) : ℕ → List Part → Prop
  | _, [] => True
  | offset, part :: rest => part.Fits g t offset ∧ Laid g t (offset + part.bytes.length) rest

theorem laid_restParts (h : g.pagePos t k + buffer.length ≤ g.limitAddress t) :
    Laid g t (g.pagePos t k) (restParts g t k buffer) := by
  have hd := Nat.div_add_mod' buffer.length (g.pageSize t)
  have hm := Nat.mod_lt buffer.length (g.pageSize_pos t)
  simp only [restParts]
  generalize buffer.length / g.pageSize t = count at hd
  have hpos := g.pagePos_add t k count
  have ho : (buffer.drop (count * g.pageSize t)).length = buffer.length % g.pageSize t := by
    rw [length_drop]
    omega
  have hlast : Laid g t (g.pagePos t (k + count))
      (if buffer.drop (count * g.pageSize t) = [] then []
        else [.page (k + count) 0 (buffer.drop (count * g.pageSize t))]) := by
    split
    · trivial
    · rename_i hne
      have hl := length_pos_iff.mpr hne
      refine ⟨⟨add_zero _, ?_, by omega⟩, trivial⟩
      exact Nat.le_min.mpr ⟨by omega, by omega⟩
  by_cases hcnt : 0 < count
  · rw [if_pos hcnt]
    have ht : (buffer.take (count * g.pageSize t)).length = count * g.pageSize t := by
      rw [length_take]
      omega
    refine ⟨⟨rfl, ht, by omega⟩, ?_⟩
    rw [Part.bytes, ht, ← hpos]
    exact hlast
  · have hz : count = 0 := Nat.eq_zero_of_not_pos hcnt
    subst hz
    exact hlast

/-- **The parts of an access are the access**, and each is inside its page or pages. -/
theorem laid_parts (hb : g.baseAddress t ≤ offset)
    (hl : offset + buffer.length ≤ g.limitAddress t) :
    Laid g t offset (parts g t offset buffer) ∧
      ((parts g t offset buffer).map Part.bytes).flatten = buffer := by
  have hd := Nat.div_add_mod' (offset - g.baseAddress t) (g.pageSize t)
  have hm := Nat.mod_lt (offset - g.baseAddress t) (g.pageSize_pos t)
  simp only [parts]
  generalize (offset - g.baseAddress t) / g.pageSize t = k at hd
  generalize hu : (offset - g.baseAddress t) % g.pageSize t = underRun at hm
  have ho : g.pagePos t k + underRun = offset := by
    rw [pagePos]
    omega
  by_cases hun : 0 < underRun
  · rw [if_pos hun]
    have hnext := g.pagePos_add t k 1
    generalize hle : min (g.pageSize t - underRun) buffer.length = length
    have ht : (buffer.take length).length = length := by
      rw [length_take]
      omega
    refine ⟨⟨⟨ho, ?_, by omega⟩, ?_⟩, ?_⟩
    · exact Nat.le_min.mpr ⟨by omega, by omega⟩
    · rw [Part.bytes, ht]
      by_cases ha : length = buffer.length
      · -- nothing is behind the under-run
        rw [drop_eq_nil_of_le (le_of_eq ha.symm)]
        simp [restParts, Laid]
      · have hpos : offset + length = g.pagePos t (k + 1) := by omega
        rw [hpos]
        refine laid_restParts ?_
        rw [length_drop]
        omega
    · rw [map_cons, flatten_cons, flatten_restParts, Part.bytes, take_append_drop]
  · rw [if_neg hun, flatten_restParts]
    have hpos : g.pagePos t k = offset := by omega
    refine ⟨?_, rfl⟩
    rw [← hpos]
    refine laid_restParts ?_
    omega

/-! ## Reads and writes -/

/-- The disk does to the part what is needed: it loads no page in vain into an occupied group. Whole
pages are pages of data. -/
def Part.Kept (g : Geometry) (v : CachedVolume) (t : CacheDataType) : Part → Prop
  | .page k _ _ => LoadKept g v t k
  | .aligned _ _ _ => t = .data

/-- The disk refuses a request of the part. -/
def Part.Refused (g : Geometry) (v : CachedVolume) (t : CacheDataType) : Part → Prop
  | .page k _ _ => PageRefused g v t k
  | .aligned _ _ _ => v.refuses 0 = true

/-- What the disk does to the parts of an access. A write may be refused in its first part only,
before any of its bytes is stored. -/
def AccessKept (g : Geometry) (t : CacheDataType) (mode : IoMode) :
    Bool → CachedVolume → List Part → Prop
  | _, _, [] => True
  | started, v, part :: rest =>
    part.Kept g v t ∧ (mode = .writeDisk → started = true → ¬ part.Refused g v t) ∧
      (¬ part.Refused g v t →
        AccessKept g t mode true (accessPart g v t mode part).2.1 rest)

variable {part : Part} {list : List Part}

theorem accessPart_read (h : Coherent g v content)
    (hf : part.Fits g t offset) (hkept : part.Kept g v t) :
    let r := accessPart g v t .readDisk part
    Coherent g r.2.1 content ∧ News (InPlace g content) v r.2.1 ∧
      (r.1 = .success ↔ ¬ part.Refused g v t) ∧
      (r.1 = .success → r.2.2 = bytesAt content offset part.bytes.length) := by
  cases part with
  | page k a buffer =>
    obtain ⟨rfl, hfi, hk⟩ := hf
    exact accessUnaligned_read h hk hkept hfi
  | aligned k n buffer =>
    obtain ⟨rfl, hl, hfu⟩ := hf
    have ht : t = .data := hkept
    subst ht
    obtain ⟨hc, hw, hif, hok⟩ := accessAligned_read h hfu hl
    exact ⟨hc, .of_eq hw, hif, hok⟩

/-- **Every byte written is, in its place, of the content before or after.** -/
def Belongs (g : Geometry) (before after : Memory) (w : ℕ × List UInt8) : Prop :=
  ∃ mid, (∀ a, mid a = before a ∨ mid a = after a) ∧ InPlace g mid w

theorem accessPart_write (h : Coherent g v content)
    (hfi : part.Fits g t offset) (hkept : part.Kept g v t) :
    let r := accessPart g v t .writeDisk part
    (r.1 = .success ↔ ¬ part.Refused g v t) ∧
      (r.1 ≠ .success → Coherent g r.2.1 content ∧ News (InPlace g content) v r.2.1) ∧
      (r.1 = .success → Coherent g r.2.1 (storeBytes content offset part.bytes) ∧
        News (Belongs g content (storeBytes content offset part.bytes)) v r.2.1) := by
  cases part with
  | page k a buffer =>
    obtain ⟨rfl, hfit, hk⟩ := hfi
    obtain ⟨hn, hif, hf, hok⟩ := accessUnaligned_write h hk hkept hfit
    refine ⟨hif, fun hne => ⟨hf hne, hn⟩, fun hs => ⟨hok hs, ?_⟩⟩
    exact hn.mono fun w hw => ⟨content, fun a => .inl rfl, hw⟩
  | aligned k n buffer =>
    obtain ⟨rfl, hl, hfu⟩ := hfi
    have ht : t = .data := hkept
    subst ht
    obtain ⟨hif, hf, hok⟩ := accessAligned_write h hfu hl
    refine ⟨hif, fun hne => ?_, fun hs => ?_⟩
    · obtain ⟨hc, hwr⟩ := hf hne
      exact ⟨hc, .of_eq hwr⟩
    · obtain ⟨hc, hn⟩ := hok hs
      exact ⟨hc, hn.mono fun w hw => ⟨_, fun a => .inr rfl, hw⟩⟩

/-- **A read returns the content.** -/
theorem accessParts_read
    (h : Coherent g v content) (hl : Laid g t offset list)
    (hkept : AccessKept g t .readDisk started v list) :
    let r := accessParts g t .readDisk list v
    Coherent g r.2.1 content ∧ News (InPlace g content) v r.2.1 ∧
      (r.1 = .success →
        r.2.2 = bytesAt content offset (list.map Part.bytes).flatten.length) := by
  induction list generalizing v offset started with
  | nil => exact ⟨h, .of_eq rfl, fun _ => rfl⟩
  | cons part rest ih =>
    obtain ⟨hc, hn, hif, hok⟩ := accessPart_read h hl.1 hkept.1
    have hr := hkept.2.2
    simp only [accessParts]
    generalize accessPart g v t .readDisk part = r at hc hn hif hok hr
    obtain ⟨status, v₁, bytes⟩ := r
    simp only at hn hif hok hr
    cases he : status.isError with
    | true =>
      have hne := isError_eq_true.mp he
      exact ⟨hc, hn, fun hs => absurd hs hne⟩
    | false =>
      have hs := isError_eq_false.mp he
      obtain ⟨hc', hn', hok'⟩ := ih hc hl.2 (hr (hif.mp hs))
      simp only [false_eq_true, if_false]
      refine ⟨hc', hn.trans hn', fun hs' => ?_⟩
      rw [hok hs, hok' hs', map_cons, flatten_cons, length_append, bytesAt_add]

theorem storeBytes_between (content : Memory) (offset : ℕ) (first rest : List UInt8) (a : ℕ) :
    storeBytes content offset first a = content a ∨
      storeBytes content offset first a = storeBytes content offset (first ++ rest) a := by
  by_cases hin : offset ≤ a ∧ a < offset + first.length
  · right
    rw [storeBytes, storeBytes, if_pos hin, length_append, if_pos (by omega),
      getD_append _ _ _ _ (by omega)]
  · left
    rw [storeBytes, if_neg hin]

/-- **A write changes the content**, or nothing. -/
theorem accessParts_write
    (h : Coherent g v content) (hl : Laid g t offset list)
    (hkept : AccessKept g t .writeDisk started v list) :
    let r := accessParts g t .writeDisk list v
    let content' := storeBytes content offset (list.map Part.bytes).flatten
    (started = true → r.1 = .success) ∧
      (r.1 ≠ .success → Coherent g r.2.1 content ∧ News (Belongs g content content) v r.2.1) ∧
      (r.1 = .success → Coherent g r.2.1 content' ∧ News (Belongs g content content') v r.2.1) := by
  induction list generalizing v content offset started with
  | nil =>
    refine ⟨fun _ => rfl, fun hne => absurd rfl hne, fun _ => ?_⟩
    simp only [map_nil, flatten_nil, storeBytes_nil]
    exact ⟨h, .of_eq rfl⟩
  | cons part rest ih =>
    obtain ⟨hif, hf, hok⟩ := accessPart_write h hl.1 hkept.1
    have hsta := hkept.2.1 rfl
    have hr := hkept.2.2
    simp only [accessParts]
    generalize accessPart g v t .writeDisk part = r at hf hif hok hr
    obtain ⟨status, v₁, bytes⟩ := r
    cases he : status.isError with
    | true =>
      have hne := isError_eq_true.mp he
      refine ⟨fun hst => hif.mpr (hsta hst), fun _ => ?_, fun hs => absurd hs hne⟩
      obtain ⟨hc, hn⟩ := hf hne
      exact ⟨hc, hn.mono fun w hw => ⟨content, fun a => .inl rfl, hw⟩⟩
    | false =>
      have hs := isError_eq_false.mp he
      obtain ⟨hc, hn⟩ := hok hs
      obtain ⟨ha, -, hok'⟩ := ih hc hl.2 (hr (hif.mp hs))
      obtain ⟨hc', hn'⟩ := hok' (ha rfl)
      rw [storeBytes_append] at hc' hn'
      refine ⟨fun _ => ha rfl, fun hne => absurd (ha rfl) hne, fun _ => ⟨hc', ?_⟩⟩
      refine News.trans (hn.mono ?_) (hn'.mono ?_)
      · rintro w ⟨mid, hm, hw⟩
        refine ⟨mid, fun a => ?_, hw⟩
        rcases hm a with heq | heq
        · exact .inl heq
        · rw [heq]
          exact storeBytes_between content offset part.bytes _ a
      · rintro w ⟨mid, hm, hw⟩
        refine ⟨mid, fun a => ?_, hw⟩
        rcases hm a with heq | heq
        · rw [heq]
          exact storeBytes_between content offset part.bytes _ a
        · exact .inr heq

end Edk2.Fat
