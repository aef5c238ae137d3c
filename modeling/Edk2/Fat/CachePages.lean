import Edk2.Fat.Cache
import Edk2.Lib.WriteBack

/-!
# The pages of the disk cache

The two caches as write-back caches: the pages of a region, the lines of a cache, and the copies of
a page on the disk.

## Main results

* `Geometry.PlaceOf.unique`: an address is in one copy of one page
* `writeCopies_spec`: what writing the copies of a page does
* `Coherent.changed`: when a changed line shows the content
-/

namespace Edk2.Fat

variable {g : Geometry} {v v' : CachedVolume} {t t' : CacheDataType} {c c' k k' i a n : ℕ}
  {content : Memory} {page buffer : List UInt8}

namespace Geometry

variable (g : Geometry)

section

variable (t : CacheDataType)

def pagePos (k : ℕ) : ℕ := g.baseAddress t + k * g.pageSize t

/-- The length of a page; the last one may be shorter. -/
def pageLength (k : ℕ) : ℕ :=
  min (g.limitAddress t - g.pagePos t k) (g.pageSize t)

def slot (k : ℕ) : ℕ := k % 2 ^ g.groupBits t

theorem pageSize_pos : 0 < g.pageSize t := Nat.two_pow_pos _

theorem writeCount_pos : 0 < g.writeCount t := by
  cases t with
  | fat => exact g.numFats_pos
  | data => exact Nat.one_pos

theorem and_groupMask (k : ℕ) : k &&& g.groupMask t = g.slot t k :=
  Nat.and_two_pow_sub_one_eq_mod k _

theorem slot_lt (k : ℕ) : g.slot t k < g.groupMask t + 1 := by
  have hpos := Nat.two_pow_pos (g.groupBits t)
  rw [slot, groupMask]
  omega

theorem shiftLeft_pageAlignment (k : ℕ) : k <<< g.pageAlignment t = k * g.pageSize t :=
  Nat.shiftLeft_eq k _

/-- The address is in a copy of the page. -/
def PlaceOf (c k a : ℕ) : Prop :=
  c < g.writeCount t ∧ g.pagePos t k + c * g.fatSize ≤ a ∧
    a < g.pagePos t k + c * g.fatSize + g.pageLength t k

end

/-- The place lies in a copy of the region. -/
theorem PlaceOf.bounds {g : Geometry} (h : g.PlaceOf t c k a) :
    g.baseAddress t + c * g.fatSize ≤ a ∧ a < g.limitAddress t + c * g.fatSize := by
  obtain ⟨-, hle, hlt⟩ := h
  have hb : g.baseAddress t ≤ g.pagePos t k := Nat.le_add_right _ _
  have hl : g.pageLength t k ≤ g.limitAddress t - g.pagePos t k := min_le_left _ _
  omega

theorem mul_lt_of_lt {m : ℕ} (h : k < k') : k * m + m ≤ k' * m := by
  rw [← Nat.succ_mul]
  exact Nat.mul_le_mul_right m h

theorem copy_le (hc : c < g.numFats) : g.fatPos + g.fatSize + c * g.fatSize ≤ g.rootPos := by
  have hco := g.copies_le
  have hm := mul_lt_of_lt (m := g.fatSize) hc
  omega

/-- The copies of a region do not overlap. -/
theorem PlaceOf.copy_unique {g : Geometry} (h : g.PlaceOf t c k a) (h' : g.PlaceOf t c' k' a) :
    c = c' := by
  have hb := h.bounds
  have hb' := h'.bounds
  cases t with
  | fat =>
    rcases lt_trichotomy c c' with hlt | heq | hlt
    · have hm := mul_lt_of_lt (m := g.fatSize) hlt
      simp only [baseAddress, limitAddress] at hb hb'
      omega
    · exact heq
    · have hm := mul_lt_of_lt (m := g.fatSize) hlt
      simp only [baseAddress, limitAddress] at hb hb'
      omega
  | data =>
    have hc : c < 1 := h.1
    have hc' : c' < 1 := h'.1
    omega

/-- **An address belongs to one page**, of one copy. -/
theorem PlaceOf.unique {g : Geometry} (h : g.PlaceOf t c k a) (h' : g.PlaceOf t' c' k' a) :
    t = t' ∧ c = c' ∧ k = k' := by
  have hr : ∀ {c k c' k'}, g.PlaceOf .fat c k a → g.PlaceOf .data c' k' a → False := by
    intro c k c' k' h h'
    have hb := h.bounds
    have hb' := h'.bounds
    have hc := g.copy_le h.1
    simp only [baseAddress, limitAddress] at hb hb'
    omega
  have ht : t = t' := by
    cases t with
    | fat =>
      cases t' with
      | fat => rfl
      | data => exact (hr h h').elim
    | data =>
      cases t' with
      | fat => exact (hr h' h).elim
      | data => rfl
  subst ht
  have hc := h.copy_unique h'
  subst hc
  refine ⟨rfl, rfl, ?_⟩
  obtain ⟨-, hle, hlt⟩ := h
  obtain ⟨-, hle', hlt'⟩ := h'
  have hl : g.pageLength t k ≤ g.pageSize t := min_le_right _ _
  have hl' : g.pageLength t k' ≤ g.pageSize t := min_le_right _ _
  simp only [pagePos] at hle hlt hle' hlt'
  rcases lt_trichotomy k k' with hkk | heq | hkk
  · have hm := mul_lt_of_lt (m := g.pageSize t) hkk
    omega
  · exact heq
  · have hm := mul_lt_of_lt (m := g.pageSize t) hkk
    omega

/-- The pages lie in the volume. -/
theorem place_le (hc : c < g.writeCount t) (hk : g.pagePos t k ≤ g.limitAddress t)
    (hn : n ≤ g.pageLength t k) : g.pagePos t k + c * g.fatSize + n ≤ g.volumeSize := by
  have hl : g.pageLength t k ≤ g.limitAddress t - g.pagePos t k := min_le_left _ _
  have hr := g.rootPos_le
  cases t with
  | fat =>
    have hco := g.copy_le hc
    simp only [limitAddress] at hk hl
    omega
  | data =>
    have hz : c = 0 := Nat.lt_one_iff.mp hc
    subst hz
    simp only [limitAddress] at hk hl
    omega

end Geometry

/-! ## Lines and stores -/

def lines (g : Geometry) (v : CachedVolume) (t : CacheDataType) (i : ℕ) :
    Option (Line ℕ (List UInt8)) :=
  if 0 < (v.tag t i).realSize then
    some ⟨(v.tag t i).pageNo, (v.tag t i).dirty,
      bytesAt (v.diskCache t).cacheBase (i * g.pageSize t) (v.tag t i).realSize⟩
  else none

def stores (g : Geometry) (v : CachedVolume) (t : CacheDataType) (c : Fin (g.writeCount t))
    (k : ℕ) : List UInt8 :=
  bytesAt v.disk (g.pagePos t k + c * g.fatSize) (g.pageLength t k)

def pages (g : Geometry) (content : Memory) (t : CacheDataType) (k : ℕ) : List UInt8 :=
  bytesAt content (g.pagePos t k) (g.pageLength t k)

/-- **Disk and caches show the content.** -/
structure Coherent (g : Geometry) (v : CachedVolume) (content : Memory) : Prop where
  shows : ∀ t, Shows (g.slot t) (lines g v t) (stores g v t) (pages g content t)
  dirty : ∀ t i line, lines g v t i = some line → line.dirty = true → (v.diskCache t).dirty = true

theorem lines_congr (h : v'.diskCache t = v.diskCache t) : lines g v' t = lines g v t := by
  funext i
  unfold lines CachedVolume.tag
  rw [h]

theorem lines_eq_some {line : Line ℕ (List UInt8)} (h : lines g v t i = some line) :
    0 < (v.tag t i).realSize ∧ line.key = (v.tag t i).pageNo ∧
      line.dirty = (v.tag t i).dirty := by
  rw [lines] at h
  split at h
  · rename_i hpos
    cases h
    exact ⟨hpos, rfl, rfl⟩
  · cases h

theorem lines_eq_none (h : (v.tag t i).realSize = 0) : lines g v t i = none := by
  rw [lines, if_neg (by omega)]

/-- A page is loaded as a whole. -/
theorem Coherent.realSize_eq (h : Coherent g v content) (hpos : 0 < (v.tag t i).realSize) :
    (v.tag t i).realSize = g.pageLength t (v.tag t i).pageNo := by
  have hl : lines g v t i = some _ := if_pos hpos
  have hp := congrArg List.length ((h.shows t).page_eq i _ hl)
  simpa [pages] using hp

/-- A page is in the group of its number. -/
theorem Coherent.slot_eq (h : Coherent g v content) (hpos : 0 < (v.tag t i).realSize) :
    g.slot t (v.tag t i).pageNo = i := by
  have hl : lines g v t i = some _ := if_pos hpos
  exact (h.shows t).slot_eq i _ hl

/-- The other pages on the disk are as they were. -/
theorem stores_congr (h : ∀ a, v'.disk a ≠ v.disk a → ∃ c, g.PlaceOf t c k a)
    (c : Fin (g.writeCount t')) (hne : t' ≠ t ∨ k' ≠ k) :
    stores g v' t' c k' = stores g v t' c k' := by
  refine bytesAt_congr fun j hj => ?_
  by_contra hd
  obtain ⟨c', hp⟩ := h _ hd
  have hp' : g.PlaceOf t' c k' (g.pagePos t' k' + c * g.fatSize + j) :=
    ⟨c.2, Nat.le_add_right _ _, Nat.add_lt_add_left hj _⟩
  obtain ⟨ht, -, hk⟩ := hp'.unique hp
  rcases hne with hne | hne
  · exact hne ht
  · exact hne hk

/-! ## Requests -/

/-- The requests to write that were made from `v` to `v'`. -/
def News (P : ℕ × List UInt8 → Prop) (v v' : CachedVolume) : Prop :=
  ∃ news, v'.written = news ++ v.written ∧ ∀ w ∈ news, P w

/-- **A request writes bytes of a page where the page is**, or a copy of it. -/
def InPlace (g : Geometry) (content : Memory) (w : ℕ × List UInt8) : Prop :=
  ∃ t c k, c < g.writeCount t ∧ w.1 = g.pagePos t k + c * g.fatSize ∧
    g.pagePos t k + w.2.length ≤ g.limitAddress t ∧
    w.2 = bytesAt content (g.pagePos t k) w.2.length

section News

variable {P Q : ℕ × List UInt8 → Prop} {v'' : CachedVolume}

theorem News.of_eq (h : v'.written = v.written) : News P v v' := ⟨[], h, by simp⟩

theorem News.trans (h : News P v v') (h' : News P v' v'') : News P v v'' := by
  obtain ⟨news, heq, ha⟩ := h
  obtain ⟨news', heq', ha'⟩ := h'
  refine ⟨news' ++ news, by rw [heq', heq, List.append_assoc], fun w hw => ?_⟩
  rcases List.mem_append.mp hw with hw | hw
  · exact ha' w hw
  · exact ha w hw

theorem News.mono (h : News P v v') (hPQ : ∀ w, P w → Q w) : News Q v v' := by
  obtain ⟨news, heq, ha⟩ := h
  exact ⟨news, heq, fun w hw => hPQ w (ha w hw)⟩

end News

/-- An access that the device refuses. -/
theorem fatDiskIo_refused (mode : IoMode) (hle : a + buffer.length ≤ g.volumeSize)
    (hr : v.refuses 0 = true) :
    fatDiskIo g v mode a buffer = (.deviceError, { v.decided with diskError := true }, buffer) := by
  unfold fatDiskIo
  rw [if_pos hle, if_pos hr]

theorem fatDiskIo_read (hle : a + buffer.length ≤ g.volumeSize) (hr : v.refuses 0 = false) :
    fatDiskIo g v .readDisk a buffer =
      (.success, v.decided, bytesAt v.disk a buffer.length) := by
  rw [fatDiskIo, if_pos hle, if_neg (by rw [hr]; decide)]

theorem fatDiskIo_write (hle : a + buffer.length ≤ g.volumeSize) (hr : v.refuses 0 = false) :
    fatDiskIo g v .writeDisk a buffer =
      (.success, { v.decided with
        disk := storeBytes v.disk a buffer, written := (a, buffer) :: v.written }, buffer) := by
  rw [fatDiskIo, if_pos hle, if_neg (by rw [hr]; decide)]

/-- What writing copies of a page, from copy `c` on, does. -/
structure Wrote (g : Geometry) (t : CacheDataType) (c k : ℕ) (page : List UInt8)
    (v v' : CachedVolume) : Prop where
  caches : v'.diskCache = v.diskCache
  disk : ∀ a, v'.disk a ≠ v.disk a → ∃ c', c ≤ c' ∧ g.PlaceOf t c' k a
  written : News (fun w => ∃ c < g.writeCount t, w = (g.pagePos t k + c * g.fatSize, page)) v v'

/-- **The loop of `FatExchangeCachePage`**: it ends at the first request that is refused. -/
theorem writeCopies_spec (hk : g.pagePos t k ≤ g.limitAddress t)
    (hl : page.length = g.pageLength t k) (hc : c + n = g.writeCount t) :
    let r := writeCopies g n v (g.pagePos t k + c * g.fatSize) page
    Wrote g t c k page v r.2 ∧ (r.1 = .success ↔ ∀ i < n, v.refuses i = false) ∧
      (r.1 = .success → (∀ i, r.2.refuses i = v.refuses (i + n)) ∧
        ∀ c', c ≤ c' → c' < g.writeCount t →
          bytesAt r.2.disk (g.pagePos t k + c' * g.fatSize) page.length = page) := by
  induction n generalizing v c with
  | zero =>
    refine ⟨⟨rfl, fun a h => absurd rfl h, .of_eq rfl⟩, ?_, fun _ => ⟨fun i => rfl, ?_⟩⟩
    · exact ⟨fun _ i hi => absurd hi (Nat.not_lt_zero i), fun _ => rfl⟩
    · omega
  | succ n ih =>
    have hcnt : c < g.writeCount t := by omega
    have hle := Geometry.place_le g hcnt hk (le_of_eq hl)
    cases hr : v.refuses 0 with
    | true =>
      simp only [writeCopies, fatDiskIo_refused .writeDisk hle hr]
      refine ⟨⟨rfl, fun a h => absurd rfl h, .of_eq rfl⟩, ⟨nofun, fun h => ?_⟩, nofun⟩
      have hz := h 0 (Nat.succ_pos n)
      rw [hr] at hz
      cases hz
    | false =>
      simp only [writeCopies, fatDiskIo_write hle hr, EfiStatus.isError_success,
        Bool.false_eq_true, if_false]
      generalize hv₁ : ({ v.decided with
        disk := storeBytes v.disk (g.pagePos t k + c * g.fatSize) page
        written := (g.pagePos t k + c * g.fatSize, page) :: v.written } : CachedVolume) = v₁
      have hpos : g.pagePos t k + c * g.fatSize + g.fatSize =
          g.pagePos t k + (c + 1) * g.fatSize := by
        rw [Nat.succ_mul, add_assoc]
      obtain ⟨hwr, hif, hal⟩ := ih (c := c + 1) (by omega)
      rw [hpos]
      have hre : ∀ i, v₁.refuses i = v.refuses (i + 1) := fun i => by rw [← hv₁]; rfl
      have hpl : ∀ a, v₁.disk a ≠ v.disk a → g.PlaceOf t c k a := by
        intro a ha
        rw [← hv₁] at ha
        refine ⟨hcnt, ?_, ?_⟩
        · by_contra hlt
          exact ha (storeBytes_of_lt (by omega))
        · by_contra hlt
          exact ha (storeBytes_of_le (by omega))
      refine ⟨⟨?_, ?_, ?_⟩, ?_, ?_⟩
      · rw [hwr.caches, ← hv₁]
        rfl
      · intro a ha
        by_cases hf : v₁.disk a = v.disk a
        · obtain ⟨c', hc', hp⟩ := hwr.disk a (by rwa [hf])
          exact ⟨c', by omega, hp⟩
        · exact ⟨c, le_refl c, hpl a hf⟩
      · refine News.trans ⟨[(g.pagePos t k + c * g.fatSize, page)], by rw [← hv₁]; rfl, ?_⟩
          hwr.written
        intro w hw
        exact ⟨c, hcnt, List.mem_singleton.mp hw⟩
      · rw [hif]
        constructor
        · intro h i hi
          cases i with
          | zero => exact hr
          | succ i => exact hre i ▸ h i (by omega)
        · intro h i hi
          rw [hre]
          exact h (i + 1) (by omega)
      · intro hok
        obtain ⟨hs, hco⟩ := hal hok
        refine ⟨fun i => ?_, fun c' hle' hlt => ?_⟩
        · rw [hs, hre, add_assoc]
        · rcases lt_or_eq_of_le hle' with hlt' | heq
          · exact hco c' hlt' hlt
          · subst heq
            -- the later copies are elsewhere
            have hf : bytesAt v₁.disk (g.pagePos t k + c * g.fatSize) page.length = page := by
              rw [← hv₁]
              exact bytesAt_storeBytes _ _ _
            refine Eq.trans (bytesAt_congr fun j hj => ?_) hf
            by_contra hd
            obtain ⟨c', hc', hp⟩ := hwr.disk _ hd
            have hp' : g.PlaceOf t c k (g.pagePos t k + c * g.fatSize + j) :=
              ⟨hcnt, Nat.le_add_right _ _, by omega⟩
            have := (hp'.unique hp).2.1
            omega

/-! ## Changing a line -/

section Change

variable {tag : CacheTag} {offset : ℕ} {bytes : List UInt8}

/-- A tag is changed, and bytes of its page. -/
structure Changed (g : Geometry) (t : CacheDataType) (i : ℕ) (tag : CacheTag) (offset : ℕ)
    (bytes : List UInt8) (v v' : CachedVolume) : Prop where
  disk : v'.disk = v.disk
  other : ∀ t', t' ≠ t → v'.diskCache t' = v.diskCache t'
  tags : (v'.diskCache t).cacheTag = Function.update (v.diskCache t).cacheTag i tag
  base : (v'.diskCache t).cacheBase =
    storeBytes (v.diskCache t).cacheBase (i * g.pageSize t + offset) bytes

def changedLine (g : Geometry) (v : CachedVolume) (t : CacheDataType) (i : ℕ) (tag : CacheTag)
    (offset : ℕ) (bytes : List UInt8) : Line ℕ (List UInt8) :=
  ⟨tag.pageNo, tag.dirty,
    bytesAt (storeBytes (v.diskCache t).cacheBase (i * g.pageSize t + offset) bytes)
      (i * g.pageSize t) tag.realSize⟩

theorem Changed.tag_self (h : Changed g t i tag offset bytes v v') : v'.tag t i = tag := by
  rw [CachedVolume.tag, h.tags, Function.update_self]

theorem Changed.stores_eq (h : Changed g t i tag offset bytes v v') (t' : CacheDataType) :
    stores g v' t' = stores g v t' := by
  funext c k
  rw [stores, stores, h.disk]

theorem lines_apply_congr (ht : v'.tag t i = v.tag t i)
    (hb : bytesAt (v'.diskCache t).cacheBase (i * g.pageSize t) (v.tag t i).realSize =
      bytesAt (v.diskCache t).cacheBase (i * g.pageSize t) (v.tag t i).realSize) :
    lines g v' t i = lines g v t i := by
  rw [lines, lines, ht, hb]

/-- The other groups are as they were. -/
theorem Changed.lines_of_ne (h : Changed g t i tag offset bytes v v')
    (hs : ∀ j, (v.tag t j).realSize ≤ g.pageSize t)
    (hf : offset + bytes.length ≤ g.pageSize t) {j : ℕ} (hij : j ≠ i) :
    lines g v' t j = lines g v t j := by
  have hj := hs j
  refine lines_apply_congr ?_ ?_
  · rw [CachedVolume.tag, h.tags, Function.update_of_ne hij, CachedVolume.tag]
  · rw [h.base]
    refine bytesAt_storeBytes_of_disjoint ?_
    rcases Nat.lt_or_gt_of_ne hij with hlt | hlt
    · have hm := Geometry.mul_lt_of_lt (m := g.pageSize t) hlt
      omega
    · have hm := Geometry.mul_lt_of_lt (m := g.pageSize t) hlt
      omega

theorem Coherent.realSize_le (h : Coherent g v content) (j : ℕ) :
    (v.tag t j).realSize ≤ g.pageSize t := by
  by_cases hpos : 0 < (v.tag t j).realSize
  · rw [h.realSize_eq hpos]
    exact min_le_right _ _
  · omega

/-- A loaded page starts in the region. -/
theorem Coherent.pagePos_lt (h : Coherent g v content) (hpos : 0 < (v.tag t i).realSize) :
    g.pagePos t (v.tag t i).pageNo < g.limitAddress t := by
  have hl : g.pageLength t (v.tag t i).pageNo ≤
      g.limitAddress t - g.pagePos t (v.tag t i).pageNo := min_le_left _ _
  rw [h.realSize_eq hpos] at hpos
  omega

/-- The content changes with one group. -/
theorem Coherent.of_lines {content' : Memory} (h : Coherent g v content)
    (hs : ∀ t', stores g v' t' = stores g v t')
    (ho : ∀ t', t' ≠ t → v'.diskCache t' = v.diskCache t')
    (hp : ∀ t', t' ≠ t → pages g content' t' = pages g content t')
    (hsh : Shows (g.slot t) (lines g v' t) (stores g v t) (pages g content' t))
    (hdi : ∀ j line, lines g v' t j = some line → line.dirty = true →
      (v'.diskCache t).dirty = true) : Coherent g v' content' := by
  refine ⟨fun t' => ?_, fun t' j line hl hd => ?_⟩
  · rw [hs]
    by_cases ht : t' = t
    · subst ht
      exact hsh
    · rw [lines_congr (ho t' ht), hp t' ht]
      exact h.shows t'
  · by_cases ht : t' = t
    · subst ht
      exact hdi j line hl hd
    · rw [lines_congr (ho t' ht)] at hl
      rw [ho t' ht]
      exact h.dirty t' j line hl hd

/-- **A page is changed** along with the content. -/
theorem Coherent.changed {content' : Memory} (h : Coherent g v content)
    (hc : Changed g t i tag offset bytes v v')
    (hf : offset + bytes.length ≤ g.pageSize t) (hpos : 0 < tag.realSize)
    (hp : ∀ t', t' ≠ t → pages g content' t' = pages g content t')
    (hs : Shows (g.slot t)
      (Function.update (lines g v t) i (some (changedLine g v t i tag offset bytes)))
      (stores g v t) (pages g content' t))
    (hdi : tag.dirty = true ∨ (v.diskCache t).dirty = true → (v'.diskCache t).dirty = true) :
    Coherent g v' content' := by
  have hl : lines g v' t = Function.update (lines g v t) i
      (some (changedLine g v t i tag offset bytes)) := by
    funext j
    by_cases hij : j = i
    · subst hij
      rw [Function.update_self, lines, hc.tag_self, if_pos hpos, hc.base, changedLine]
    · rw [Function.update_of_ne hij]
      exact hc.lines_of_ne h.realSize_le hf hij
  refine h.of_lines hc.stores_eq hc.other hp ?_ ?_
  · rw [hl]
    exact hs
  · intro j line hj hd
    rw [hl] at hj
    rcases update_eq_some_iff.mp hj with ⟨rfl, rfl⟩ | ⟨-, hj⟩
    · exact hdi (.inl hd)
    · exact hdi (.inr (h.dirty t j line hj hd))

/-- A group that stays empty. -/
theorem Coherent.changed_none (h : Coherent g v content)
    (hc : Changed g t i tag 0 [] v v') (hempty : (v.tag t i).realSize = 0)
    (hstill : tag.realSize = 0) (hdi : (v'.diskCache t).dirty = (v.diskCache t).dirty) :
    Coherent g v' content := by
  have hl : lines g v' t = lines g v t := by
    funext j
    by_cases hij : j = i
    · subst hij
      rw [lines_eq_none hempty, lines_eq_none (by rwa [hc.tag_self])]
    · exact hc.lines_of_ne h.realSize_le (Nat.zero_le _) hij
  refine h.of_lines hc.stores_eq hc.other (fun _ _ => rfl) ?_ ?_
  · rw [hl]
    exact h.shows t
  · intro j line hj hd
    rw [hl] at hj
    exact hdi.trans (h.dirty t j line hj hd)

theorem changed_setTag (v : CachedVolume) (t : CacheDataType) (i : ℕ) (tag : CacheTag) :
    Changed g t i tag 0 [] v (v.setTag t i tag) := by
  refine ⟨rfl, fun t' ht => ?_, ?_, ?_⟩
  · simp [CachedVolume.setTag, ht]
  · simp [CachedVolume.setTag]
  · simp [CachedVolume.setTag]

/-- Bytes of the page are stored. -/
theorem Changed.store (h : Changed g t i tag 0 [] v v') (offset : ℕ) (bytes : List UInt8) :
    Changed g t i tag offset bytes v (v'.store t (i * g.pageSize t + offset) bytes) := by
  refine ⟨h.disk, fun t' ht => ?_, ?_, ?_⟩
  · rw [← h.other t' ht]
    simp [CachedVolume.store, ht]
  · rw [← h.tags]
    simp [CachedVolume.store]
  · have hb := h.base
    simp [CachedVolume.store, hb]

theorem Changed.setTag (h : Changed g t i tag offset bytes v v') (tag' : CacheTag) :
    Changed g t i tag' offset bytes v (v'.setTag t i tag') := by
  refine ⟨h.disk, fun t' ht => ?_, ?_, ?_⟩
  · rw [← h.other t' ht]
    simp [CachedVolume.setTag, ht]
  · simp [CachedVolume.setTag, h.tags]
  · rw [← h.base]
    simp [CachedVolume.setTag]

theorem Changed.setDirty (h : Changed g t i tag offset bytes v v') (dirty : Bool) :
    Changed g t i tag offset bytes v (v'.setDirty t dirty) := by
  refine ⟨h.disk, fun t' ht => ?_, ?_, ?_⟩
  · rw [← h.other t' ht]
    simp [CachedVolume.setDirty, ht]
  · rw [← h.tags]
    simp [CachedVolume.setDirty]
  · rw [← h.base]
    simp [CachedVolume.setDirty]

theorem Changed.congr {v'' : CachedVolume} (h : Changed g t i tag offset bytes v v')
    (hd : v''.disk = v'.disk) (hc : v''.diskCache = v'.diskCache) :
    Changed g t i tag offset bytes v v'' := by
  refine ⟨hd.trans h.disk, fun t' ht => ?_, ?_, ?_⟩
  · rw [hc, h.other t' ht]
  · rw [hc, h.tags]
  · rw [hc, h.base]

end Change

@[simp] theorem dirty_setTag (v : CachedVolume) (t : CacheDataType) (i : ℕ) (tag : CacheTag) :
    ((v.setTag t i tag).diskCache t).dirty = (v.diskCache t).dirty := by
  simp [CachedVolume.setTag]

@[simp] theorem dirty_store (v : CachedVolume) (t : CacheDataType) (address : ℕ)
    (bytes : List UInt8) : ((v.store t address bytes).diskCache t).dirty =
      (v.diskCache t).dirty := by
  simp [CachedVolume.store]

end Edk2.Fat
