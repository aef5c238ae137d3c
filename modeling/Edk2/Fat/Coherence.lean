import Edk2.Fat.CacheAccess

/-!
# Coherence of the disk cache

Through `FatAccessCache` and `FatVolumeFlushCache`, disk and caches show one content: a read returns
it, a write changes it, and a flush brings it to the disk. This holds along every run in which the
disk refuses no load into a group that holds another page, and no request of a write a part of which
is already stored. A load that is refused in an occupied group leaves the bytes of the old page
under the number of the new one.

## Main results

* `fatVolumeFlushCache_spec`: a flush brings everything to the disk
* `faithful_of_run`: every call of a run is faithful
-/

namespace Edk2.Fat

open CachedVolume EfiStatus

variable {g : Geometry} {v v' : CachedVolume} {t : CacheDataType} {i : ℕ} {content : Memory}

/-! ## Flushes -/

def AllClean (g : Geometry) (v : CachedVolume) (t : CacheDataType) : Prop :=
  ∀ i line, lines g v t i = some line → line.dirty = false

def CleanTag (v : CachedVolume) (t : CacheDataType) (i : ℕ) : Prop :=
  ¬ (0 < (v.tag t i).realSize ∧ (v.tag t i).dirty = true)

theorem CleanTag.congr (h : CleanTag v t i) (ht : v'.tag t i = v.tag t i) : CleanTag v' t i := by
  rw [CleanTag, ht]
  exact h

/-- The loop of `FatVolumeFlushCache` over groups. -/
theorem flushGroups_spec (h : Coherent g v content) (list : List ℕ) :
    let r := flushGroups g t list v
    Coherent g r.2 content ∧ News (InPlace g content) v r.2 ∧
      (r.1 = .success → (∀ i ∈ list, CleanTag r.2 t i) ∧ (∀ i, CleanTag v t i → CleanTag r.2 t i) ∧
        ∀ t', t' ≠ t → r.2.diskCache t' = v.diskCache t') := by
  induction list generalizing v with
  | nil => exact ⟨h, .of_eq rfl, fun _ => ⟨nofun, fun _ hi => hi, fun _ _ => rfl⟩⟩
  | cons j rest ih =>
    simp only [flushGroups]
    by_cases hdi : 0 < (v.tag t j).realSize ∧ (v.tag t j).dirty = true
    · obtain ⟨hc, hn, -, hok⟩ := exchange_write h hdi.1 hdi.2
      rw [if_pos hdi]
      generalize fatExchangeCachePage g v t .writeDisk j = r at hc hn hok
      obtain ⟨status, v₁⟩ := r
      cases he : status.isError with
      | true =>
        have hne := isError_eq_true.mp he
        exact ⟨hc, hn, fun hs => absurd hs hne⟩
      | false =>
        obtain ⟨-, hca⟩ := hok (isError_eq_false.mp he)
        obtain ⟨hc', hn', hok'⟩ := ih hc
        have hch : Changed g t j { v.tag t j with dirty := false } 0 [] v
          (v.setTag t j { v.tag t j with dirty := false }) := changed_setTag ..
        have hta : ∀ i, v₁.tag t i =
            Function.update (v.diskCache t).cacheTag j { v.tag t j with dirty := false } i := by
          intro i
          rw [tag, hca, hch.tags]
        rw [if_neg Bool.false_ne_true]
        refine ⟨hc', hn.trans hn', fun hs => ?_⟩
        obtain ⟨hl, hk, ho⟩ := hok' hs
        have hj : CleanTag v₁ t j := by
          rw [CleanTag, hta, Function.update_self]
          exact fun hd => absurd hd.2 Bool.false_ne_true
        refine ⟨fun i hi => ?_, fun i hi => ?_, fun t' ht => ?_⟩
        · rcases List.mem_cons.mp hi with rfl | hi
          · exact hk i hj
          · exact hl i hi
        · by_cases hij : i = j
          · subst hij
            exact hk i hj
          · refine hk i (hi.congr ?_)
            rw [hta, Function.update_of_ne hij, tag]
        · rw [ho t' ht, hca, hch.other t' ht]
    · rw [if_neg hdi]
      obtain ⟨hc', hn', hok'⟩ := ih h
      refine ⟨hc', hn', fun hs => ?_⟩
      obtain ⟨hl, hk, ho⟩ := hok' hs
      refine ⟨fun i hi => ?_, hk, ho⟩
      rcases List.mem_cons.mp hi with rfl | hi
      · exact hk i hdi
      · exact hl i hi

/-- What `FatVolumeFlushCache` does for one cache. -/
theorem flushType_spec (h : Coherent g v content) :
    let r := flushType g v t
    Coherent g r.2 content ∧ News (InPlace g content) v r.2 ∧
      (r.1 = .success → AllClean g r.2 t ∧ ∀ t', t' ≠ t → r.2.diskCache t' = v.diskCache t') := by
  rw [flushType]
  cases hf : (v.diskCache t).dirty with
  | false =>
    refine ⟨h, .of_eq rfl, fun _ => ⟨fun i line hlin => ?_, fun _ _ => rfl⟩⟩
    refine Bool.eq_false_iff.mpr fun hd => ?_
    rw [h.dirty t i line hlin hd] at hf
    cases hf
  | true =>
    obtain ⟨hc, hn, hok⟩ := flushGroups_spec h (List.range (g.groupMask t + 1))
    rw [if_pos rfl]
    generalize flushGroups g t (List.range (g.groupMask t + 1)) v = r at hc hn hok
    obtain ⟨status, v₁⟩ := r
    simp only at hn hok ⊢
    cases he : status.isError with
    | true =>
      have hne := isError_eq_true.mp he
      exact ⟨hc, hn, fun hs => absurd hs hne⟩
    | false =>
      obtain ⟨hl, -, ho⟩ := hok (isError_eq_false.mp he)
      have hcl : AllClean g v₁ t := by
        intro i line hlin
        have hi := (hc.shows t).slot_eq i line hlin
        obtain ⟨hpos, -, hd⟩ := lines_eq_some hlin
        rw [hd]
        refine Bool.eq_false_iff.mpr fun hd' => ?_
        exact hl i (List.mem_range.mpr (hi ▸ g.slot_lt t _)) ⟨hpos, hd'⟩
      have hli : ∀ t', lines g (v₁.setDirty t false) t' = lines g v₁ t' := by
        intro t'
        funext i
        by_cases ht : t' = t
        · subst ht
          refine lines_apply_congr ?_ ?_
          · simp [tag, setDirty]
          · simp [setDirty]
        · have hsa : (v₁.setDirty t false).diskCache t' = v₁.diskCache t' := by
            simp [setDirty, ht]
          rw [lines_congr hsa]
      rw [if_neg Bool.false_ne_true]
      refine ⟨⟨fun t' => ?_, fun t' i line hlin hd => ?_⟩, hn, fun _ => ⟨?_, fun t' ht => ?_⟩⟩
      · rw [hli]
        exact hc.shows t'
      · rw [hli] at hlin
        by_cases ht : t' = t
        · subst ht
          rw [hcl i line hlin] at hd
          cases hd
        · have := hc.dirty t' i line hlin hd
          simpa [setDirty, ht] using this
      · intro i line hlin
        rw [hli] at hlin
        exact hcl i line hlin
      · rw [← ho t' ht]
        simp [setDirty, ht]

/-- **A flush brings everything to the disk.** -/
theorem fatVolumeFlushCache_spec (h : Coherent g v content) :
    let r := fatVolumeFlushCache g v
    Coherent g r.2 content ∧ News (InPlace g content) v r.2 ∧
      (r.1 = .success → ∀ t, AllClean g r.2 t) := by
  rw [fatVolumeFlushCache]
  obtain ⟨hc, hn, hok⟩ := flushType_spec h
  generalize flushType g v .fat = r at hc hn hok
  obtain ⟨status, v₁⟩ := r
  simp only at hn hok ⊢
  cases he : status.isError with
  | true =>
    have hne := isError_eq_true.mp he
    exact ⟨hc, hn, fun hs => absurd hs hne⟩
  | false =>
    obtain ⟨hf, -⟩ := hok (isError_eq_false.mp he)
    rw [if_neg Bool.false_ne_true]
    obtain ⟨hc', hn', hok'⟩ := flushType_spec hc
    generalize flushType g v₁ .data = r at hc' hn' hok'
    obtain ⟨status', v₂⟩ := r
    cases he' : status'.isError with
    | true =>
      have hne := isError_eq_true.mp he'
      exact ⟨hc', hn.trans hn', fun hs => absurd hs hne⟩
    | false =>
      obtain ⟨hd, ho⟩ := hok' (isError_eq_false.mp he')
      rw [if_neg Bool.false_ne_true]
      refine ⟨⟨hc'.shows, hc'.dirty⟩, hn.trans hn', fun _ t => ?_⟩
      cases t with
      | fat =>
        intro i line hl
        have hsa : lines g v₂.decided .fat = lines g v₁ .fat := lines_congr (ho .fat nofun)
        rw [hsa] at hl
        exact hf i line hl
      | data => exact hd

/-- All copies of a region have the content. -/
def OnDisk (g : Geometry) (v : CachedVolume) (content : Memory) : Prop :=
  ∀ t, ∀ c < g.writeCount t, ∀ a, g.baseAddress t ≤ a → a < g.limitAddress t →
    v.disk (a + c * g.fatSize) = content a

theorem Coherent.onDisk (h : Coherent g v content) (hcl : ∀ t, AllClean g v t) :
    OnDisk g v content := by
  intro t c hc a hba hli
  have hd := Nat.div_add_mod' (a - g.baseAddress t) (g.pageSize t)
  have hm := Nat.mod_lt (a - g.baseAddress t) (g.pageSize_pos t)
  generalize (a - g.baseAddress t) / g.pageSize t = k at hd
  generalize (a - g.baseAddress t) % g.pageSize t = j at hd hm
  have hpos : g.pagePos t k + j = a := by
    rw [Geometry.pagePos]
    omega
  have hs := (h.shows t).store_eq ⟨c, hc⟩ k fun line hl _ => hcl t _ line hl
  have hj : j < g.pageLength t k := Nat.lt_min.mpr ⟨by omega, hm⟩
  have hb := bytesAt_eq_iff.mp hs j hj
  rwa [hpos, add_right_comm, hpos] at hb

/-! ## Runs -/

/-- A call of `FatAccessCache` or of `FatVolumeFlushCache`. -/
inductive Call
  | access (t : CacheDataType) (mode : IoMode) (offset : ℕ) (buffer : List UInt8)
  | flush

def Call.run (g : Geometry) (v : CachedVolume) : Call → EfiStatus × CachedVolume × List UInt8
  | .access t mode offset buffer => fatAccessCache g v t mode offset buffer
  | .flush =>
    let (status, v) := fatVolumeFlushCache g v
    (status, v, [])

/-- The content after a call that returned `status`: a successful write changes it. -/
def Call.after (content : Memory) (status : EfiStatus) : Call → Memory
  | .access _ .writeDisk offset buffer =>
    if status = .success then storeBytes content offset buffer else content
  | .access _ .readDisk _ _ => content
  | .flush => content

/-- What is asked of a call: the disk loads no page in vain into an occupied group, and a write is
not refused once a part of it is stored. An access is inside its region. -/
def CallKept (g : Geometry) (v : CachedVolume) : Call → Prop
  | .access t mode offset buffer =>
    g.baseAddress t ≤ offset ∧ offset + buffer.length ≤ g.limitAddress t ∧
      AccessKept g t mode false v (parts g t offset buffer)
  | .flush => True

/-- Calls one after another, with the content they are to show. -/
def runCalls (g : Geometry) : List Call → CachedVolume × Memory → CachedVolume × Memory
  | [], s => s
  | call :: calls, (v, content) =>
    let r := call.run g v
    runCalls g calls (r.2.1, call.after content r.1)

def RunKept (g : Geometry) : List Call → CachedVolume → Prop
  | [], _ => True
  | call :: calls, v => CallKept g v call ∧ RunKept g calls (call.run g v).2.1

/-- **What a call has to do**, in the state `v` that shows `content`: a successful read returns the
content; what is written to the disk belongs where it is written; and after a successful flush all
copies of both regions have the content. -/
structure Faithful (g : Geometry) (v : CachedVolume) (content : Memory) (call : Call) : Prop where
  read : ∀ t offset buffer, call = .access t .readDisk offset buffer →
    (call.run g v).1 = .success → (call.run g v).2.2 = bytesAt content offset buffer.length
  written : News (Belongs g content (call.after content (call.run g v).1)) v (call.run g v).2.1
  flushed : call = .flush → (call.run g v).1 = .success → OnDisk g (call.run g v).2.1 content

theorem Coherent.run (h : Coherent g v content) {call : Call} (hkept : CallKept g v call) :
    Coherent g (call.run g v).2.1 (call.after content (call.run g v).1) ∧
      Faithful g v content call := by
  have hsa : ∀ {v'}, News (InPlace g content) v v' → News (Belongs g content content) v v' :=
    fun hn => hn.mono fun w hw => ⟨content, fun a => .inl rfl, hw⟩
  cases call with
  | flush =>
    obtain ⟨hco, hn, hok⟩ := fatVolumeFlushCache_spec h
    refine ⟨hco, ⟨nofun, hsa hn, fun _ hs => hco.onDisk (hok hs)⟩⟩
  | access t mode offset buffer =>
    obtain ⟨hb, hli, hp⟩ := hkept
    obtain ⟨hl, hf⟩ := laid_parts hb hli
    cases mode with
    | readDisk =>
      obtain ⟨hco, hn, hok⟩ := accessParts_read h hl hp
      rw [hf, ← fatAccessCache_eq] at hok
      rw [← fatAccessCache_eq] at hco hn
      refine ⟨hco, ⟨fun t' offset' buffer' heq hs => ?_, hsa hn, nofun⟩⟩
      cases heq
      exact hok hs
    | writeDisk =>
      obtain ⟨-, hfa, hok⟩ := accessParts_write h hl hp
      rw [hf, ← fatAccessCache_eq] at hok
      rw [← fatAccessCache_eq] at hfa
      by_cases hs : (fatAccessCache g v t .writeDisk offset buffer).1 = .success
      · obtain ⟨hco, hn⟩ := hok hs
        have hc : Call.after content (fatAccessCache g v t .writeDisk offset buffer).1
          (.access t .writeDisk offset buffer) = storeBytes content offset buffer := if_pos hs
        refine ⟨?_, ⟨nofun, ?_, nofun⟩⟩
        · rw [Call.run, hc]
          exact hco
        · rw [Call.run, hc]
          exact hn
      · obtain ⟨hco, hn⟩ := hfa hs
        have hc : Call.after content (fatAccessCache g v t .writeDisk offset buffer).1
          (.access t .writeDisk offset buffer) = content := if_neg hs
        refine ⟨?_, ⟨nofun, ?_, nofun⟩⟩
        · rw [Call.run, hc]
          exact hco
        · rw [Call.run, hc]
          exact hn

/-- The copies of the table on the disk are the same. -/
def CopiesEqual (g : Geometry) (disk : Memory) : Prop :=
  ∀ c < g.numFats, ∀ a, g.fatPos ≤ a → a < g.fatPos + g.fatSize →
    disk (a + c * g.fatSize) = disk a

theorem coherent_fatInitializeDiskCache {disk : Memory} (h : CopiesEqual g disk)
    (refuses : ℕ → Bool) : Coherent g (fatInitializeDiskCache disk refuses) disk := by
  refine ⟨fun t => .empty (fun i => rfl) fun c k => bytesAt_congr fun j hj => ?_, nofun⟩
  have hj' : j < g.limitAddress t - g.pagePos t k := lt_of_lt_of_le hj (min_le_left _ _)
  have hb : g.baseAddress t ≤ g.pagePos t k := Nat.le_add_right _ _
  cases t with
  | fat =>
    simp only [Geometry.baseAddress, Geometry.limitAddress] at hb hj'
    have hc := h c c.2 (g.pagePos .fat k + j) (by omega) (by omega)
    rw [add_right_comm]
    exact hc
  | data =>
    have hz : (c : ℕ) = 0 := Nat.lt_one_iff.mp c.2
    rw [hz, zero_mul]
    rfl

theorem Coherent.runCalls (h : Coherent g v content) {calls : List Call}
    (hkept : RunKept g calls v) :
    Coherent g (runCalls g calls (v, content)).1 (runCalls g calls (v, content)).2 := by
  induction calls generalizing v content with
  | nil => exact h
  | cons call calls ih => exact ih (h.run hkept.1).1 hkept.2

/-- **Every call of a run is faithful**, when the copies of the table are the same at the start and
the calls are as asked. -/
theorem faithful_of_run (g : Geometry) (disk : Memory) (refuses : ℕ → Bool) (calls : List Call)
    (call : Call) (hcopies : CopiesEqual g disk)
    (hkept : RunKept g calls (fatInitializeDiskCache disk refuses))
    (hnext : CallKept g (runCalls g calls (fatInitializeDiskCache disk refuses, disk)).1 call) :
    Faithful g (runCalls g calls (fatInitializeDiskCache disk refuses, disk)).1
      (runCalls g calls (fatInitializeDiskCache disk refuses, disk)).2 call := by
  have hs := coherent_fatInitializeDiskCache hcopies refuses
  exact ((hs.runCalls hkept).run hnext).2

/-- A small volume of 64 pages and a sector. -/
def sampleGeometry : Geometry where
  fatType := .fat12
  fatPos := 512
  fatSize := 512
  numFats := 2
  rootPos := 1536
  volumeSize := 526336
  numFats_pos := by decide
  copies_le := by decide
  rootPos_le := by decide

/-- A byte is written, and the cache flushed. -/
theorem faithful_of_run_flush :
    CopiesEqual sampleGeometry (fun _ => 0) ∧
      Faithful sampleGeometry
        (runCalls sampleGeometry [.access .data .writeDisk 1536 [7]]
          (fatInitializeDiskCache (fun _ => 0) (fun _ => false), fun _ => 0)).1
        (runCalls sampleGeometry [.access .data .writeDisk 1536 [7]]
          (fatInitializeDiskCache (fun _ => 0) (fun _ => false), fun _ => 0)).2 .flush := by
  have hc : CopiesEqual sampleGeometry (fun _ => 0) := fun _ _ _ _ _ => rfl
  have hp : parts sampleGeometry .data 1536 [7] = [.page 0 0 [7]] := rfl
  have hw : CallKept sampleGeometry (fatInitializeDiskCache (fun _ => 0) (fun _ => false))
      (.access .data .writeDisk 1536 [7]) := by
    refine ⟨by decide, by decide, ?_⟩
    exact ⟨.inr (.inl rfl), nofun, fun _ => trivial⟩
  exact ⟨hc, faithful_of_run _ _ _ _ .flush hc ⟨hw, trivial⟩ trivial⟩

/-- The first byte of page 0 is read, and that of page 64, which the disk refuses at first: the
second time the byte of page 0 is read. -/
theorem not_faithful_of_run :
    ¬ Faithful sampleGeometry
      (runCalls sampleGeometry
        [.access .data .readDisk 1536 [0], .access .data .readDisk 525824 [0]]
        (fatInitializeDiskCache (fun a => if a < 525824 then 0 else 1) (· == 1),
          fun a => if a < 525824 then 0 else 1)).1
      (runCalls sampleGeometry
        [.access .data .readDisk 1536 [0], .access .data .readDisk 525824 [0]]
        (fatInitializeDiskCache (fun a => if a < 525824 then 0 else 1) (· == 1),
          fun a => if a < 525824 then 0 else 1)).2
      (.access .data .readDisk 525824 [0]) := by
  intro h
  have hr := h.read .data 525824 [0] rfl (by decide +kernel)
  revert hr
  decide +kernel

end Edk2.Fat
