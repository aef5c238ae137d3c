import Edk2.Fat.FreeInfo

/-!
# Integrity of the file allocation table

Files grow and are truncated; their chains stay apart, end, and have the length their size asks for.
A cluster is taken from the free ones and appended to one chain; a failed growth gives back what it
took. On a FAT32 volume with as many clusters as entries have values, a chain is cut at a cluster
whose number reads as its end. `FatGrowEof` with a smaller size, against its comment, changes the
size of the file and not its chain; `FatTruncateOFile` with a larger one changes the size before it
finds the chain too short.

## Main results

* `fatShrinkEof_spec`, `fatGrowEof_spec`: what the functions do to a file
* `integrity_of_run`: in every run with sizes that grow and shrink as they should, files stay apart
-/

namespace Edk2.Fat

open List Option

variable {g : Layout} {v v' w : Volume} {disk disk' : Memory} {o o' : OFile} {c i j n : ℕ}
  {cs ks ds : List ℕ} {S : ℕ → Prop}

/-- The clusters of a file, from its first one on. -/
def Chained (g : Layout) (disk : Memory) (c : ℕ) (cs : List ℕ) : Prop :=
  (cs = [] ∧ c = fatClusterFree) ∨
    (cs ≠ [] ∧ ∃ e, Path (entryAt g disk) c cs e ∧ FatEndOfFatChain e)

/-- **An open file and its clusters.** -/
structure FileOf (g : Layout) (disk : Memory) (o : OFile) (cs : List ℕ) : Prop where
  chained : Chained g disk o.fileCluster cs
  clusters : ∀ c ∈ cs, g.IsCluster c
  nodup : cs.Nodup
  length : cs.length = fatSizeToClusters g o.fileSize
  last : o.fileLastCluster = fatClusterFree ∨ cs.getLast? = some o.fileLastCluster

theorem Touches.entryAt_eq (h : Touches g S v v') (hS : ¬ S j) (hj : j ≠ 1) :
    entryAt g v'.disk j = entryAt g v.disk j := by
  rw [entryAt, entryAt, h.raw j (.inl hj) hS]

theorem Chained.congr (h : Chained g disk c cs)
    (heq : ∀ x ∈ cs, entryAt g disk' x = entryAt g disk x) : Chained g disk' c cs := by
  rcases h with h | ⟨hne, e, hp, he⟩
  · exact .inl h
  · exact .inr ⟨hne, e, hp.congr heq, he⟩

theorem Chained.ne_free (h : Chained g disk c cs) (hcs : ∀ x ∈ cs, g.IsCluster x) (hi : i ∈ cs) :
    entryAt g disk i ≠ fatClusterFree := by
  rcases h with ⟨rfl, -⟩ | ⟨-, e, hp, he⟩
  · cases hi
  · rcases hp.next_mem hi with hmem | heq
    · exact (hcs _ hmem).ne_free
    · rw [heq]
      rintro rfl
      exact absurd he (by decide)

theorem Chained.first_ne_free (h : Chained g disk c cs) (hcs : ∀ x ∈ cs, g.IsCluster x)
    (hne : cs ≠ []) : c ≠ fatClusterFree := by
  rcases h with ⟨hnil, -⟩ | ⟨-, e, hp, -⟩
  · exact absurd hnil hne
  · cases cs with
    | nil => exact absurd rfl hne
    | cons x xs =>
      rw [hp.1]
      exact (hcs x mem_cons_self).ne_free

variable {e x size k : ℕ} {files : List OFile} {chains : List (List ℕ)}

theorem Put.path {l : ℕ} (h : Put g w l x v') (hd : w.disk = v.disk)
    (hp : Path (entryAt g v.disk) c (ks ++ [l]) e) (hks : ∀ y ∈ ks ++ [l], g.IsCluster y)
    (hno : (ks ++ [l]).Nodup) : Path (entryAt g v'.disk) c (ks ++ [l]) x := by
  rw [path_concat] at hp ⊢
  refine ⟨hp.1.congr fun y hy => ?_, h.self⟩
  rw [h.other y _ (hks y (by simp [hy])).ne_one, hd]
  rintro rfl
  exact (nodup_append.mp hno).2.2 y hy y (by simp) rfl

theorem Put.path_of_not_mem (h : Put g w i x v') (hd : w.disk = v.disk) (hi : i ∉ cs)
    (hp : Path (entryAt g v.disk) c cs e) (hcs : ∀ y ∈ cs, g.IsCluster y) :
    Path (entryAt g v'.disk) c cs e := by
  refine hp.congr fun y hy => ?_
  rw [h.other y (fun heq => hi (heq ▸ hy)) (hcs y hy).ne_one, hd]

/-- **The cluster and the position that `FatOFilePosition` left** belong together, unless the
cluster is the first one: then the position is not used. -/
def Seeks (g : Layout) (o : OFile) (cs : List ℕ) : Prop :=
  o.fileCurrentCluster = o.fileCluster ∨
    ∃ k, o.position = k * g.clusterSize ∧ cs[k]? = some o.fileCurrentCluster

theorem Seeks.append (h : Seeks g o cs) (ds : List ℕ) : Seeks g o (cs ++ ds) := by
  rcases h with h | ⟨k, hpos, hk⟩
  · exact .inl h
  · refine .inr ⟨k, hpos, ?_⟩
    rwa [List.getElem?_append_left (List.getElem?_eq_some_iff.mp hk).1]

/-! ## Shrinking a file -/

theorem shrinkWalk_path (ht : g.TableFits) {d : ℕ} (last : ℕ) (hks : ∀ x ∈ ks, g.IsCluster x)
    (hp : Path (entryAt g v.disk) c ks d) :
    ∃ v', Quiet v v' ∧ shrinkWalk g ks.length v c last = (some (ks.getLastD last, d), v') := by
  induction ks generalizing v c last with
  | nil =>
    subst hp
    exact ⟨v, .refl v, rfl⟩
  | cons k ks ih =>
    obtain ⟨rfl, htail⟩ := hp
    have hc : g.IsCluster c := hks c mem_cons_self
    have hq := quiet_load v (hc.readable ht)
    rw [← hq.1.disk] at htail
    obtain ⟨v', hq', hw⟩ :=
      ih c (fun x hx => hks x (mem_cons_of_mem c hx)) htail
    refine ⟨v', hq.trans hq', ?_⟩
    rw [length_cons, shrinkWalk, if_neg hc.not_stop, fatGetFatEntry_eq]
    simp only
    rw [hq.1.disk] at hw
    rw [hw, getLastD_cons]

/-- The fields of a file that was cut behind `last`. -/
def cutFile (o : OFile) (last : ℕ) : OFile :=
  { o with fileCurrentCluster := o.fileCluster, fileLastCluster := last, dirty := true }

theorem yields_finishShrink {last : ℕ} {status : EfiStatus}
    (h : Yields (fun fuel => fatFreeClusters g fuel v c) (status, v')) :
    Yields (fun fuel => finishShrink g fuel v o last c) (status, v', cutFile o last) :=
  h.bind (steady_fatFreeClusters g v c) (steady_const _) ⟨0, rfl⟩

/-- What is left when a chain is cut. -/
structure Shrunk (g : Layout) (v : Volume) (o : OFile) (ks ds : List ℕ) (v' : Volume)
    (o' : OFile) : Prop where
  file : FileOf g v'.disk o' ks
  fileSize : o'.fileSize = o.fileSize
  isFixedRootDir : o'.isFixedRootDir = o.isFixedRootDir
  counted : Counted g v' 0
  touches : Touches g (· ∈ ks ++ ds) v v'
  freed : ∀ d ∈ ds, entryAt g v'.disk d = fatClusterFree
  seeks : Seeks g o (ks ++ ds) → Seeks g o' ks

/-- **`FatShrinkEof`** cuts the chain of a file to its size. -/
theorem fatShrinkEof_spec (hfi : g.NumbersFit) (ht : g.TableFits)
    (hch : Chained g v.disk o.fileCluster (ks ++ ds))
    (hcl : ∀ x ∈ ks ++ ds, g.IsCluster x) (hno : (ks ++ ds).Nodup)
    (hle : ks.length = fatSizeToClusters g o.fileSize)
    (hlast : ks ++ ds = [] → o.fileLastCluster = fatClusterFree) (hcn : Counted g v 0) :
    ∃ v' o', Yields (fun fuel => fatShrinkEof g fuel v o) (.success, v', o') ∧
      Shrunk g v o ks ds v' o' := by
  obtain ⟨hks, hds, hd⟩ := nodup_append.mp hno
  by_cases hz : ks = []
  · -- nothing stays
    subst hz
    have hs : fatSizeToClusters g o.fileSize = 0 := hle.symm
    rcases hch with ⟨rfl, hfree⟩ | ⟨hne, e, hp, he⟩
    · refine ⟨v, o, ⟨0, ?_⟩, ⟨⟨.inl ⟨rfl, hfree⟩, nofun, .nil, hle, .inl (hlast rfl)⟩, rfl,
        rfl, hcn, .of_same ⟨rfl, rfl⟩, nofun, id⟩⟩
      simp only [fatShrinkEof, hs, ne_eq, not_true_eq_false, if_false, hfree, if_true]
    · have hc := Chained.first_ne_free (.inr ⟨hne, e, hp, he⟩) hcl hne
      obtain ⟨v', hyi, hc', hto, hfree, -⟩ :=
        fatFreeClusters_spec hfi ht hcl hds hp he hcn
      refine ⟨v', cutFile { o with fileCluster := fatClusterFree } fatClusterFree, ?_,
        ⟨⟨.inl ⟨rfl, rfl⟩, nofun, .nil, hle, .inl rfl⟩, rfl, rfl, hc', hto, hfree,
          fun _ => .inl rfl⟩⟩
      simp only [fatShrinkEof, hs, ne_eq, not_true_eq_false, if_false, if_neg hc]
      exact yields_finishShrink hyi
  · have hs : fatSizeToClusters g o.fileSize ≠ 0 := by
      rw [← hle]
      exact fun h => hz (length_eq_zero_iff.mp h)
    rcases hch with ⟨hnil, -⟩ | ⟨-, e, hp, he⟩
    · exact absurd (append_eq_nil_iff.mp hnil).1 hz
    obtain ⟨d, hf, hr⟩ := path_append.mp hp
    obtain ⟨v₁, hq, hw⟩ := shrinkWalk_path ht fatClusterFree
      (fun x hx => hcl x (mem_append_left ds hx)) hf
    -- the last cluster that stays ends the chain
    obtain ⟨ks, l, rfl⟩ := eq_nil_or_concat' ks |>.resolve_left hz
    have hl : g.IsCluster l := hcl l (by simp)
    have hn : ∀ x, x ∈ ks ++ [l] → x ∉ ds := fun x hx hmem => hd x hx x hmem rfl
    have hkc : ∀ x ∈ ks ++ [l], g.IsCluster x := fun x hx => hcl x (mem_append_left ds hx)
    have hdc : ∀ x ∈ ds, g.IsCluster x := fun x hx => hcl x (mem_append_right _ hx)
    have hpu := set_put hfi ht v₁ hl (.inr (.inl rfl))
    rw [getLastD_concat] at hw
    generalize hv₂ : (fatSetFatEntry g v₁ l fatClusterLast).2 = v₂ at hpu
    have hc₂ := hpu.counted_zero hl (hq.counted hcn)
    obtain ⟨v', hyi, hc', hto, hfree, ho⟩ := fatFreeClusters_spec hfi ht hdc hds
      (hpu.path_of_not_mem hq.1.disk (hn l (by simp)) hr hdc) he hc₂
    refine ⟨v', cutFile o l, ?_, ⟨⟨?_, hkc, hks, hle, ?_⟩, rfl, rfl, hc', ?_, hfree,
      fun _ => .inl rfl⟩⟩
    · simp only [fatShrinkEof, if_pos hs]
      simp only [← hle, hw, hv₂]
      exact yields_finishShrink hyi
    · refine .inr ⟨by simp, fatClusterLast, ?_, end_last⟩
      exact (hpu.path hq.1.disk hf hkc hks).congr fun y hy => ho y (hn y hy) (hkc y hy).ne_one
    · right
      simp [cutFile]
    · have hf' : Touches g (· ∈ (ks ++ [l]) ++ ds) v v₂ :=
        (Touches.of_same hq.1.sameDisk).trans (hpu.touches.mono fun y hy => by simp [hy])
      exact hf'.trans (hto.mono fun y hy => by simp [hy])

/-! ## Growing a file -/

/-- The state of the allocation loop of `FatGrowEof`: a file with the clusters so far. -/
structure Building (g : Layout) (v : Volume) (o : OFile) (cs : List ℕ) : Prop where
  chained : Chained g v.disk o.fileCluster cs
  clusters : ∀ c ∈ cs, g.IsCluster c
  nodup : cs.Nodup
  last : o.fileLastCluster = cs.getLastD fatClusterFree
  counted : Counted g v 0

/-- **One more cluster** is linked behind the last one, or is the first one. -/
theorem Building.append (hf : g.NumbersFit) (ht : g.TableFits) (h : Building g v o cs)
    (hnew : n ∈ freeClusters g v.disk) (hkept : Kept g v n w) :
    let r := appendCluster g w o o.fileLastCluster n
    Building g r.1 r.2 (cs ++ [n]) ∧
      (r.2.fileSize = o.fileSize ∧ r.2.isFixedRootDir = o.isFixedRootDir) ∧
      Touches g (· ∈ cs ++ [n]) v r.1 ∧ (Seeks g o cs → Seeks g r.2 (cs ++ [n])) := by
  obtain ⟨hcl, hfree⟩ := mem_freeClusters.mp hnew
  have hnm : n ∉ cs := fun hn => h.chained.ne_free h.clusters hn hfree
  have hclu : ∀ c ∈ cs ++ [n], g.IsCluster c := by
    intro c hc
    rcases mem_append.mp hc with hc | hc
    · exact h.clusters c hc
    · rwa [mem_singleton.mp hc]
  have hno : (cs ++ [n]).Nodup := by
    rw [nodup_append]
    refine ⟨h.nodup, nodup_singleton n, ?_⟩
    rintro a ha b hb rfl
    exact hnm (mem_singleton.mp hb ▸ ha)
  rw [appendCluster]
  by_cases hnil : cs = []
  · -- the first cluster
    subst hnil
    have hlast : o.fileLastCluster = 0 := h.last
    have hpu := set_put hf ht w hcl (.inr (.inl rfl))
    rw [hlast]
    refine ⟨⟨?_, hclu, hno, rfl, ?_⟩, ⟨rfl, rfl⟩, ?_, fun _ => .inl rfl⟩
    · exact .inr ⟨by simp, fatClusterLast, ⟨rfl, hpu.self⟩, end_last⟩
    · have hcn := hpu.counted n hkept.2
      rwa [if_pos ⟨rfl, by decide⟩] at hcn
    · exact (Touches.of_same hkept.1).trans (hpu.touches.mono fun j hj => by simp [hj])
  · obtain ⟨ks, l, rfl⟩ := eq_nil_or_concat' cs |>.resolve_left hnil
    have hl : g.IsCluster l := h.clusters l (by simp)
    have hlast : o.fileLastCluster = l := by rw [h.last, getLastD_concat]
    have hln : l ≠ n := by
      rintro rfl
      exact hnm (by simp)
    have hpu := set_put hf ht w hl (.inr (.inr hcl))
    have hz : l ≠ 0 := hl.ne_free
    rw [hlast, if_pos hz]
    generalize (fatSetFatEntry g w l n).2 = v₁ at hpu
    have hp' := set_put hf ht v₁ hcl (.inr (.inl rfl))
    simp only
    refine ⟨⟨?_, hclu, hno, ?_, ?_⟩, ⟨trivial, trivial⟩, ?_, fun hs => hs.append [n]⟩
    · rcases h.chained with ⟨hn', -⟩ | ⟨-, e, hp, -⟩
      · exact absurd hn' hnil
      · refine .inr ⟨by simp, fatClusterLast, path_concat.mpr ⟨?_, hp'.self⟩, end_last⟩
        exact hp'.path_of_not_mem rfl hnm (hpu.path hkept.1.1 hp h.clusters h.nodup) h.clusters
    · rw [getLastD_concat]
    · have hcn := hpu.counted n hkept.2
      rw [if_neg fun hn => hln hn.1.symm] at hcn
      have hc' := hp'.counted n hcn
      rwa [if_pos ⟨rfl, by decide⟩] at hc'
    · refine (Touches.of_same hkept.1).trans ?_
      refine (hpu.touches.mono fun j hj => ?_).trans (hp'.touches.mono fun j hj => ?_)
      · simp [hj]
      · simp [hj]

/-- What the allocation loop leaves: `added` behind the clusters of the file. -/
structure Grown (g : Layout) (v : Volume) (o : OFile) (cs added : List ℕ) (v' : Volume)
    (o' : OFile) : Prop where
  building : Building g v' o' (cs ++ added)
  fileSize : o'.fileSize = o.fileSize
  isFixedRootDir : o'.isFixedRootDir = o.isFixedRootDir
  touches : Touches g (· ∈ cs ++ added) v v'
  fresh : ∀ a ∈ added, a ∈ freeClusters g v.disk
  seeks : Seeks g o cs → Seeks g o' (cs ++ added)

theorem Building.grown_nil (h : Building g w o' cs) (hs : o'.fileSize = o.fileSize)
    (hr : o'.isFixedRootDir = o.isFixedRootDir) (ht : Touches g (· ∈ cs) v w)
    (hse : Seeks g o cs → Seeks g o' cs) : Grown g v o cs [] w o' := by
  rw [← append_nil cs] at h ht
  exact ⟨h, hs, hr, ht, nofun, fun ho => (hse ho).append []⟩

/-- **The allocation loop of `FatGrowEof`** appends free clusters until there are enough, or none is
left. -/
theorem growLoop_spec (hf : g.NumbersFit) (ht : g.TableFits) (h : Building g v o cs) :
    ∃ status v' o' added,
      Yields (fun fuel => growLoop g fuel n v o o.fileLastCluster) (status, v', o') ∧
      Grown g v o cs added v' o' ∧
      (status = .success ∧ added.length = n ∨ status = .volumeFull) := by
  induction n generalizing v o cs with
  | zero =>
    exact ⟨_, v, o, [], ⟨0, rfl⟩, h.grown_nil rfl rfl (.of_same ⟨rfl, rfl⟩) id, .inl ⟨rfl, rfl⟩⟩
  | succ n ih =>
    obtain ⟨new, w, hal, ⟨rfl, -, hkept⟩ | ⟨hfree, hkept⟩⟩ :=
      fatAllocateCluster_spec ht h.counted
    · -- the volume is full: the last cluster ends the chain, as it did before
      have hsa : Building g w o cs :=
        ⟨hkept.1.1 ▸ h.chained, h.clusters, h.nodup, h.last, hkept.2⟩
      have ht₁ : Touches g (· ∈ cs) v w := .of_same hkept.1
      by_cases hlast : o.fileLastCluster = fatClusterFree
      · refine ⟨.volumeFull, w, o, [], ?_, hsa.grown_nil rfl rfl ht₁ id, .inr rfl⟩
        refine hal.bind (steady_fatAllocateCluster g v) (steady_const _) ⟨0, ?_⟩
        simp only [if_pos end_last, hlast, ne_eq, not_true_eq_false, if_false]
        rfl
      · obtain ⟨ks, l, rfl⟩ : ∃ ks l, cs = ks ++ [l] := by
          refine (eq_nil_or_concat' cs).resolve_left ?_
          rintro rfl
          exact hlast h.last
        have hl : g.IsCluster l := h.clusters l (by simp)
        have hl' : o.fileLastCluster = l := by rw [h.last, getLastD_concat]
        have hpu := set_put hf ht w hl (.inr (.inl rfl))
        refine ⟨.volumeFull, (fatSetFatEntry g w l fatClusterLast).2,
          { o with fileLastCluster := l }, [], ?_,
          Building.grown_nil ⟨?_, h.clusters, h.nodup, getLastD_concat.symm,
            hpu.counted_zero hl hkept.2⟩ rfl rfl
            (ht₁.trans (hpu.touches.mono fun j hj => by simp [hj])) id, .inr rfl⟩
        · refine hal.bind (steady_fatAllocateCluster g v) (steady_const _) ⟨0, ?_⟩
          rw [hl']
          simp only [if_pos end_last, ne_eq, hl.ne_free, not_false_eq_true, if_true]
          rfl
        · rcases h.chained with ⟨hnil, -⟩ | ⟨hne, e, hp, -⟩
          · exact absurd hnil (by simp)
          · exact .inr ⟨hne, fatClusterLast, hpu.path hkept.1.1 hp h.clusters h.nodup, end_last⟩
    · obtain ⟨hc, hz⟩ := mem_freeClusters.mp hfree
      obtain ⟨hbu, hsi, hto, hse⟩ := h.append hf ht hfree hkept
      have hnext : (appendCluster g w o o.fileLastCluster new).2.fileLastCluster = new := rfl
      obtain ⟨status, v', o', added, hyi, hg, hst⟩ := ih hbu
      rw [hnext] at hyi
      generalize hr : appendCluster g w o o.fileLastCluster new = r at *
      obtain ⟨v₁, o₁⟩ := r
      have happ : cs ++ [new] ++ added = cs ++ new :: added := (append_cons cs new added).symm
      refine ⟨status, v', o', new :: added, ?_, ⟨happ ▸ hg.building, hg.fileSize.trans hsi.1,
        hg.isFixedRootDir.trans hsi.2, happ ▸ ?_, ?_, fun ho => happ ▸ hg.seeks (hse ho)⟩, ?_⟩
      · refine hal.bind (steady_fatAllocateCluster g v) ?_ ?_
        · simp only [if_neg hc.not_end, if_neg hc.not_outside, hr]
          exact steady_growLoop g v₁ o₁ n new
        · simp only [if_neg hc.not_end, if_neg hc.not_outside, hr]
          exact hyi
      · exact (hto.mono fun x hx => mem_append_left added hx).trans hg.touches
      · intro a ha
        rcases mem_cons.mp ha with rfl | ha
        · exact hfree
        · -- what is free later was free before
          obtain ⟨hca, hza⟩ := mem_freeClusters.mp (hg.fresh a ha)
          refine mem_freeClusters.mpr ⟨hca, ?_⟩
          rw [← hto.entryAt_eq _ hca.ne_one]
          · exact hza
          · exact fun hin => hbu.chained.ne_free hbu.clusters hin hza
      · rcases hst with ⟨hs, hle⟩ | hs
        · exact .inl ⟨hs, by rw [length_cons, hle]⟩
        · exact .inr hs

/-- **What a call does to a file**: its clusters were `cs` and are `cs'`. -/
structure Reshaped (g : Layout) (v : Volume) (o : OFile) (cs : List ℕ) (v' : Volume) (o' : OFile)
    (cs' : List ℕ) : Prop where
  file : FileOf g v'.disk o' cs'
  isFixedRootDir : o'.isFixedRootDir = o.isFixedRootDir
  counted : Counted g v' 0
  touches : Touches g (fun j => j ∈ cs ∨ j ∈ cs') v v'
  fresh : ∀ j ∈ cs', j ∈ cs ∨ j ∈ freeClusters g v.disk
  seeks : Seeks g o cs → Seeks g o' cs'

theorem FileOf.building (h : FileOf g v.disk o cs) (hc : Counted g v 0)
    (hlast : o.fileLastCluster = cs.getLastD fatClusterFree) : Building g v o cs :=
  ⟨h.chained, h.clusters, h.nodup, hlast, hc⟩

/-- How a file grows to a size: its chain is extended, or the file is as it was. -/
def GrownTo (g : Layout) (size : ℕ) (o : OFile) (cs : List ℕ) (status : EfiStatus) (o' : OFile)
    (cs' : List ℕ) : Prop :=
  if status = .success then o'.fileSize = size ∧ cs <+: cs'
  else cs' = cs ∧ o'.fileSize = o.fileSize ∧
    (status = .volumeFull ∧ fatSizeToClusters g o.fileSize < fatSizeToClusters g size ∨
      status = .unsupported ∧ 0xFFFFFFFF < size)

theorem growFrom_spec (hfi : g.NumbersFit) (hta : g.TableFits)
    (h : FileOf g v.disk o cs) (hcn : Counted g v 0)
    (hlast : o.fileLastCluster = cs.getLastD fatClusterFree)
    (hsi : cs.length + n = fatSizeToClusters g size)
    (hlt : fatSizeToClusters g o.fileSize < fatSizeToClusters g size) :
    ∃ status v' o' cs', Yields (fun fuel => growFrom g fuel n v o size) (status, v', o') ∧
      Reshaped g v o cs v' o' cs' ∧ GrownTo g size o cs status o' cs' := by
  obtain ⟨status, v₁, o₁, added, hy, hg, hst⟩ :=
    growLoop_spec hfi hta (h.building hcn hlast)
  have hb := hg.building
  have hf : ∀ j ∈ cs ++ added, j ∈ cs ∨ j ∈ freeClusters g v.disk := by
    intro j hj
    exact (mem_append.mp hj).imp_right (hg.fresh j)
  rcases hst with ⟨rfl, hle⟩ | rfl
  · -- there were enough clusters
    refine ⟨.success, v₁, { o₁ with fileSize := size, dirty := true }, cs ++ added, ?_,
      ⟨⟨hb.chained, hb.clusters, hb.nodup, ?_, ?_⟩, hg.isFixedRootDir, hb.counted, ?_, hf,
        hg.seeks⟩,
      ⟨rfl, prefix_append cs added⟩⟩
    · refine hy.bind (steady_growLoop g v o n _) ?_ ?_
      · exact steady_const _
      · exact ⟨0, rfl⟩
    · rw [length_append, hle, hsi]
    · by_cases hnil : cs ++ added = []
      · left
        have hfree := hb.last
        rw [hnil] at hfree
        exact hfree
      · right
        obtain ⟨ks, l, hc⟩ := eq_nil_or_concat' (cs ++ added) |>.resolve_left hnil
        have hl := hb.last
        rw [hc] at hl
        rw [hc]
        simp [hl]
    · exact hg.touches.mono fun j hj => .inr hj
  · -- the volume is full, and the chain is cut to what it was
    obtain ⟨v', o', hsh, hs⟩ := fatShrinkEof_spec hfi hta hb.chained hb.clusters
      hb.nodup
      (h.length.trans (by rw [hg.fileSize])) (fun hnil => by
        have hfree := hb.last
        rw [hnil] at hfree
        exact hfree) hb.counted
    have hto := hg.touches.trans hs.touches
    -- what was taken and given back is as it was
    have ht : Touches g (· ∈ cs) v v' := by
      refine ⟨fun j hj hcs => ?_, hto.kept, hto.fatDirty, hto.data⟩
      by_cases ha : j ∈ added
      · obtain ⟨hc, hfree⟩ := mem_freeClusters.mp (hg.fresh j ha)
        rw [rawEntry_of_free (hc.readable hta) (hs.freed j ha), hto.kept j hj,
          ← rawEntry_of_free (hc.readable hta) hfree]
      · exact hto.raw j hj fun hin => (mem_append.mp hin).elim hcs ha
    refine ⟨.volumeFull, v', o', cs, ?_, ⟨hs.file,
      hs.isFixedRootDir.trans hg.isFixedRootDir, hs.counted, ?_, fun j hj => .inl hj,
      fun ho => hs.seeks (hg.seeks ho)⟩, ⟨rfl, hs.fileSize.trans hg.fileSize,
      .inl ⟨rfl, hlt⟩⟩⟩
    · refine hy.bind (steady_growLoop g v o n _) ?_ ?_
      · exact steady_growDone g v₁ o₁ .volumeFull
      · exact hsh.bind (steady_fatShrinkEof g v₁ o₁) (steady_const _) ⟨0, rfl⟩
    · exact ht.mono fun j hj => .inl hj

theorem walk_path (ht : g.TableFits) (count : ℕ) (hcs : ∀ x ∈ cs, g.IsCluster x)
    (hp : Path (entryAt g v.disk) c cs e) (he : FatEndOfFatChain e) :
    ∃ w, Quiet v w ∧ Returns (walkStep g) (v, o, c, count)
      (some (count + cs.length), w,
        { o with fileLastCluster := cs.getLastD o.fileLastCluster }) := by
  induction cs generalizing v o c count with
  | nil =>
    subst hp
    refine ⟨v, .refl v, returns_of_inr ?_⟩
    rw [walkStep, if_pos he]
    rfl
  | cons x xs ih =>
    obtain ⟨rfl, htail⟩ := hp
    have hc : g.IsCluster c := hcs c mem_cons_self
    have hq := quiet_load v (hc.readable ht)
    rw [← hq.1.disk] at htail
    obtain ⟨w, hq', hr⟩ := ih (count + 1)
      (fun y hy => hcs y (mem_cons_of_mem c hy)) htail
    refine ⟨w, hq.trans hq', ?_⟩
    have hs : walkStep g (v, o, c, count) =
        .inl (fatLoadFatEntry g v c, { o with fileLastCluster := c }, entryAt g v.disk c,
          count + 1) := by
      rw [walkStep, if_neg hc.not_end, if_neg hc.not_outside, fatGetFatEntry_eq]
    rw [hq.1.disk] at hr
    rw [returns_inl_iff hs, length_cons, getLastD_cons, add_comm xs.length,
      ← add_assoc]
    exact hr

/-- **`FatGrowEof`** with a size that is not smaller, in clusters. -/
theorem fatGrowEof_spec (hfi : g.NumbersFit) (ht : g.TableFits)
    (h : FileOf g v.disk o cs) (hc : Counted g v 0)
    (hs : size ≤ 0xFFFFFFFF → fatSizeToClusters g o.fileSize ≤ fatSizeToClusters g size) :
    ∃ status v' o' cs', Yields (fun fuel => fatGrowEof g fuel v o size) (status, v', o') ∧
      Reshaped g v o cs v' o' cs' ∧ GrownTo g size o cs status o' cs' := by
  have hsa : ∀ size d, FileOf g v.disk { o with fileSize := size, dirty := d } cs →
      Reshaped g v o cs v { o with fileSize := size, dirty := d } cs := fun size d h₁ =>
    ⟨h₁, rfl, hc, .of_same ⟨rfl, rfl⟩, fun j hj => .inl hj, id⟩
  by_cases hb : 0xFFFFFFFF < size
  · refine ⟨.unsupported, v, o, cs, ⟨0, ?_⟩, hsa o.fileSize o.dirty h,
      ⟨rfl, rfl, .inr ⟨rfl, hb⟩⟩⟩
    simp only [fatGrowEof, if_pos hb]
  simp only [fatGrowEof, if_neg hb]
  by_cases hlt : fatSizeToClusters g o.fileSize < fatSizeToClusters g size
  · have hl : cs.length + (fatSizeToClusters g size - fatSizeToClusters g o.fileSize) =
        fatSizeToClusters g size := by
      rw [h.length]
      omega
    simp only [if_pos hlt]
    by_cases hw : o.fileCluster ≠ 0 ∧ o.fileLastCluster = 0
    · -- the last cluster is found first
      simp only [if_pos hw]
      rcases h.chained with ⟨-, hfree⟩ | ⟨hne, e, hp, he⟩
      · exact absurd hfree hw.1
      obtain ⟨w, hq, hre⟩ := walk_path ht 0 h.clusters hp he
      rw [zero_add, hw.2] at hre
      have hf : FileOf g w.disk { o with fileLastCluster := cs.getLastD 0 } cs := by
        refine ⟨?_, h.clusters, h.nodup, h.length, ?_⟩
        · rw [hq.1.disk]
          exact h.chained
        · obtain ⟨ks, l, rfl⟩ := eq_nil_or_concat cs |>.resolve_left hne
          right
          simp
      obtain ⟨status, v', o', cs', hy, hr, hfa⟩ :=
        growFrom_spec hfi ht hf (hq.counted hc) rfl hl hlt
      refine ⟨status, v', o', cs', ?_, ⟨hr.file, hr.isFixedRootDir,
        hr.counted, ?_, ?_, hr.seeks⟩, hfa⟩
      · refine Yields.bind (steady_loop _ _) hre ?_ ?_
        · simp only [h.length, if_true]
          exact steady_growFrom ..
        · simp only [h.length, if_true]
          exact hy
      · exact (Touches.of_same hq.1.sameDisk).trans hr.touches
      · intro j hj
        rw [← hq.1.disk]
        exact hr.fresh j hj
    · simp only [if_neg hw]
      have hlast : o.fileLastCluster = cs.getLastD fatClusterFree := by
        rcases h.last with hfree | hlast
        · have hz : o.fileCluster = 0 := by
            by_contra hne
            exact hw ⟨hne, hfree⟩
          by_cases hne : cs = []
          · rw [hne]
            exact hfree
          · exact absurd hz (h.chained.first_ne_free h.clusters hne)
        · rw [getLastD_eq_getLast?, hlast]
          rfl
      exact growFrom_spec hfi ht h hc hlast hl hlt
  · -- the clusters are enough already
    simp only [if_neg hlt]
    refine ⟨.success, v, { o with fileSize := size, dirty := true }, cs, ⟨0, rfl⟩, hsa _ _ ?_,
      ⟨rfl, prefix_rfl⟩⟩
    refine ⟨h.chained, h.clusters, h.nodup, h.length.trans ?_, h.last⟩
    simp only
    omega

/-- **`FatTruncateOFile`** with a size that is not larger, in clusters. -/
theorem fatTruncateOFile_spec (hf : g.NumbersFit) (ht : g.TableFits)
    (h : FileOf g v.disk o cs) (hc : Counted g v 0)
    (hsi : fatSizeToClusters g size ≤ fatSizeToClusters g o.fileSize) :
    ∃ v' o' cs', Yields (fun fuel => fatTruncateOFile g fuel v o size) (.success, v', o') ∧
      Reshaped g v o cs v' o' cs' ∧ o'.fileSize = size ∧ cs' <+: cs := by
  have hsp := take_append_drop (fatSizeToClusters g size) cs
  have hl : (cs.take (fatSizeToClusters g size)).length = fatSizeToClusters g size := by
    rw [length_take, h.length]
    omega
  have hlast : cs = [] → o.fileLastCluster = fatClusterFree := by
    rintro rfl
    rcases h.last with hfree | hlast
    · exact hfree
    · cases hlast
  generalize cs.take (fatSizeToClusters g size) = ks at hsp hl
  generalize cs.drop (fatSizeToClusters g size) = ds at hsp
  subst hsp
  obtain ⟨v', o', hy, hs⟩ := fatShrinkEof_spec (o := { o with fileSize := size }) hf
    ht h.chained h.clusters h.nodup hl hlast hc
  refine ⟨v', o', ks, hy, ⟨hs.file, hs.isFixedRootDir, hs.counted, ?_, ?_,
    hs.seeks⟩,
    hs.fileSize, prefix_append ks ds⟩
  · exact hs.touches.mono fun j hj => .inl hj
  · intro j hj
    exact .inl (mem_append_left ds hj)

/-! ## Volumes with files -/

/-- **A volume with files.** The chains end, are pairwise disjoint and have the length their file
asks for, and the free clusters are counted. -/
structure Sound (g : Layout) (v : Volume) (files : List OFile) (chains : List (List ℕ)) : Prop where
  length : chains.length = files.length
  file : ∀ (k : ℕ) o cs, files[k]? = some o → chains[k]? = some cs → FileOf g v.disk o cs
  disjoint : ∀ (k k' : ℕ) cs cs', k ≠ k' → chains[k]? = some cs → chains[k']? = some cs' →
    cs.Disjoint cs'
  counted : Counted g v 0

inductive SpaceCall
  | grow (newSizeInBytes : ℕ)
  | truncate (truncatedSize : ℕ)

def SpaceCall.run (g : Layout) (fuel : ℕ) (v : Volume) (o : OFile) :
    SpaceCall → Option (EfiStatus × Volume × OFile)
  | .grow newSizeInBytes => fatGrowEof g fuel v o newSizeInBytes
  | .truncate truncatedSize => fatTruncateOFile g fuel v o truncatedSize

/-- A file is grown to a size that needs as many clusters as before or more, and truncated to one
that needs as many or less. -/
def SpaceCall.Asked (g : Layout) (o : OFile) : SpaceCall → Prop
  | .grow newSizeInBytes =>
    newSizeInBytes ≤ 0xFFFFFFFF →
      fatSizeToClusters g o.fileSize ≤ fatSizeToClusters g newSizeInBytes
  | .truncate truncatedSize =>
    fatSizeToClusters g truncatedSize ≤ fatSizeToClusters g o.fileSize

/-- Calls one after another, for any of the files, that are as asked. -/
inductive SpaceRun (g : Layout) : Volume × List OFile → Volume × List OFile → Prop
  | nil (s : Volume × List OFile) : SpaceRun g s s
  | step {s : Volume × List OFile} {v v' : Volume} {files : List OFile} {k : ℕ} {o o' : OFile}
      {call : SpaceCall} {status : EfiStatus} (hrun : SpaceRun g s (v, files))
      (hfile : files[k]? = some o) (hasked : call.Asked g o)
      (hcall : Yields (fun fuel => call.run g fuel v o) (status, v', o')) :
      SpaceRun g s (v', files.set k o')

theorem SpaceCall.reshapes (hf : g.NumbersFit) (ht : g.TableFits)
    (h : FileOf g v.disk o cs) (hc : Counted g v 0) {call : SpaceCall}
    (ha : call.Asked g o) :
    ∃ status v' o' cs', Yields (fun fuel => call.run g fuel v o) (status, v', o') ∧
      Reshaped g v o cs v' o' cs' ∧
      (status ≠ .success → cs' = cs ∧ o'.fileSize = o.fileSize) := by
  cases call with
  | grow size =>
    obtain ⟨status, v', o', cs', hy, hr, hre⟩ :=
      fatGrowEof_spec hf ht h hc ha
    refine ⟨status, v', o', cs', hy, hr, fun hne => ?_⟩
    rw [GrownTo, if_neg hne] at hre
    exact ⟨hre.1, hre.2.1⟩
  | truncate size =>
    obtain ⟨v', o', cs', hy, hr, -⟩ :=
      fatTruncateOFile_spec hf ht h hc ha
    exact ⟨_, v', o', cs', hy, hr, fun hne => absurd rfl hne⟩

theorem Sound.exists_chain
    (h : Sound g v files chains) (hk : k < files.length) : ∃ cs, chains[k]? = some cs :=
  ⟨_, List.getElem?_eq_getElem (hk.trans_eq h.length.symm)⟩

theorem getElem?_set_cases {α : Type*} {xs : List α} {x y : α}
    (h : (xs.set k x)[j]? = some y) : k = j ∧ y = x ∨ k ≠ j ∧ xs[j]? = some y := by
  rw [List.getElem?_set] at h
  split_ifs at h with hk hlt
  · exact .inl ⟨hk, (some.inj h).symm⟩
  · exact .inr ⟨hk, h⟩

theorem Sound.reshaped {cs' : List ℕ}
    (h : Sound g v files chains) (hk : k < files.length) (hcs : chains[k]? = some cs)
    (hr : Reshaped g v o cs v' o' cs') :
    Sound g v' (files.set k o') (chains.set k cs') := by
  have hl := h.length
  -- clusters of other files are on neither chain
  have hapart : ∀ k' ds, k ≠ k' → chains[k']? = some ds → ∀ x ∈ ds, x ∉ cs ∧ x ∉ cs' := by
    intro k' ds hne hds x hx
    have hcs' : x ∉ cs := fun hin => h.disjoint k k' cs ds hne hcs hds hin hx
    refine ⟨hcs', fun hin => ?_⟩
    rcases hr.fresh x hin with hin | hfree
    · exact hcs' hin
    · obtain ⟨ok, hok⟩ : ∃ o, files[_]? = some o :=
        ⟨_, List.getElem?_eq_getElem ((List.getElem?_eq_some_iff.mp hds).1.trans_eq h.length)⟩
      have hf := h.file k' ok ds hok hds
      exact hf.chained.ne_free hf.clusters hx (mem_freeClusters.mp hfree).2
  refine ⟨by rw [length_set, length_set, hl], ?_, ?_, hr.counted⟩
  · intro k' o₁ ds ho hds
    rcases getElem?_set_cases ho with ⟨rfl, rfl⟩ | ⟨hkk, ho⟩
    · rw [List.getElem?_set_self (by omega)] at hds
      cases hds
      exact hr.file
    · rw [List.getElem?_set_ne hkk] at hds
      have hf := h.file k' o₁ ds ho hds
      refine ⟨hf.chained.congr fun x hx => ?_, hf.clusters, hf.nodup, hf.length,
        hf.last⟩
      obtain ⟨hout, ho'⟩ := hapart k' ds hkk hds x hx
      exact hr.touches.entryAt_eq (not_or.mpr ⟨hout, ho'⟩) (hf.clusters x hx).ne_one
  · intro k₁ k₂ ds ds' hne h₁ h₂
    rcases getElem?_set_cases h₁ with ⟨rfl, rfl⟩ | ⟨hk₁, hc⟩
    · rw [List.getElem?_set_ne hne] at h₂
      exact fun x hx hx' => (hapart k₂ ds' hne h₂ x hx').2 hx
    · rcases getElem?_set_cases h₂ with ⟨rfl, rfl⟩ | ⟨-, hc'⟩
      · exact fun x hx hx' => (hapart k₁ ds hk₁ hc x hx).2 hx'
      · exact h.disjoint k₁ k₂ ds ds' hne hc hc'

theorem steady_run (v : Volume) (o : OFile) (call : SpaceCall) :
    Steady fun fuel => call.run g fuel v o := by
  cases call with
  | grow size => exact steady_fatGrowEof g v o size
  | truncate size => exact steady_fatShrinkEof g v { o with fileSize := size }

theorem Sound.run (hfi : g.NumbersFit) (ht : g.TableFits) {s s' : Volume × List OFile}
    (hr : SpaceRun g s s') (h : ∃ chains, Sound g s.1 s.2 chains) :
    ∃ chains, Sound g s'.1 s'.2 chains := by
  induction hr with
  | nil => exact h
  | step hr hf ha hc ih =>
    rename_i v v' files k o o' call status
    obtain ⟨chains, hs⟩ := ih
    have hk : k < files.length := (List.getElem?_eq_some_iff.mp hf).1
    obtain ⟨cs, hcs⟩ := hs.exists_chain hk
    obtain ⟨status₁, v₁, o₁, cs', hy, hre, -⟩ :=
      SpaceCall.reshapes hfi ht (hs.file k o cs hf hcs) hs.counted ha
    cases hc.unique (steady_run v o call) hy
    exact ⟨chains.set k cs', hs.reshaped hk hcs hre⟩

/-- **Integrity along every run.** In every state that is reached the chains of the files are sound,
and every call as asked returns, leaves the volume sound, changes no entry off the old and the new
chain of its file, and changes neither chain nor size when it fails. -/
theorem integrity_of_run (hfit : g.NumbersFit) (htable : g.TableFits) {files files' : List OFile}
    {chains : List (List ℕ)} (h : Sound g v files chains)
    (hrun : SpaceRun g (v, files) (v', files')) :
    ∃ chains', Sound g v' files' chains' ∧
      ∀ (k : ℕ) o cs, ∀ call : SpaceCall, files'[k]? = some o → chains'[k]? = some cs →
        call.Asked g o →
        ∃ status w o' cs', Yields (fun fuel => call.run g fuel v' o) (status, w, o') ∧
          Sound g w (files'.set k o') (chains'.set k cs') ∧
          Touches g (fun j => j ∈ cs ∨ j ∈ cs') v' w ∧
          (status ≠ .success → cs' = cs ∧ o'.fileSize = o.fileSize) := by
  obtain ⟨chains', hs⟩ := Sound.run hfit htable hrun ⟨chains, h⟩
  refine ⟨chains', hs, fun k o cs call hf hcs ha => ?_⟩
  obtain ⟨status, w, o', cs', hy, hr, hfa⟩ :=
    SpaceCall.reshapes hfit htable (hs.file k o cs hf hcs) hs.counted ha
  have hk : k < files'.length := (List.getElem?_eq_some_iff.mp hf).1
  exact ⟨status, w, o', cs', hy, hs.reshaped hk hcs hr, hr.touches, hfa⟩

/-- A volume with one file, of clusters 2 and 3. -/
def pairVolume : Volume :=
  { sampleVolume [0xF0, 0xFF, 0xFF, 0x03, 0xF0, 0xFF] with clusterCount := 98, nextCluster := 4 }

theorem sound_pairVolume : Sound sampleLayout pairVolume [opened 2 1024 false] [[2, 3]] := by
  refine ⟨rfl, ?_, ?_, ⟨rfl, by decide +kernel, by decide, by decide, by decide +kernel⟩⟩
  · rintro (_ | k) o cs ho hcs
    · cases ho
      cases hcs
      refine ⟨.inr ⟨cons_ne_nil 2 [3], fatClusterLast, ?_, by decide⟩, ?_, ?_, ?_, .inl rfl⟩
      · have ht : entryAt sampleLayout pairVolume.disk 2 = 3 := by decide +kernel
        have hth : entryAt sampleLayout pairVolume.disk 3 = fatClusterLast := by decide +kernel
        exact ⟨rfl, ht, hth⟩
      · unfold Layout.IsCluster
        decide
      · decide
      · decide
    · cases ho
  · rintro (_ | k) (_ | k') cs cs' hne hcs hcs'
    · exact absurd rfl hne
    · cases hcs'
    · cases hcs
    · cases hcs

/-- The file grows by a cluster. -/
theorem integrity_of_run_grow : ∃ v' o',
    Yields (fun fuel => fatGrowEof sampleLayout fuel pairVolume (opened 2 1024 false) 1536)
      (.success, v', o') ∧ ∃ chains', Sound sampleLayout v' [o'] chains' := by
  have hst : (fatGrowEof sampleLayout 8 pairVolume (opened 2 1024 false) 1536).map (·.1) =
      some .success := by decide +kernel
  obtain ⟨⟨status, v', o'⟩, hg, hs⟩ := map_eq_some_iff.mp hst
  cases hs
  have hy : Yields (fun fuel => SpaceCall.run sampleLayout fuel pairVolume
      (opened 2 1024 false) (.grow 1536)) (.success, v', o') := ⟨8, hg⟩
  have ha : SpaceCall.Asked sampleLayout (opened 2 1024 false) (.grow 1536) :=
    fun _ => by decide
  have hr : SpaceRun sampleLayout (pairVolume, [opened 2 1024 false]) (v', [o']) :=
    .step (k := 0) (.nil _) rfl ha hy
  obtain ⟨chains', hso, -⟩ :=
    integrity_of_run (by decide) (by unfold Layout.TableFits; decide) sound_pairVolume hr
  exact ⟨v', o', hy, chains', hso⟩

/-- A FAT32 volume with a cluster, the last one, whose number reads as the end of a chain. -/
def wideLayout : Layout where
  fatType := .fat32
  maxCluster := 0x0FFFFFF7
  fatPos := 0x4000
  rootPos := 0x40004000
  firstClusterPos := 0x40004000
  volumeSize := 0x1003FFFB000
  clusterAlignment := 12
  dirtyValue := 0xF7FFFFFF
  maxCluster_lt := by decide
  maxCluster_fat12 := by decide
  maxCluster_fat16 := by decide
  clusterAlignment_le := by decide

/-- The last cluster is free, and every other one is the end of a chain. -/
def wideVolume : Volume where
  disk a := if 0x4000 + 0x0FFFFFF8 * 4 ≤ a ∧ a < 0x4000 + 0x0FFFFFF9 * 4 then 0 else 0xFF
  diskError := false
  fatEntryPos := 0
  fatEntryBuffer := 0
  fatDirty := false
  freeInfoValid := true
  clusterCount := 1
  nextCluster := 0x0FFFFFF8

theorem freeClusters_wideVolume : freeClusters wideLayout wideVolume.disk = {0x0FFFFFF8} := by
  ext i
  rw [mem_freeClusters, Finset.mem_singleton]
  constructor
  · rintro ⟨-, he⟩
    by_contra hne
    have hle : le wideVolume.disk (wideLayout.entryPos i) 4 = le (fun _ => 0xFF) 0 4 := by
      rw [entryPos_fat32 rfl]
      refine le_congr fun k hk => if_neg ?_
      change ¬ (_ ≤ 0x4000 + i * 4 + k ∧ 0x4000 + i * 4 + k < _)
      omega
    have hlast : entryAt wideLayout wideVolume.disk i = fatClusterLast := by
      unfold entryAt rawEntry
      split_ifs
      · rw [fatEntrySize_fat32 rfl, hle]
        change widen wideLayout (le (fun _ => 0xFF) 0 4) = _
        decide +kernel
      · rfl
    rw [hlast] at he
    cases he
  · rintro rfl
    exact ⟨⟨by decide, by decide⟩, by decide +kernel⟩

theorem sound_wideVolume : Sound wideLayout wideVolume [opened 2 4096 false] [[2]] := by
  have hfree := freeClusters_wideVolume
  refine ⟨rfl, ?_, ?_, ⟨rfl, by rw [hfree]; rfl, by decide, by decide, ?_⟩⟩
  · rintro (_ | k) o cs ho hcs
    · cases ho
      cases hcs
      have ht : entryAt wideLayout wideVolume.disk 2 = fatClusterLast := by decide +kernel
      refine ⟨.inr ⟨cons_ne_nil 2 [], fatClusterLast, ⟨rfl, ht⟩, by decide⟩, ?_, by decide,
        by decide, .inl rfl⟩
      unfold Layout.IsCluster
      decide
    · cases ho
  · rintro (_ | k) (_ | k') cs cs' hne hcs hcs'
    · exact absurd rfl hne
    · cases hcs'
    · cases hcs
    · cases hcs
  · rw [hfree]
    intro i hi _
    rw [Finset.mem_singleton.mp hi]
    rfl

/-- The file of one cluster is grown by the last cluster: the function succeeds, and the entry of
the first cluster, which should name the last one, reads as the end of the chain. -/
theorem not_integrity_special : ∃ v' o',
    Sound wideLayout wideVolume [opened 2 4096 false] [[2]] ∧
      SpaceCall.Asked wideLayout (opened 2 4096 false) (.grow 8192) ∧
      Yields (fun fuel => fatGrowEof wideLayout fuel wideVolume (opened 2 4096 false) 8192)
        (.success, v', o') ∧ o'.fileSize = 8192 ∧ FatEndOfFatChain (entryAt wideLayout v'.disk 2) ∧
      ¬ ∃ chains', Sound wideLayout v' [o'] chains' := by
  have hst : (fatGrowEof wideLayout 8 wideVolume (opened 2 4096 false) 8192).map (fun r =>
      (r.1, r.2.2.fileSize, r.2.2.fileCluster,
        decide (FatEndOfFatChain (entryAt wideLayout r.2.1.disk 2)))) =
      some (.success, 8192, 2, true) := by decide +kernel
  obtain ⟨⟨status, v', o'⟩, hg, hs⟩ := map_eq_some_iff.mp hst
  simp only [Prod.mk.injEq, decide_eq_true_eq] at hs
  obtain ⟨rfl, hsize, hcl, hend⟩ := hs
  refine ⟨v', o', sound_wideVolume, fun _ => by decide, ⟨8, hg⟩, hsize, hend, ?_⟩
  rintro ⟨chains', hs⟩
  obtain ⟨cs, hcs⟩ := hs.exists_chain Nat.one_pos
  have hf := hs.file 0 _ cs rfl hcs
  have hl : cs.length = 2 := by
    rw [hf.length, hsize]
    rfl
  obtain ⟨c, d, rfl⟩ := length_eq_two.mp hl
  rcases hf.chained with ⟨hnil, -⟩ | ⟨-, e, ⟨hfi, hse, -⟩, -⟩
  · cases hnil
  · -- the second cluster would be the value of an entry that ends the chain
    rw [← hfi, hcl] at hse
    have hle := (hf.clusters d (by simp)).2
    rw [← hse] at hle
    have : fatClusterSpecial < wideLayout.maxCluster + 1 := Nat.lt_of_lt_of_le hend hle
    exact absurd this (by decide)

end Edk2.Fat
