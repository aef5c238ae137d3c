import Edk2.Fat.Robust
import Edk2.Lib.Path

/-!
# The free clusters of a volume

`FreeInfo.ClusterCount` is the number of free clusters, and no cluster below `FreeInfo.NextCluster`
is free. Every write of an entry keeps this, and the search for a free cluster relies on it. A write
changes one entry, and of this one it keeps the bits that are no part of its value.

## Main results

* `set_put`: what `FatSetFatEntry` does
* `fatAllocateCluster_spec`: `FatAllocateCluster` finds a free cluster when there is one
* `fatFreeClusters_spec`: `FatFreeClusters` frees a chain
-/

namespace Edk2.Fat

open List Option

def Layout.IsCluster (g : Layout) (i : ℕ) : Prop := fatMinCluster ≤ i ∧ i ≤ g.maxCluster + 1

def Layout.TableFits (g : Layout) : Prop := g.Readable (g.maxCluster + 1)

def Layout.InTable (g : Layout) (a : ℕ) : Prop :=
  g.fatPos ≤ a ∧ a < g.entryPos (g.maxCluster + 1) + g.fatEntrySize

/-- What is stored in the entries of clusters. -/
def Layout.Storable (g : Layout) (x : ℕ) : Prop :=
  x = fatClusterFree ∨ x = fatClusterLast ∨ g.IsCluster x

def freeClusters (g : Layout) (disk : Memory) : Finset ℕ :=
  (Finset.Icc fatMinCluster (g.maxCluster + 1)).filter fun i => entryAt g disk i = fatClusterFree

variable {g : Layout} {v v' w : Volume} {disk disk' : Memory} {i j x e c : ℕ} {S : ℕ → Prop}

theorem mem_freeClusters :
    i ∈ freeClusters g disk ↔ g.IsCluster i ∧ entryAt g disk i = fatClusterFree := by
  rw [freeClusters, Finset.mem_filter, Finset.mem_Icc, Layout.IsCluster]

theorem Layout.IsCluster.readable (h : g.IsCluster i) (ht : g.TableFits) : g.Readable i :=
  readable_of_le ht h.2

theorem Layout.IsCluster.ne_one (h : g.IsCluster i) : i ≠ 1 := by
  rintro rfl
  exact absurd h.1 (by decide)

theorem Layout.IsCluster.ne_free (h : g.IsCluster i) : i ≠ fatClusterFree := by
  rintro rfl
  exact absurd h.1 (by decide)

theorem Layout.IsCluster.lt (h : g.IsCluster i) : i < 2 ^ 32 := by
  have hmax := g.maxCluster_lt
  have hle := h.2
  omega

theorem Layout.IsCluster.not_stop (h : g.IsCluster i) : ¬ ChainStop i := by
  have hlt := h.lt
  rintro (hfree | hspecial)
  · exact h.ne_free hfree
  · unfold fatClusterSpecial at hspecial
    omega

theorem Layout.IsCluster.not_outside (h : g.IsCluster i) :
    ¬ (i < fatMinCluster ∨ g.maxCluster + 1 < i) := by
  have hm := h.1
  have hmax := h.2
  omega

theorem Layout.IsCluster.not_end (h : g.IsCluster i) : ¬ FatEndOfFatChain i :=
  fun he => h.not_stop (chainStop_of_end he)

theorem end_last : FatEndOfFatChain fatClusterLast := by decide

/-- **The free clusters are counted.** `e` is a free cluster that was taken and is not yet in use,
or zero. -/
structure Counted (g : Layout) (v : Volume) (e : ℕ) : Prop where
  diskError : v.diskError = false
  count : v.clusterCount = (freeClusters g v.disk).card
  next_min : fatMinCluster ≤ v.nextCluster
  next_lt : v.nextCluster < 2 ^ 32
  next_le : ∀ i ∈ freeClusters g v.disk, i ≠ e → v.nextCluster ≤ i

/-- The entry is no flag of the volume, or the flag is already set. -/
def Layout.Settled (g : Layout) (v : Volume) (j : ℕ) : Prop :=
  j ≠ 1 ∨ g.fatType = .fat12 ∨ v.fatDirty = true

/-- **Entries outside `S` are as they were**, and all entries keep the bits that are no part of
their value. Entry 1, where the volume is marked dirty, is excepted until this is done. Nothing
outside the table is changed. -/
structure Touches (g : Layout) (S : ℕ → Prop) (v v' : Volume) : Prop where
  raw : ∀ j, g.Settled v j → ¬ S j → rawEntry g v'.disk j = rawEntry g v.disk j
  kept : ∀ j, g.Settled v j → ∀ y,
    putRaw g (rawEntry g v'.disk j) y = putRaw g (rawEntry g v.disk j) y
  fatDirty : v.fatDirty = true → v'.fatDirty = true
  data : ∀ a, ¬ g.InTable a → v'.disk a = v.disk a

namespace Touches

theorem of_same (h : SameDisk v v') : Touches g S v v' where
  raw j _ _ := by rw [h.1]
  kept j _ y := by rw [h.1]
  fatDirty hd := h.2.trans hd
  data a _ := by rw [h.1]

theorem trans (h : Touches g S v w) (h' : Touches g S w v') : Touches g S v v' := by
  have hs : ∀ {j}, g.Settled v j → g.Settled w j := by
    rintro j (hj | hj | hj)
    · exact .inl hj
    · exact .inr (.inl hj)
    · exact .inr (.inr (h.fatDirty hj))
  refine ⟨fun j hj hS => ?_, fun j hj y => ?_, fun hd => h'.fatDirty (h.fatDirty hd),
    fun a ha => (h'.data a ha).trans (h.data a ha)⟩
  · rw [h'.raw j (hs hj) hS, h.raw j hj hS]
  · rw [h'.kept j (hs hj), h.kept j hj]

theorem mono {T : ℕ → Prop} (h : Touches g S v v') (hST : ∀ j, S j → T j) : Touches g T v v' :=
  ⟨fun j hj hT => h.raw j hj fun hS => hT (hST j hS), h.kept, h.fatDirty, h.data⟩

end Touches

/-! ## Writing an entry -/

theorem putRaw_putRaw (g : Layout) (r x y : ℕ) : putRaw g (putRaw g r x) y = putRaw g r y := by
  unfold putRaw
  cases g.fatType with
  | fat12 => rfl
  | fat16 => rfl
  | fat32 =>
    have hd : (r / 2 ^ 28 * 2 ^ 28 + x % 2 ^ 28) / 2 ^ 28 = r / 2 ^ 28 := by omega
    simp only [hd]

theorem rawEntry_of_free (hr : g.Readable i) (hfree : entryAt g disk i = fatClusterFree) :
    rawEntry g disk i = putRaw g (rawEntry g disk i) fatClusterFree := by
  rw [entryAt, if_pos hr] at hfree
  unfold widen at hfree
  unfold putRaw fatClusterFree
  cases ht : g.fatType with
  | fat12 | fat16 =>
    simp only [ht] at hfree ⊢
    rw [(Nat.or_eq_zero_iff.mp hfree).1, Nat.zero_mod]
  | fat32 =>
    simp only [ht] at hfree ⊢
    have hl := (Nat.or_eq_zero_iff.mp hfree).1
    have hm : (0x0FFFFFFF : ℕ) = 2 ^ 28 - 1 := rfl
    rw [hm, and_low] at hl
    omega

theorem dirtyDisk_of_settled (h : g.fatType = .fat12 ∨ v.fatDirty = true) :
    dirtyDisk g v = v.disk := by
  rw [dirtyDisk, markDirty, if_neg]
  rintro ⟨hc, ht⟩
  rcases h with h | h
  · exact ht h
  · rw [h] at hc
    cases hc

theorem inTable_of_entry (hi : i ≤ g.maxCluster + 1) {a : ℕ} (hl : g.entryPos i ≤ a)
    (hh : a < g.entryPos i + g.fatEntrySize) : g.InTable a := by
  unfold Layout.InTable
  cases ht : g.fatType with
  | fat12 => rw [entryPos_fat12 ht] at *; omega
  | fat16 => rw [entryPos_fat16 ht] at *; omega
  | fat32 => rw [entryPos_fat32 ht] at *; omega

theorem dirtyDisk_data (g : Layout) (v : Volume) {a : ℕ} (ha : ¬ g.InTable a) :
    dirtyDisk g v a = v.disk a := by
  simp only [dirtyDisk, markDirty, fatAccessVolumeDirty, writeFat]
  split
  · rename_i hd
    split
    · refine storeBytes_of_not fun hin => ha ?_
      rw [length_leBytes, entryPos_one hd.2] at hin
      exact inTable_of_entry (Nat.succ_le_succ (Nat.zero_le g.maxCluster)) hin.1 hin.2
    · rfl
  · rfl

theorem Sets.touches (h : Sets g v i x v') (hi : g.IsCluster i) : Touches g (· = i) v v' := by
  have hdi : ∀ j, g.Settled v j → rawEntry g (dirtyDisk g v) j = rawEntry g v.disk j := by
    rintro j (hj | hj)
    · exact rawEntry_dirtyDisk g v hj
    · rw [dirtyDisk_of_settled hj]
  refine ⟨fun j hj hne => ?_, fun j hj y => ?_, fun hd => ?_, fun a ha => ?_⟩
  · rw [h.disk, rawEntry_putEntry_of_ne g _ x hne, hdi j hj]
  · by_cases hji : j = i
    · subst hji
      rw [h.disk, rawEntry_putEntry_self, putRaw_putRaw, hdi j hj]
    · rw [h.disk, rawEntry_putEntry_of_ne g _ x hji, hdi j hj]
  · rw [h.fatDirty, hd, Bool.true_or]
  · rw [h.disk, putEntry, storeBytes_of_not, dirtyDisk_data g v ha]
    rw [length_leBytes]
    exact fun hin => ha (inTable_of_entry hi.2 hin.1 hin.2)

theorem Sets.entryAt_self (hf : g.NumbersFit) (h : Sets g v i x v') (hr : g.Readable i)
    (hx : g.Storable x) : entryAt g v'.disk i = x := by
  rw [h.disk]
  rcases hx with rfl | rfl | hx
  · exact entryAt_putEntry_free _ hr
  · exact entryAt_putEntry_last _ hr
  · exact entryAt_putEntry_cluster hf _ hx.2 hr

theorem Sets.freeClusters_eq (hf : g.NumbersFit) (h : Sets g v i x v') (hi : g.IsCluster i)
    (hr : g.Readable i) (hx : g.Storable x) :
    freeClusters g v'.disk =
      if x = fatClusterFree then insert i (freeClusters g v.disk)
      else (freeClusters g v.disk).erase i := by
  have hs := h.entryAt_self hf hr hx
  have ho : ∀ j, j ≠ i → g.IsCluster j → entryAt g v'.disk j = entryAt g v.disk j :=
    fun j hji hj => h.entryAt_of_ne hji hj.ne_one
  ext j
  split
  · rename_i hfree
    rw [Finset.mem_insert, mem_freeClusters, mem_freeClusters]
    by_cases hji : j = i
    · subst hji
      simp [hi, hs, hfree]
    · constructor
      · rintro ⟨hj, hz⟩
        rw [ho j hji hj] at hz
        exact .inr ⟨hj, hz⟩
      · rintro (heq | ⟨hj, hz⟩)
        · exact absurd heq hji
        · rw [← ho j hji hj] at hz
          exact ⟨hj, hz⟩
  · rename_i hu
    rw [Finset.mem_erase, mem_freeClusters, mem_freeClusters]
    by_cases hji : j = i
    · subst hji
      simp [hs, hu]
    · constructor
      · rintro ⟨hj, hz⟩
        rw [ho j hji hj] at hz
        exact ⟨hji, hj, hz⟩
      · rintro ⟨-, hj, hz⟩
        rw [← ho j hji hj] at hz
        exact ⟨hj, hz⟩

/-- The count never wraps. -/
theorem card_freeClusters_lt (g : Layout) (disk : Memory) :
    (freeClusters g disk).card + 1 < 2 ^ 32 := by
  have hle : (freeClusters g disk).card ≤ (Finset.Icc fatMinCluster (g.maxCluster + 1)).card :=
    Finset.card_filter_le _ _
  rw [Nat.card_Icc] at hle
  have hmax := g.maxCluster_lt
  unfold fatMinCluster at hle
  omega

/-- **A write keeps the count.** When it takes the cluster that was excepted, none is any more. -/
theorem Sets.counted (hf : g.NumbersFit) (h : Sets g v i x v') (hi : g.IsCluster i)
    (hr : g.Readable i) (hx : g.Storable x) (hcn : Counted g v e) :
    Counted g v' (if e = i ∧ x ≠ fatClusterFree then 0 else e) := by
  have hfree := h.freeClusters_eq hf hi hr hx
  have hc := card_freeClusters_lt g v.disk
  have hmem : i ∈ freeClusters g v.disk ↔ entryAt g v.disk i = fatClusterFree := by
    rw [mem_freeClusters]
    exact ⟨And.right, fun hz => ⟨hi, hz⟩⟩
  refine ⟨h.diskError.trans hcn.diskError, ?_, ?_, ?_, ?_⟩
  · -- the count follows the set of free clusters
    rw [h.clusterCount, hcn.count, newCount, hfree]
    by_cases hz : x = fatClusterFree
    · simp only [if_pos hz]
      by_cases ho : entryAt g v.disk i = fatClusterFree
      · rw [if_neg (fun hn => hn.2 ho), if_neg (fun hn => hn.1 hz),
          Finset.insert_eq_of_mem (hmem.mpr ho)]
      · rw [if_pos ⟨hz, ho⟩, add32_of_lt (by omega),
          Finset.card_insert_of_notMem fun hin => ho (hmem.mp hin)]
    · simp only [if_neg hz]
      by_cases ho : entryAt g v.disk i = fatClusterFree
      · rw [if_neg (fun hn => hz hn.1), if_pos ⟨hz, ho⟩,
          Finset.card_erase_of_mem (hmem.mpr ho)]
      · rw [if_neg (fun hn => hz hn.1), if_neg (fun hn => ho hn.2),
          Finset.erase_eq_of_notMem fun hin => ho (hmem.mp hin)]
  · rw [h.nextCluster, newNext, Nat.mod_eq_of_lt hi.lt]
    split
    · exact hi.1
    · exact hcn.next_min
  · rw [h.nextCluster, newNext]
    split
    · exact Nat.mod_lt i (Nat.two_pow_pos 32)
    · exact hcn.next_lt
  · intro j hj hje
    rw [h.nextCluster, newNext, Nat.mod_eq_of_lt hi.lt]
    rw [hfree] at hj
    have hm := hcn.next_le
    by_cases hz : x = fatClusterFree
    · rw [if_neg fun hn => hn.2 hz] at hje
      rw [if_pos hz, Finset.mem_insert] at hj
      by_cases hnew : entryAt g v.disk i ≠ fatClusterFree ∧ i < v.nextCluster
      · rw [if_pos ⟨hz, hnew⟩]
        rcases hj with rfl | hj
        · exact le_refl j
        · exact le_trans (le_of_lt hnew.2) (hm j hj hje)
      · rw [if_neg fun hn => hnew hn.2]
        rcases hj with rfl | hj
        · by_cases ho : entryAt g v.disk j = fatClusterFree
          · exact hm j (hmem.mpr ho) hje
          · exact Nat.le_of_not_lt fun hlt => hnew ⟨ho, hlt⟩
        · exact hm j hj hje
    · rw [if_neg hz, Finset.mem_erase] at hj
      rw [if_neg fun hn => hz hn.1]
      refine hm j hj.2 fun heq => ?_
      subst heq
      exact hje (by rw [if_neg fun hn => hj.1 hn.1])

/-- **What a write of an entry does.** -/
structure Put (g : Layout) (v : Volume) (i x : ℕ) (v' : Volume) : Prop where
  self : entryAt g v'.disk i = x
  other : ∀ j, j ≠ i → j ≠ 1 → entryAt g v'.disk j = entryAt g v.disk j
  touches : Touches g (· = i) v v'
  counted : ∀ e, Counted g v e → Counted g v' (if e = i ∧ x ≠ fatClusterFree then 0 else e)

/-- `FatSetFatEntry` writes the entry. -/
theorem set_put (hf : g.NumbersFit) (ht : g.TableFits) (v : Volume) (hi : g.IsCluster i)
    (hx : g.Storable x) : Put g v i x (fatSetFatEntry g v i x).2 := by
  have hr := hi.readable ht
  obtain ⟨v', hse, hs⟩ := fatSetFatEntry_spec v x hi.1 hr
  rw [hse]
  exact ⟨hs.entryAt_self hf hr hx, fun j hji hj => hs.entryAt_of_ne hji hj,
    hs.touches hi, fun e => hs.counted hf hi hr hx⟩

theorem Put.counted_zero (h : Put g v i x v') (hi : g.IsCluster i) (hc : Counted g v 0) :
    Counted g v' 0 := by
  have hr := h.counted 0 hc
  rwa [if_neg fun hn => hi.ne_free hn.1.symm] at hr

/-! ## Reading an entry -/

/-- Nothing but the entry buffer is changed. -/
def Quiet (v v' : Volume) : Prop := SameTable v v' ∧ v'.diskError = v.diskError

theorem Quiet.refl (v : Volume) : Quiet v v := ⟨.refl v, rfl⟩

theorem Quiet.trans (h : Quiet v w) (h' : Quiet w v') : Quiet v v' :=
  ⟨h.1.trans h'.1, h'.2.trans h.2⟩

theorem quiet_load (v : Volume) (h : g.Readable i) : Quiet v (fatLoadFatEntry g v i) := by
  refine ⟨sameTable_fatLoadFatEntry g v i, ?_⟩
  rw [fatLoadFatEntry_readable v h]

theorem Quiet.counted (h : Quiet v v') (hc : Counted g v e) : Counted g v' e := by
  refine ⟨h.2.trans hc.diskError, ?_, ?_, ?_, ?_⟩
  · rw [h.1.clusterCount, h.1.disk, hc.count]
  · rw [h.1.nextCluster]
    exact hc.next_min
  · rw [h.1.nextCluster]
    exact hc.next_lt
  · rw [h.1.nextCluster, h.1.disk]
    exact hc.next_le

/-! ## Finding a free cluster -/

/-- Counting again finds nothing where nothing is free. -/
theorem quiet_computeLoop (ht : g.TableFits) (hnone : freeClusters g v.disk = ∅) (n : ℕ)
    (hn : n ≤ g.maxCluster + 1) : Quiet v (computeLoop g n v) := by
  induction n generalizing v with
  | zero => exact .refl v
  | succ n ih =>
    rw [computeLoop]
    split
    · exact .refl v
    split
    · exact .refl v
    rename_i hm _
    have hc : g.IsCluster (n + 1) := ⟨Nat.le_of_not_lt hm, hn⟩
    have hl := quiet_load v (hc.readable ht)
    have hu : entryAt g v.disk (n + 1) ≠ fatClusterFree := by
      intro hfree
      have hmem := mem_freeClusters.mpr ⟨hc, hfree⟩
      rw [hnone] at hmem
      exact Finset.notMem_empty _ hmem
    rw [fatGetFatEntry_eq]
    simp only [if_neg hu]
    refine hl.trans (ih ?_ (Nat.le_of_succ_le hn))
    rwa [hl.1.disk]

/-- The table is the same, and the count is right but for the cluster `e`. -/
def Kept (g : Layout) (v : Volume) (e : ℕ) (v' : Volume) : Prop :=
  SameDisk v v' ∧ Counted g v' e

/-- One round of `FatAllocateCluster`. -/
theorem allocateStep_spec (ht : g.TableFits) (h : Counted g v 0) :
    (∃ w, allocateStep g v = .inl w ∧ Kept g v 0 w ∧ v.nextCluster ≤ g.maxCluster + 1 ∧
      w.nextCluster = v.nextCluster + 1) ∨
    (∃ w, allocateStep g v = .inr (fatClusterLast, w) ∧ Kept g v 0 w ∧
      freeClusters g v.disk = ∅) ∨
    ∃ new w, allocateStep g v = .inr (new, w) ∧ Kept g v new w ∧ new ∈ freeClusters g v.disk := by
  rw [allocateStep]
  by_cases he : g.maxCluster + 1 < v.nextCluster
  · -- no cluster is free behind the last one, so none is free at all
    have hnone : freeClusters g v.disk = ∅ := by
      refine Finset.eq_empty_of_forall_notMem fun i hi => ?_
      have hle := h.next_le i hi (mem_freeClusters.mp hi).1.ne_free
      have hmax := (mem_freeClusters.mp hi).1.2
      omega
    have hz : v.clusterCount = 0 := by rw [h.count, hnone, Finset.card_empty]
    have hp : ¬ (v.freeInfoValid = true ∧ PositiveInt32 v.clusterCount) := by
      rintro ⟨-, hpos, -⟩
      omega
    have hkept : Kept g v 0 (fatComputeFreeInfo g v) ∧
        (fatComputeFreeInfo g v).nextCluster = v.nextCluster := by
      rw [fatComputeFreeInfo]
      split
      · exact ⟨⟨⟨rfl, rfl⟩, h⟩, rfl⟩
      · have hq := quiet_computeLoop (v := { v with freeInfoValid := true, clusterCount := 0 })
          ht hnone (g.maxCluster + 1) (le_refl _)
        have hs : Counted g { v with freeInfoValid := true, clusterCount := 0 } 0 :=
          ⟨h.diskError, by rw [hnone, Finset.card_empty], h.next_min, h.next_lt, h.next_le⟩
        exact ⟨⟨hq.1.sameDisk, hq.counted hs⟩, hq.1.nextCluster⟩
    right
    left
    refine ⟨fatComputeFreeInfo g v, ?_, hkept.1, hnone⟩
    simp only [if_pos he, if_neg hp, hkept.2]
  · have hcl : g.IsCluster v.nextCluster := ⟨h.next_min, Nat.le_of_not_lt he⟩
    have hq := quiet_load v (hcl.readable ht)
    have hmax := g.maxCluster_lt
    have ha : add32 v.nextCluster 1 = v.nextCluster + 1 := add32_of_lt (by omega)
    rw [if_neg he]
    simp only [tryNext, fatGetFatEntry_eq, hq.1.nextCluster, ha]
    generalize hw : ({ fatLoadFatEntry g v v.nextCluster with
      nextCluster := v.nextCluster + 1 } : Volume) = w
    have hsa : SameDisk v w := by
      rw [← hw]
      exact hq.1.sameDisk
    have hnext : w.nextCluster = v.nextCluster + 1 := by rw [← hw]
    have hc : Counted g w v.nextCluster := by
      have hl := hq.counted h
      refine ⟨?_, ?_, ?_, ?_, ?_⟩
      · rw [← hw]
        exact hl.diskError
      · rw [← hw]
        exact hl.count.trans (by rw [hq.1.disk])
      · have hm := h.next_min
        omega
      · omega
      · intro i hi hne
        rw [hsa.1] at hi
        have hle := h.next_le i hi (mem_freeClusters.mp hi).1.ne_free
        omega
    by_cases hfree : entryAt g v.disk v.nextCluster = fatClusterFree
    · right
      right
      rw [if_pos hfree]
      exact ⟨_, w, rfl, ⟨hsa, hc⟩, mem_freeClusters.mpr ⟨hcl, hfree⟩⟩
    · left
      rw [if_neg hfree]
      refine ⟨w, rfl, ⟨hsa, ?_⟩, hcl.2, hnext⟩
      -- the cluster that was passed is not free, so nothing is excepted
      refine ⟨hc.diskError, hc.count, hc.next_min, hc.next_lt, ?_⟩
      intro i hi _
      refine hc.next_le i hi ?_
      rintro rfl
      rw [hsa.1] at hi
      exact hfree (mem_freeClusters.mp hi).2

/-- **`FatAllocateCluster`** takes a free cluster, or there is none. -/
theorem fatAllocateCluster_spec (ht : g.TableFits) (h : Counted g v 0) :
    ∃ new w, Yields (fun fuel => fatAllocateCluster g fuel v) (new, w) ∧
      ((new = fatClusterLast ∧ freeClusters g v.disk = ∅ ∧ Kept g v 0 w) ∨
        (new ∈ freeClusters g v.disk ∧ Kept g v new w)) := by
  have hin : ∀ u u', Kept g v 0 u → allocateStep g u = .inl u' → Kept g v 0 u' ∧
      g.maxCluster + 2 - u'.nextCluster < g.maxCluster + 2 - u.nextCluster := by
    intro u u' hu hst
    rcases allocateStep_spec ht hu.2 with
      ⟨w, hgo, hkept, hle, hnext⟩ | ⟨w, hre, -⟩ | ⟨new, w, hre, -⟩
    · rw [hgo] at hst
      cases hst
      exact ⟨⟨hu.1.trans hkept.1, hkept.2⟩, by omega⟩
    · rw [hre] at hst
      cases hst
    · rw [hre] at hst
      cases hst
  simp only [fatAllocateCluster, h.diskError, Bool.false_eq_true, if_false]
  obtain ⟨⟨new, w⟩, hre⟩ : ∃ r, Returns (allocateStep g) v r := by
    refine exists_returns (fun u => g.maxCluster + 2 - u.nextCluster) fun u u' hr hst => ?_
    refine (hin u u' ?_ hst).2
    exact hr.invariant (fun s s' hs hs' => (hin s s' hs hs').1)
      ⟨⟨rfl, rfl⟩, h⟩
  obtain ⟨u, hr, hlast⟩ := hre.exists_reaches
  have hu : Kept g v 0 u :=
    hr.invariant (fun s s' hs hs' => (hin s s' hs hs').1) ⟨⟨rfl, rfl⟩, h⟩
  refine ⟨new, w, hre, ?_⟩
  rcases allocateStep_spec ht hu.2 with
    ⟨w', hgo, -⟩ | ⟨w', hr', hkept, hnone⟩ | ⟨new', w', hr', hkept, hfree⟩
  · rw [hgo] at hlast
    cases hlast
  · rw [hr'] at hlast
    cases hlast
    rw [hu.1.1] at hnone
    exact .inl ⟨rfl, hnone, hu.1.trans hkept.1, hkept.2⟩
  · rw [hr'] at hlast
    cases hlast
    rw [hu.1.1] at hfree
    exact .inr ⟨hfree, hu.1.trans hkept.1, hkept.2⟩

/-! ## Freeing a chain -/

/-- **`FatFreeClusters`** frees the clusters of a chain that ends. -/
theorem fatFreeClusters_spec (hfi : g.NumbersFit) (hta : g.TableFits) {ds : List ℕ}
    (hds : ∀ d ∈ ds, g.IsCluster d) (hn : ds.Nodup)
    (hp : Path (entryAt g v.disk) c ds e) (he : FatEndOfFatChain e)
    (hcn : Counted g v 0) :
    ∃ v', Yields (fun fuel => fatFreeClusters g fuel v c) (.success, v') ∧ Counted g v' 0 ∧
      Touches g (· ∈ ds) v v' ∧ (∀ d ∈ ds, entryAt g v'.disk d = fatClusterFree) ∧
      ∀ j, j ∉ ds → j ≠ 1 → entryAt g v'.disk j = entryAt g v.disk j := by
  induction ds generalizing v c with
  | nil =>
    subst hp
    refine ⟨v, returns_of_inr ?_, hcn, .of_same ⟨rfl, rfl⟩, nofun, fun _ _ _ => rfl⟩
    rw [freeStep, if_pos he]
  | cons d ds ih =>
    obtain ⟨rfl, htail⟩ := hp
    have hc : g.IsCluster c := hds c mem_cons_self
    rw [nodup_cons] at hn
    have hq := quiet_load v (hc.readable hta)
    have hpu := set_put hfi hta (fatLoadFatEntry g v c) hc (.inl rfl)
    have hs : freeStep g (v, c) =
        .inl ((fatSetFatEntry g (fatLoadFatEntry g v c) c fatClusterFree).2,
          entryAt g v.disk c) := by
      rw [freeStep, if_neg hc.not_end, if_neg hc.not_stop, fatGetFatEntry_eq]
    generalize (fatSetFatEntry g (fatLoadFatEntry g v c) c fatClusterFree).2 = v₁ at hpu hs
    have ho : ∀ j, j ≠ c → j ≠ 1 → entryAt g v₁.disk j = entryAt g v.disk j := by
      intro j hjc hj
      rw [hpu.other j hjc hj, hq.1.disk]
    have hp₁ : Path (entryAt g v₁.disk) (entryAt g v.disk c) ds e := by
      apply htail.congr
      intro y hy
      apply ho y
      · rintro rfl
        exact hn.1 hy
      · exact (hds y (mem_cons_of_mem c hy)).ne_one
    obtain ⟨v', hyi, hc', ht, hfree, hr⟩ :=
      ih (fun y hy => hds y (mem_cons_of_mem c hy)) hn.2 hp₁
        (hpu.counted_zero hc (hq.counted hcn))
    refine ⟨v', (returns_inl_iff hs).mpr hyi, hc', ?_, ?_, ?_⟩
    · have hf : Touches g (· ∈ c :: ds) v v₁ :=
        (Touches.of_same hq.1.sameDisk).trans
          (hpu.touches.mono fun j hj => hj ▸ mem_cons_self)
      exact hf.trans (ht.mono fun j hj => mem_cons_of_mem c hj)
    · intro y hy
      rcases mem_cons.mp hy with rfl | hy
      · rw [hr y hn.1 hc.ne_one, hpu.self]
      · exact hfree y hy
    · intro j hj hj1
      rw [mem_cons, not_or] at hj
      rw [hr j hj.2 hj1, ho j hj.1 hj1]

end Edk2.Fat
