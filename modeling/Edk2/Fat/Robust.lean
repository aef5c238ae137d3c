import Edk2.Fat.Space
import Edk2.Lib.Chain
import Mathlib.Data.Set.Finite.Lattice
import Mathlib.Order.Interval.Finset.Nat
import Mathlib.Order.Interval.Set.Nat

/-!
# Cluster chains of any content

The table of a volume is read from a medium that anyone may have written: chains may be cyclic, may
join, may run into free, reserved or missing clusters. `FatPhysicalDirSize` and the search of
`FatGrowEof` for the last cluster follow a chain for ever when it comes back to a cluster that it
has passed. `FatFreeClusters` frees what it passes and so meets every cluster once, except for entry
1, which `FatSetFatEntry` does not write: it never leaves entry 1 when that entry names itself, also
when this is so only once the dirty flag, which is in entry 1, has been written.

## Main results

* `returns_freeStep_iff`: `FatFreeClusters` returns unless it is trapped
* `chains_return_iff`: all the functions return exactly when the chain is not cyclic and is not
  trapped by the dirty flag
-/

namespace Edk2.Fat

variable {g : Layout} {v v' w : Volume} {o : OFile} {disk : Memory} {a c i j k n x : ℕ}

/-! ## Chains -/

/-- The chain from `c` comes back to a cluster it has passed. -/
def Cyclic (g : Layout) (disk : Memory) (c : ℕ) : Prop := Returning (entryAt g disk) ChainStop c

/-- The chain from `c` is at entry 1 after `n` clusters. -/
def Meets (g : Layout) (disk : Memory) (c n : ℕ) : Prop :=
  (entryAt g disk)^[n] c = 1 ∧ ∀ k < n, ¬ ChainStop ((entryAt g disk)^[k] c)

theorem chainStop_of_end (h : FatEndOfFatChain c) : ChainStop c := .inr (le_of_lt h)

theorem chainStop_last : ChainStop fatClusterLast := by decide

theorem not_chainStop_one : ¬ ChainStop 1 := by decide

theorem fatMinCluster_le (h : ¬ ChainStop c) (hc : c ≠ 1) : fatMinCluster ≤ c := by
  have hz : c ≠ 0 := fun h0 => h (.inl h0)
  unfold fatMinCluster
  omega

theorem entryAt_of_not_readable (h : ¬ g.Readable i) : entryAt g disk i = fatClusterLast := by
  rw [entryAt, if_neg h]

/-- A chain ends unless it is cyclic: there are only so many clusters. -/
theorem ends_iff_not_cyclic : Ends (entryAt g disk) ChainStop c ↔ ¬ Cyclic g disk c := by
  refine ends_iff (Set.finite_Iic (g.maxCluster + 1)) fun x hx => .inr ?_
  rw [entryAt_of_not_readable fun h => hx h.1]
  exact chainStop_last

theorem Meets.succ (hc : ¬ ChainStop c) (h : Meets g disk (entryAt g disk c) n) :
    Meets g disk c (n + 1) := by
  refine ⟨h.1, fun k hk => ?_⟩
  cases k with
  | zero => exact hc
  | succ k => exact h.2 k (Nat.lt_of_succ_lt_succ hk)

theorem Meets.of_succ (h : Meets g disk c (n + 1)) :
    ¬ ChainStop c ∧ Meets g disk (entryAt g disk c) n :=
  ⟨h.2 0 (Nat.succ_pos n), h.1, fun k hk => h.2 (k + 1) (Nat.succ_lt_succ hk)⟩

theorem Meets.add (hgo : ∀ j < k, ¬ ChainStop ((entryAt g disk)^[j] c))
    (h : Meets g disk ((entryAt g disk)^[k] c) n) : Meets g disk c (k + n) := by
  constructor
  · rw [add_comm, Function.iterate_add_apply]
    exact h.1
  · intro j hj
    by_cases hjk : j < k
    · exact hgo j hjk
    · have := h.2 (j - k) (by omega)
      rwa [← Function.iterate_add_apply, Nat.sub_add_cancel (by omega)] at this

theorem Meets.of_add (h : Meets g disk c (k + n)) : Meets g disk ((entryAt g disk)^[k] c) n := by
  constructor
  · rw [← Function.iterate_add_apply, add_comm]
    exact h.1
  · intro j hj
    rw [← Function.iterate_add_apply]
    exact h.2 (j + k) (by omega)

theorem exists_first_meets (h : ∃ n, Meets g disk c n) :
    ∃ n, Meets g disk c n ∧ ∀ j < n, (entryAt g disk)^[j] c ≠ 1 := by
  classical
  refine ⟨Nat.find h, Nat.find_spec h, fun j hj ho => Nat.find_min h hj ⟨ho, fun k hk => ?_⟩⟩
  exact (Nat.find_spec h).2 k (hk.trans hj)

theorem not_meets_of_stop (hc : ChainStop c) (n : ℕ) : ¬ Meets g disk c n := by
  intro h
  cases n with
  | zero =>
    have ho : c = 1 := h.1
    exact not_chainStop_one (ho ▸ hc)
  | succ n => exact h.of_succ.1 hc

theorem not_meets_of_meets (hac : ¬ Cyclic g disk c) (hi : Meets g disk c i) (hij : i < j) :
    ¬ Meets g disk c j := by
  intro hj
  refine hac ⟨i, j, hij, hi.1.trans hj.1.symm, fun k hk => ?_⟩
  rcases lt_or_eq_of_le hk with hlt | rfl
  · exact hj.2 k hlt
  · rw [hj.1]
    exact not_chainStop_one

/-! ## Chains after a write -/

theorem Sets.dirtyDisk_eq (h : Sets g v i x v') : dirtyDisk g v' = v'.disk := by
  rw [dirtyDisk, markDirty, if_neg]
  rintro ⟨hc, ht⟩
  rw [h.fatDirty] at hc
  simp [ht] at hc

/-- No chain leads to entry 1 that did not before, when every entry that has changed ends its chain
at once or after one more cluster. -/
theorem exists_meets_of_detour {disk' : Memory}
    (h : ∀ y, y ≠ 1 → entryAt g disk' y = entryAt g disk y ∨ ChainStop (entryAt g disk' y) ∨
      (entryAt g disk' y ≠ 1 ∧ ChainStop (entryAt g disk' (entryAt g disk' y))))
    (hm : ∃ n, Meets g disk' a n) : ∃ n, Meets g disk a n := by
  obtain ⟨n, hn, hf⟩ := exists_first_meets hm
  have hgo : ∀ j ≤ n, ¬ ChainStop ((entryAt g disk')^[j] a) := by
    intro j hj
    rcases lt_or_eq_of_le hj with hlt | rfl
    · exact hn.2 j hlt
    · rw [hn.1]
      exact not_chainStop_one
  have ha : ∀ j < n, entryAt g disk ((entryAt g disk')^[j] a) =
      entryAt g disk' ((entryAt g disk')^[j] a) := by
    intro j hj
    rcases h _ (hf j hj) with heq | hstop | ⟨hne, hstop⟩
    · exact heq.symm
    · rw [← Function.iterate_succ_apply' (entryAt g disk')] at hstop
      exact absurd hstop (hgo (j + 1) hj)
    · rw [← Function.iterate_succ_apply' (entryAt g disk')] at hne hstop
      rw [← Function.iterate_succ_apply' (entryAt g disk')] at hstop
      have hlt : j + 1 ≠ n := by
        rintro rfl
        exact hne hn.1
      exact absurd hstop (hgo (j + 2) (by omega))
  refine ⟨n, ?_, fun k hk => ?_⟩
  · rw [iterate_congr ha (le_refl n)]
    exact hn.1
  · rw [iterate_congr ha hk.le]
    exact hn.2 k hk

theorem Sets.exists_meets (h : Sets g v i x v') (hx : ChainStop (entryAt g v'.disk i))
    (hm : ∃ n, Meets g v'.disk a n) : ∃ n, Meets g v.disk a n := by
  refine exists_meets_of_detour (fun y hy => ?_) hm
  by_cases hyi : y = i
  · exact .inr (.inl (hyi ▸ hx))
  · exact .inl (h.entryAt_of_ne hyi hy)

theorem Sets.meets (h : Sets g v i x v') (hm : Meets g v.disk a n)
    (ho : ∀ j < n, (entryAt g v.disk)^[j] a ≠ 1) (hi : ∀ j < n, (entryAt g v.disk)^[j] a ≠ i) :
    Meets g v'.disk a n := by
  have ha : ∀ j < n, entryAt g v'.disk ((entryAt g v.disk)^[j] a) =
      entryAt g v.disk ((entryAt g v.disk)^[j] a) :=
    fun j hj => h.entryAt_of_ne (hi j hj) (ho j hj)
  constructor
  · rw [iterate_congr ha (le_refl n)]
    exact hm.1
  · intro k hk
    rw [iterate_congr ha hk.le]
    exact hm.2 k hk

/-! ## Freeing a chain -/

/-- Freeing the chain from `c` ends up in entry 1, which names itself: from the start, or once the
dirty flag has been written. -/
def Trapped (g : Layout) (v : Volume) (c : ℕ) : Prop :=
  (c = 1 ∧ entryAt g v.disk 1 = 1) ∨
    ((∃ n, 0 < n ∧ Meets g v.disk c n) ∧ entryAt g (dirtyDisk g v) 1 = 1)

theorem trapped_congr (hd : w.disk = v.disk) (hdi : w.fatDirty = v.fatDirty) :
    Trapped g w c ↔ Trapped g v c := by
  rw [Trapped, Trapped, hd, dirtyDisk_congr hd hdi]

theorem not_trapped_of_stop (hc : ChainStop c) : ¬ Trapped g v c := by
  rintro (⟨rfl, -⟩ | ⟨⟨n, -, hn⟩, -⟩)
  · exact not_chainStop_one hc
  · exact not_meets_of_stop hc n hn

theorem Trapped.exists_meets (h : Trapped g v c) : ∃ n, Meets g v.disk c n := by
  rcases h with ⟨rfl, -⟩ | ⟨⟨n, -, hn⟩, -⟩
  · exact ⟨0, rfl, fun k hk => absurd hk (Nat.not_lt_zero k)⟩
  · exact ⟨n, hn⟩

/-- After a write, only what entry 1 now is matters. -/
theorem Sets.trapped_iff (h : Sets g v i x v') (hi : i ≠ 1) :
    Trapped g v' c ↔ (∃ n, Meets g v'.disk c n) ∧ entryAt g (dirtyDisk g v) 1 = 1 := by
  -- of entry 1 the write has changed the dirty flag only
  rw [Trapped, h.dirtyDisk_eq, h.disk, entryAt_putEntry_of_ne g _ x (Ne.symm hi)]
  constructor
  · rintro (⟨rfl, ho⟩ | ⟨⟨n, -, hn⟩, ho⟩)
    · exact ⟨⟨0, rfl, fun k hk => absurd hk (Nat.not_lt_zero k)⟩, ho⟩
    · exact ⟨⟨n, hn⟩, ho⟩
  · rintro ⟨⟨n, hn⟩, ho⟩
    rcases eq_zero_or_pos n with rfl | hpos
    · exact .inl ⟨hn.1, ho⟩
    · exact .inr ⟨⟨n, hpos, hn⟩, ho⟩

theorem freeStep_go (v : Volume) (h : ¬ ChainStop c) : freeStep g (v, c) =
    .inl ((fatSetFatEntry g (fatLoadFatEntry g v c) c fatClusterFree).2, entryAt g v.disk c) := by
  rw [freeStep, if_neg fun he => h (chainStop_of_end he), if_neg h, fatGetFatEntry_eq]

theorem freeStep_one (v : Volume) :
    freeStep g (v, 1) = .inl (fatLoadFatEntry g v 1, entryAt g v.disk 1) := by
  rw [freeStep_go v not_chainStop_one, fatSetFatEntry, if_pos (by decide)]

theorem freeStep_readable (v : Volume) (h : ¬ ChainStop c) (hc : c ≠ 1) (hr : g.Readable c) :
    ∃ v', freeStep g (v, c) = .inl (v', entryAt g v.disk c) ∧ Sets g v c fatClusterFree v' := by
  obtain ⟨v', hse, hs⟩ := fatSetFatEntry_spec (fatLoadFatEntry g v c) fatClusterFree
    (fatMinCluster_le h hc) hr
  refine ⟨v', ?_, hs.of_load hr⟩
  rw [freeStep_go v h, hse]

theorem Sets.entryAt_free (h : Sets g v i fatClusterFree v') (hr : g.Readable i) :
    entryAt g v'.disk i = fatClusterFree := by
  rw [h.disk, entryAt_putEntry_free _ hr]

theorem Trapped.freeStep (h : Trapped g v c) :
    ∃ v' c', freeStep g (v, c) = .inl (v', c') ∧ Trapped g v' c' := by
  have hl := sameTable_fatLoadFatEntry g v 1
  rcases h with ⟨rfl, ho⟩ | ⟨⟨n, hpos, hn⟩, ho⟩
  · refine ⟨_, _, freeStep_one v, .inl ⟨ho, ?_⟩⟩
    rw [hl.disk, ho]
  · obtain ⟨n, rfl⟩ := Nat.exists_eq_succ_of_ne_zero hpos.ne'
    obtain ⟨hc, hnext⟩ := hn.of_succ
    by_cases hc1 : c = 1
    · subst hc1
      refine ⟨_, _, freeStep_one v, (trapped_congr hl.disk hl.fatDirty).mpr ?_⟩
      by_cases hs : entryAt g v.disk 1 = 1
      · exact .inl ⟨hs, hs⟩
      · refine .inr ⟨⟨n, pos_of_ne_zero ?_, hnext⟩, ho⟩
        rintro rfl
        exact hs hnext.1
    · have hr : g.Readable c := by
        by_contra hno
        rw [entryAt_of_not_readable hno] at hnext
        exact not_meets_of_stop chainStop_last n hnext
      obtain ⟨v', hst, hse⟩ := freeStep_readable v hc hc1 hr
      refine ⟨v', _, hst, (hse.trapped_iff hc1).mpr ⟨?_, ho⟩⟩
      obtain ⟨m, hm, hf⟩ := exists_first_meets ⟨n, hnext⟩
      -- a chain that comes back to `c` before entry 1 would have met entry 1 earlier
      refine ⟨m, hse.meets hm hf fun j hj hb => ?_⟩
      refine hf (m - (j + 1)) (by omega) ?_
      have ho' := hm.1
      rw [show m = m - (j + 1) + (j + 1) by omega, Function.iterate_add_apply,
        Function.iterate_succ_apply', hb] at ho'
      exact ho'

/-- How many entries of clusters are in use. -/
def usedEntries (g : Layout) (disk : Memory) : ℕ :=
  ((Finset.Icc 2 (g.maxCluster + 1)).filter fun i => entryAt g disk i ≠ fatClusterFree).card

/-- Freeing a cluster in use leaves one less. -/
theorem Sets.usedEntries_lt (h : Sets g v i fatClusterFree v') (hm : fatMinCluster ≤ i)
    (hr : g.Readable i) (hu : entryAt g v.disk i ≠ fatClusterFree) :
    usedEntries g v'.disk < usedEntries g v.disk := by
  refine Finset.card_lt_card (Finset.ssubset_iff_of_subset ?_ |>.mpr ⟨i, ?_, ?_⟩)
  · intro j hj
    rw [Finset.mem_filter, Finset.mem_Icc] at hj ⊢
    refine ⟨hj.1, ?_⟩
    have hne : j ≠ i := by
      rintro rfl
      exact hj.2 (h.entryAt_free hr)
    rw [← h.entryAt_of_ne hne (by omega)]
    exact hj.2
  · exact Finset.mem_filter.mpr ⟨Finset.mem_Icc.mpr ⟨hm, hr.1⟩, hu⟩
  · intro hi
    exact (Finset.mem_filter.mp hi).2 (h.entryAt_free hr)

/-- What is left of a walk that is not trapped: a cluster in use is freed and is then met no more,
entry 1 is left for a cluster, and everything else is the end. -/
def freeMeasure (g : Layout) : Volume × ℕ → ℕ
  | (v, c) => if ChainStop c then 0 else 2 * usedEntries g v.disk + if c = 1 then 2 else 1

theorem freeStep_falls (h : ¬ Trapped g v c) {c' : ℕ}
    (hst : freeStep g (v, c) = .inl (v', c')) :
    ¬ Trapped g v' c' ∧ freeMeasure g (v', c') < freeMeasure g (v, c) := by
  have hc : ¬ ChainStop c := by
    intro hc
    rw [freeStep, if_pos hc] at hst
    split at hst <;> cases hst
  by_cases hc1 : c = 1
  · subst hc1
    have hl := sameTable_fatLoadFatEntry g v 1
    rw [freeStep_one] at hst
    cases hst
    have hs : entryAt g v.disk 1 ≠ 1 := fun hs => h (.inl ⟨rfl, hs⟩)
    refine ⟨fun ht => h ?_, ?_⟩
    · rw [trapped_congr hl.disk hl.fatDirty] at ht
      rcases ht with ⟨ho, -⟩ | ⟨⟨n, hpos, hn⟩, ho⟩
      · exact absurd ho hs
      · exact .inr ⟨⟨n + 1, Nat.succ_pos n, hn.succ hc⟩, ho⟩
    · simp only [freeMeasure, hl.disk, if_neg hc, if_neg hs, if_true]
      split <;> omega
  · by_cases hre : g.Readable c
    · obtain ⟨w, hw, hse⟩ := freeStep_readable v hc hc1 hre
      rw [hw] at hst
      cases hst
      constructor
      · rw [hse.trapped_iff hc1]
        rintro ⟨hme, ho⟩
        have hfree : ChainStop (entryAt g v'.disk c) := .inl (hse.entryAt_free hre)
        obtain ⟨n, hn⟩ := hse.exists_meets hfree hme
        exact h (.inr ⟨⟨n + 1, Nat.succ_pos n, hn.succ hc⟩, ho⟩)
      · simp only [freeMeasure, if_neg hc, if_neg hc1]
        split
        · omega
        · rename_i hgo
          have hlt := hse.usedEntries_lt (fatMinCluster_le hc hc1) hre
            fun hfree => hgo (.inl hfree)
          split <;> omega
    · rw [freeStep_go v hc, entryAt_of_not_readable hre] at hst
      cases hst
      refine ⟨not_trapped_of_stop chainStop_last, ?_⟩
      simp only [freeMeasure, if_pos chainStop_last, if_neg hc, if_neg hc1]
      omega

/-- **`FatFreeClusters` returns unless it is trapped in entry 1.** -/
theorem returns_freeStep_iff :
    (∃ r, Returns (freeStep g) (v, c) r) ↔ ¬ Trapped g v c := by
  constructor
  · rintro ⟨r, hr⟩ ht
    refine not_returns (P := fun s => Trapped g s.1 s.2) (s := (v, c)) ?_ ht hr
    rintro ⟨v, c⟩ h
    obtain ⟨v', c', hst, ht'⟩ := h.freeStep
    exact ⟨(v', c'), hst, ht'⟩
  · intro h
    refine exists_returns (freeMeasure g) ?_
    rintro ⟨v₁, c₁⟩ ⟨v₂, c₂⟩ hre hst
    have h₁ : ¬ Trapped g v₁ c₁ := by
      refine hre.invariant (P := fun s => ¬ Trapped g s.1 s.2) ?_ h
      rintro ⟨v, c⟩ ⟨v', c'⟩ hs hs'
      exact (freeStep_falls hs hs').1
    exact (freeStep_falls h₁ hst).2

/-! ## Shrinking a file -/

theorem shrinkWalk_spec (g : Layout) (v : Volume) (n c last : ℕ) :
    ∃ v', SameTable v v' ∧
      (((∃ j < n, ChainStop ((entryAt g v.disk)^[j] c)) ∧ shrinkWalk g n v c last = (none, v')) ∨
        ((∀ j < n, ¬ ChainStop ((entryAt g v.disk)^[j] c)) ∧
          shrinkWalk g n v c last =
            (some (if n = 0 then last else (entryAt g v.disk)^[n - 1] c,
              (entryAt g v.disk)^[n] c), v'))) := by
  induction n generalizing v c last with
  | zero =>
    exact ⟨v, .refl v, .inr ⟨fun j hj => absurd hj (Nat.not_lt_zero j), rfl⟩⟩
  | succ n ih =>
    by_cases hc : ChainStop c
    · exact ⟨v, .refl v, .inl ⟨⟨0, Nat.succ_pos n, hc⟩, by
        rw [shrinkWalk, if_pos hc]⟩⟩
    · have hl := sameTable_fatLoadFatEntry g v c
      obtain ⟨v', hsa, hca⟩ := ih (fatLoadFatEntry g v c) (entryAt g v.disk c) c
      rw [hl.disk] at hca
      have hs : shrinkWalk g (n + 1) v c last =
          shrinkWalk g n (fatLoadFatEntry g v c) (entryAt g v.disk c) c := by
        rw [shrinkWalk, if_neg hc, fatGetFatEntry_eq]
      refine ⟨v', hl.trans hsa, ?_⟩
      rw [hs]
      rcases hca with ⟨⟨j, hj, hstop⟩, heq⟩ | ⟨hgo, heq⟩
      · exact .inl ⟨⟨j + 1, Nat.succ_lt_succ hj, hstop⟩, heq⟩
      · refine .inr ⟨fun j hj => ?_, ?_⟩
        · cases j with
          | zero => exact hc
          | succ j => exact hgo j (Nat.lt_of_succ_lt_succ hj)
        · rw [heq, if_neg (Nat.succ_ne_zero n)]
          cases n with
          | zero => rfl
          | succ n => rfl

theorem terminates_finishShrink (v : Volume) (o : OFile) (last c : ℕ) :
    Terminates (fun fuel => finishShrink g fuel v o last c) ↔ ¬ Trapped g v c := by
  rw [← returns_freeStep_iff]
  have hb := terminates_bind (steady_fatFreeClusters g v c) fun r => steady_const
    (some (r.1, r.2, { o with
      fileCurrentCluster := o.fileCluster, fileLastCluster := last, dirty := true }))
  refine hb.trans ⟨?_, ?_⟩
  · rintro ⟨r, hr, -⟩
    exact ⟨r, hr⟩
  · rintro ⟨r, hr⟩
    exact ⟨r, hr, terminates_const⟩

/-- The last cluster kept ends the chain now: whether freeing the rest is trapped. -/
theorem trapped_cut (hsa : SameTable v w) (hk : 0 < k)
    (hgo : ∀ j < k, ¬ ChainStop ((entryAt g v.disk)^[j] c)) :
    (Trapped g (fatSetFatEntry g w ((entryAt g v.disk)^[k - 1] c) fatClusterLast).2
        ((entryAt g v.disk)^[k] c) → ∃ n, Meets g v.disk c (k - 1 + n)) ∧
    (¬ Cyclic g v.disk c →
      (Trapped g (fatSetFatEntry g w ((entryAt g v.disk)^[k - 1] c) fatClusterLast).2
          ((entryAt g v.disk)^[k] c) ↔
        entryAt g (dirtyDisk g v) 1 = 1 ∧ ∃ n, Meets g v.disk c (k + n))) := by
  obtain ⟨k, rfl⟩ := Nat.exists_eq_succ_of_ne_zero hk.ne'
  rw [Nat.succ_eq_add_one, Nat.add_sub_cancel]
  have hlast := hgo k (Nat.lt_succ_self k)
  have hgo' : ∀ j < k, ¬ ChainStop ((entryAt g v.disk)^[j] c) :=
    fun j hj => hgo j (hj.trans (by omega))
  have hnext := Function.iterate_succ_apply' (entryAt g v.disk) k c
  by_cases ho : (entryAt g v.disk)^[k] c = 1
  · have hme : Meets g v.disk c k := ⟨ho, hgo'⟩
    refine ⟨fun _ => ⟨0, hme⟩, fun hac => ?_⟩
    have hno : ∀ n, ¬ Meets g v.disk c (k + 1 + n) :=
      fun n => not_meets_of_meets hac hme (by omega)
    refine ⟨fun ht => ?_, fun h => absurd h.2 (not_exists.mpr hno)⟩
    rw [ho, fatSetFatEntry, if_pos (by decide)] at ht
    obtain ⟨n, hn⟩ := ht.exists_meets
    rw [hsa.disk] at hn
    exact absurd (hn.add hgo) (hno n)
  · by_cases hr : g.Readable ((entryAt g v.disk)^[k] c)
    · obtain ⟨v', hs, hse⟩ := fatSetFatEntry_spec w fatClusterLast (fatMinCluster_le hlast ho) hr
      rw [hs, hse.trapped_iff ho, dirtyDisk_congr hsa.disk hsa.fatDirty]
      have hstop : ChainStop (entryAt g v'.disk ((entryAt g v.disk)^[k] c)) := by
        rw [hse.disk, entryAt_putEntry_last _ hr]
        exact chainStop_last
      have hb : (∃ n, Meets g v'.disk ((entryAt g v.disk)^[k + 1] c) n) →
          ∃ n, Meets g v.disk c (k + 1 + n) := by
        intro h
        obtain ⟨n, hn⟩ := hse.exists_meets hstop h
        rw [hsa.disk] at hn
        exact ⟨n, hn.add hgo⟩
      constructor
      · rintro ⟨h, -⟩
        obtain ⟨n, hn⟩ := hb h
        exact ⟨n + 1, by rwa [add_right_comm, ← add_assoc] at *⟩
      · intro hac
        rw [and_comm]
        refine and_congr_right fun _ => ⟨hb, ?_⟩
        rintro ⟨n, hn⟩
        obtain ⟨m, hm, hf⟩ := exists_first_meets ⟨n, hn.of_add⟩
        refine ⟨m, hse.meets (by rwa [hsa.disk]) (by rwa [hsa.disk]) ?_⟩
        intro j hj heq
        rw [hsa.disk] at heq
        -- the chain would be back at last cluster kept
        rw [← Function.iterate_add_apply] at heq
        have ha := hm.add hgo
        exact hac ⟨k, j + (k + 1), by omega, heq.symm, fun i hi => ha.2 i (by omega)⟩
    · have he : (entryAt g v.disk)^[k + 1] c = fatClusterLast := by
        rw [hnext, entryAt_of_not_readable hr]
      have hno : ¬ Trapped g
          (fatSetFatEntry g w ((entryAt g v.disk)^[k] c) fatClusterLast).2
          ((entryAt g v.disk)^[k + 1] c) := by
        rw [he]
        exact not_trapped_of_stop chainStop_last
      refine ⟨fun ht => absurd ht hno, fun _ => iff_of_false hno ?_⟩
      rintro ⟨-, n, hn⟩
      have := hn.of_add
      rw [he] at this
      exact not_meets_of_stop chainStop_last n this

/-- The chain from `c`, behind its first `k` clusters, meets entry 1, which names itself once the
dirty flag has been written. -/
def DirtyTrap (g : Layout) (v : Volume) (c k : ℕ) : Prop :=
  entryAt g (dirtyDisk g v) 1 = 1 ∧ ∃ n, 0 < n ∧ k ≤ n ∧ Meets g v.disk c n

/-- **When `FatShrinkEof` returns**, on a chain that is not cyclic. -/
theorem terminates_fatShrinkEof_iff (hac : ¬ Cyclic g v.disk o.fileCluster) :
    Terminates (fun fuel => fatShrinkEof g fuel v o) ↔
      ¬ DirtyTrap g v o.fileCluster (fatSizeToClusters g o.fileSize) := by
  simp only [fatShrinkEof]
  generalize fatSizeToClusters g o.fileSize = k
  by_cases hk : k = 0
  · subst hk
    simp only [ne_eq, not_true_eq_false, if_false]
    by_cases hc : o.fileCluster = fatClusterFree
    · simp only [if_pos hc, terminates_const, true_iff]
      rintro ⟨-, n, -, -, hn⟩
      exact not_meets_of_stop (.inl hc) n hn
    · simp only [if_neg hc, terminates_finishShrink]
      refine not_congr ⟨?_, ?_⟩
      · rintro (⟨ho, hs⟩ | ⟨⟨n, hpos, hn⟩, ho⟩)
        · rw [ho] at hac
          have hgo : ∀ k ≤ 1, ¬ ChainStop ((entryAt g v.disk)^[k] 1) := by
            intro k hk
            rcases Nat.le_one_iff_eq_zero_or_eq_one.mp hk with rfl | rfl
            · exact not_chainStop_one
            · rw [Function.iterate_one, hs]
              exact not_chainStop_one
          exact absurd ⟨0, 1, Nat.one_pos, hs.symm, hgo⟩ hac
        · exact ⟨ho, n, hpos, Nat.zero_le n, hn⟩
      · rintro ⟨ho, n, hpos, -, hn⟩
        exact .inr ⟨⟨n, hpos, hn⟩, ho⟩
  · simp only [if_pos hk]
    obtain ⟨w, hsa, ⟨⟨j, hj, hstop⟩, heq⟩ | ⟨hgo, heq⟩⟩ :=
      shrinkWalk_spec g v k o.fileCluster fatClusterFree
    · simp only [heq, terminates_const, true_iff]
      rintro ⟨-, n, -, hkn, hn⟩
      exact hn.2 j (by omega) hstop
    · simp only [heq, if_neg hk, terminates_finishShrink]
      rw [(trapped_cut hsa (pos_of_ne_zero hk) hgo).2 hac]
      refine not_congr (and_congr_right fun _ => ⟨?_, ?_⟩)
      · rintro ⟨n, hn⟩
        exact ⟨k + n, by omega, by omega, hn⟩
      · rintro ⟨n, -, hkn, hn⟩
        exact ⟨n - k, by rwa [Nat.add_sub_cancel' hkn]⟩

/-- On a chain that does not meet entry 1, `FatShrinkEof` returns. -/
theorem terminates_fatShrinkEof (h : ∀ n, ¬ Meets g v.disk o.fileCluster n) :
    Terminates (fun fuel => fatShrinkEof g fuel v o) := by
  simp only [fatShrinkEof]
  generalize fatSizeToClusters g o.fileSize = k
  by_cases hk : k = 0
  · simp only [hk, ne_eq, not_true_eq_false, if_false]
    split
    · exact terminates_const
    · rw [terminates_finishShrink]
      exact fun ht => ht.exists_meets.elim h
  · simp only [if_pos hk]
    obtain ⟨w, hs, ⟨-, heq⟩ | ⟨hgo, heq⟩⟩ :=
      shrinkWalk_spec g v k o.fileCluster fatClusterFree
    · simp only [heq]
      exact terminates_const
    · simp only [heq, if_neg hk, terminates_finishShrink]
      intro ht
      obtain ⟨n, hn⟩ := (trapped_cut hs (pos_of_ne_zero hk) hgo).1 ht
      exact h _ hn

/-! ## Allocating a cluster -/

/-- The table and the dirty flag are the same. -/
def SameDisk (v v' : Volume) : Prop := v'.disk = v.disk ∧ v'.fatDirty = v.fatDirty

theorem SameTable.sameDisk (h : SameTable v v') : SameDisk v v' := ⟨h.disk, h.fatDirty⟩

theorem SameDisk.trans (h : SameDisk v w) (h' : SameDisk w v') : SameDisk v v' :=
  ⟨h'.1.trans h.1, h'.2.trans h.2⟩

section

variable (g : Layout)

def IsFree (disk : Memory) (i : ℕ) : Prop :=
  i ≤ g.maxCluster + 1 ∧ entryAt g disk i = fatClusterFree

theorem computeLoop_spec (n : ℕ) (v : Volume) (hn : n ≤ g.maxCluster + 1) :
    SameDisk v (computeLoop g n v) ∧
      ((computeLoop g n v).nextCluster = v.nextCluster ∨
        IsFree g v.disk (computeLoop g n v).nextCluster) := by
  induction n generalizing v with
  | zero => exact ⟨⟨rfl, rfl⟩, .inl rfl⟩
  | succ n ih =>
    rw [computeLoop]
    split
    · exact ⟨⟨rfl, rfl⟩, .inl rfl⟩
    split
    · exact ⟨⟨rfl, rfl⟩, .inl rfl⟩
    have hl := sameTable_fatLoadFatEntry g v (n + 1)
    rw [fatGetFatEntry_eq]
    simp only
    split
    · rename_i hfree
      obtain ⟨hs, hnext⟩ := ih { fatLoadFatEntry g v (n + 1) with
        clusterCount := add32 (fatLoadFatEntry g v (n + 1)).clusterCount 1
        nextCluster := (n + 1) % 2 ^ 32 } (by omega)
      refine ⟨hl.sameDisk.trans hs, .inr ?_⟩
      rcases hnext with hnext | hnext
      · rw [hnext]
        have hlt := g.maxCluster_lt
        simp only [Nat.mod_eq_of_lt (show n + 1 < 2 ^ 32 by omega)]
        exact ⟨hn, hfree⟩
      · rw [← hl.disk]
        exact hnext
    · obtain ⟨hs, hnext⟩ := ih (fatLoadFatEntry g v (n + 1)) (by omega)
      refine ⟨hl.sameDisk.trans hs, ?_⟩
      rw [hl.nextCluster, hl.disk] at hnext
      exact hnext

theorem fatComputeFreeInfo_spec (v : Volume) : SameDisk v (fatComputeFreeInfo g v) ∧
      ((fatComputeFreeInfo g v).nextCluster = v.nextCluster ∨
        IsFree g v.disk (fatComputeFreeInfo g v).nextCluster) := by
  rw [fatComputeFreeInfo]
  split
  · exact ⟨⟨rfl, rfl⟩, .inl rfl⟩
  · exact computeLoop_spec g _ { v with freeInfoValid := true, clusterCount := 0 } (le_refl _)

theorem tryNext_cases (v : Volume) : ∃ w, SameDisk v w ∧
      ((entryAt g v.disk v.nextCluster = fatClusterFree ∧ tryNext g v = .inr (v.nextCluster, w)) ∨
        (entryAt g v.disk v.nextCluster ≠ fatClusterFree ∧ tryNext g v = .inl w ∧
          w.nextCluster = add32 v.nextCluster 1)) := by
  have hl := sameTable_fatLoadFatEntry g v v.nextCluster
  simp only [tryNext, fatGetFatEntry_eq, hl.nextCluster]
  refine ⟨{ fatLoadFatEntry g v v.nextCluster with nextCluster := add32 v.nextCluster 1 },
    hl.sameDisk, ?_⟩
  split
  · rename_i hfree
    exact .inl ⟨hfree, rfl⟩
  · rename_i hu
    exact .inr ⟨hu, rfl, rfl⟩

/-- What one round of `FatAllocateCluster` does: it goes on to the next cluster, or it returns. -/
theorem allocateStep_cases (v : Volume) : ∃ w, SameDisk v w ∧
      ((v.nextCluster ≤ g.maxCluster + 1 ∧ allocateStep g v = .inl w ∧
          w.nextCluster = v.nextCluster + 1) ∨
        ∃ new, allocateStep g v = .inr (new, w) ∧
          (new = fatClusterLast ∨ IsFree g v.disk new)) := by
  rw [allocateStep]
  split
  · -- the end of the table: the free clusters are counted again
    generalize hu : (if v.freeInfoValid ∧ PositiveInt32 v.clusterCount then
      { v with freeInfoValid := false } else v) = u
    have hs : SameDisk v u := by
      rw [← hu]
      split <;> exact ⟨rfl, rfl⟩
    have hnext : u.nextCluster = v.nextCluster := by
      rw [← hu]
      split <;> rfl
    obtain ⟨hc, hfree⟩ := fatComputeFreeInfo_spec g u
    rw [hs.1] at hfree
    simp only
    split
    · exact ⟨_, hs.trans hc, .inr ⟨_, rfl, .inl rfl⟩⟩
    · obtain ⟨w, hw, ⟨-, hr⟩ | ⟨hus, -⟩⟩ := tryNext_cases g (fatComputeFreeInfo g u)
      · refine ⟨w, (hs.trans hc).trans hw, .inr ⟨_, hr, .inr ?_⟩⟩
        exact hfree.resolve_left (by omega)
      · rw [(hs.trans hc).1] at hus
        exact absurd (hfree.resolve_left (by omega)).2 hus
  · have hlt := g.maxCluster_lt
    obtain ⟨w, hw, ⟨hfree, hr⟩ | ⟨-, hgo, hnext⟩⟩ := tryNext_cases g v
    · exact ⟨w, hw, .inr ⟨_, hr, .inr ⟨by omega, hfree⟩⟩⟩
    · rw [add32_of_lt (by omega)] at hnext
      exact ⟨w, hw, .inl ⟨by omega, hgo, hnext⟩⟩

/-- **`FatAllocateCluster` returns** a free cluster, or that there is none. -/
theorem fatAllocateCluster_yields (v : Volume) :
    ∃ new w, Yields (fun fuel => fatAllocateCluster g fuel v) (new, w) ∧ SameDisk v w ∧
      (new = fatClusterLast ∨ IsFree g v.disk new) := by
  simp only [fatAllocateCluster]
  split
  · exact ⟨_, v, ⟨0, rfl⟩, ⟨rfl, rfl⟩, .inl rfl⟩
  · obtain ⟨⟨new, w⟩, hre⟩ : ∃ r, Returns (allocateStep g) v r := by
      refine exists_returns (fun u => g.maxCluster + 2 - u.nextCluster) fun u u' _ hst => ?_
      obtain ⟨w, -, ⟨hle, hgo, hnext⟩ | ⟨new, hre, -⟩⟩ := allocateStep_cases g u
      · rw [hgo] at hst
        cases hst
        omega
      · rw [hre] at hst
        cases hst
    obtain ⟨u, hr, hlast⟩ := hre.exists_reaches
    have hu : SameDisk v u := by
      refine hr.invariant (fun s s' hs hst => ?_) ⟨rfl, rfl⟩
      obtain ⟨w, hw, ⟨-, hgo, -⟩ | ⟨new, hre, -⟩⟩ := allocateStep_cases g s
      · rw [hgo] at hst
        cases hst
        exact hs.trans hw
      · rw [hre] at hst
        cases hst
    refine ⟨new, w, hre, ?_⟩
    obtain ⟨w', hw', ⟨-, hgo, -⟩ | ⟨new', hr', hfree⟩⟩ := allocateStep_cases g u
    · rw [hgo] at hlast
      cases hlast
    · rw [hr'] at hlast
      cases hlast
      rw [hu.1] at hfree
      exact ⟨hu.trans hw', hfree⟩

/-! ## Growing a file -/

/-- The chain from `c` does not meet entry 1. -/
def Avoids (disk : Memory) (c : ℕ) : Prop := ∀ n, ¬ Meets g disk c n

/-- The last cluster of a file, as far as it is known. -/
def LastKnown (last : ℕ) : Prop :=
  last = 0 ∨ (fatMinCluster ≤ last ∧ last ≤ g.maxCluster + 1)

end

theorem entryAt_set_last (v : Volume) (hm : fatMinCluster ≤ i) :
    ChainStop (entryAt g (fatSetFatEntry g v i fatClusterLast).2.disk i) := by
  by_cases h : g.Readable i
  · obtain ⟨v', hse, hs⟩ := fatSetFatEntry_spec v fatClusterLast hm h
    rw [hse, hs.disk, entryAt_putEntry_last _ h]
    exact chainStop_last
  · rw [entryAt_of_not_readable h]
    exact chainStop_last

theorem Avoids.append (hf : g.NumbersFit) (hlast : LastKnown g i)
    (h : Avoids g v.disk o.fileCluster) (hm : fatMinCluster ≤ x) (hfree : IsFree g v.disk x) :
    Avoids g (appendCluster g v o i x).1.disk (appendCluster g v o i x).2.fileCluster := by
  have hx1 : x ≠ 1 := by
    rintro rfl
    exact absurd hm (by decide)
  rw [appendCluster]
  rcases hlast with rfl | ⟨him, hima⟩
  · -- the first cluster of the file
    intro n hn
    cases n with
    | zero => exact hx1 hn.1
    | succ n => exact not_meets_of_stop (entryAt_set_last v hm) n hn.of_succ.2
  · have hi0 : i ≠ 0 := by
      rintro rfl
      exact absurd him (by decide)
    rw [if_pos hi0]
    intro n hn
    refine (exists_meets_of_detour (fun y hy => ?_) ⟨n, hn⟩).elim h
    have he := entryAt_set_last (g := g) (fatSetFatEntry g v i x).2 hm
    by_cases hyx : y = x
    · rw [hyx]
      exact .inr (.inl he)
    have hs := entryAt_fatSetFatEntry_of_ne (fatSetFatEntry g v i x).2 fatClusterLast
      hm hfree.1 hyx hy
    by_cases hyi : y = i
    · subst hyi
      by_cases hr : g.Readable y
      · obtain ⟨w, hset, hse⟩ := fatSetFatEntry_spec v x him hr
        have hv : entryAt g (fatSetFatEntry g v y x).2.disk y = x := by
          rw [hset, hse.disk, entryAt_putEntry_cluster hf _ hfree.1 hr]
        rw [hv] at hs
        rw [hs]
        exact .inr (.inr ⟨hx1, he⟩)
      · rw [entryAt_of_not_readable hr]
        exact .inr (.inl chainStop_last)
    · left
      rw [hs]
      exact entryAt_fatSetFatEntry_of_ne v x him hima hyi hy

/-- The allocation loop of `FatGrowEof` returns, and the chain of the file stays off entry 1. -/
theorem growLoop_yields (hfi : g.NumbersFit) (n last : ℕ) (v : Volume) (o : OFile)
    (hlast : LastKnown g last) (h : Avoids g v.disk o.fileCluster) :
    ∃ r, Yields (fun fuel => growLoop g fuel n v o last) r ∧
      Avoids g r.2.1.disk r.2.2.fileCluster := by
  induction n generalizing v o last with
  | zero => exact ⟨_, ⟨0, rfl⟩, h⟩
  | succ n ih =>
    obtain ⟨new, w, hal, hs, hnew⟩ := fatAllocateCluster_yields g v
    rw [← hs.1] at h hnew
    refine hal.exists_bind (steady_fatAllocateCluster g v) ?_ ?_
    · dsimp only
      split
      · exact steady_const _
      · split
        · exact steady_const _
        · exact steady_growLoop ..
    dsimp only
    split
    · split
      · rename_i hne
        obtain ⟨hm, hmax⟩ := hlast.resolve_left hne
        refine ⟨_, ⟨0, rfl⟩, fun n hn => (exists_meets_of_detour (fun y hy => ?_) ⟨n, hn⟩).elim h⟩
        by_cases hyi : y = last
        · rw [hyi]
          exact .inr (.inl (entryAt_set_last w hm))
        · exact .inl (entryAt_fatSetFatEntry_of_ne w _ hm hmax hyi hy)
      · exact ⟨_, ⟨0, rfl⟩, h⟩
    · rename_i he
      split
      · exact ⟨_, ⟨0, rfl⟩, h⟩
      · have hfree : IsFree g w.disk new := by
          refine hnew.resolve_left ?_
          rintro rfl
          exact he (by decide)
        have hm : fatMinCluster ≤ new := by omega
        exact ih new _ _ (.inr ⟨hm, hfree.1⟩) (h.append hfi hlast hm hfree)

theorem terminates_growDone (status : EfiStatus) (v : Volume) (o : OFile)
    (h : Terminates fun fuel => fatShrinkEof g fuel v o) :
    Terminates fun fuel => growDone g fuel status v o := by
  obtain ⟨r, hy⟩ := h
  exact .bind (steady_fatShrinkEof g v o) hy (steady_const _) terminates_const

theorem terminates_growFrom (hf : g.NumbersFit) (n newSizeInBytes : ℕ)
    (hlast : LastKnown g o.fileLastCluster) (h : Avoids g v.disk o.fileCluster) :
    Terminates fun fuel => growFrom g fuel n v o newSizeInBytes := by
  obtain ⟨⟨status, w, o'⟩, hy, ha⟩ := growLoop_yields hf n o.fileLastCluster v o hlast h
  refine .bind (steady_growLoop g v o n o.fileLastCluster) hy ?_ ?_
  · simp only
    split
    · exact steady_const _
    · exact steady_growDone g w o' status
  · simp only
    split
    · exact terminates_const
    · exact terminates_growDone status w o' (terminates_fatShrinkEof ha)

/-- What ends the search for the last cluster. -/
def WalkStop (g : Layout) (c : ℕ) : Prop :=
  FatEndOfFatChain c ∨ c < fatMinCluster ∨ g.maxCluster + 1 < c

/-- Where the search for the last cluster is: every cluster it has passed is one of the volume. -/
def Walked (g : Layout) (v : Volume) (o : OFile) : Volume × OFile × ℕ × ℕ → Prop
  | (w, o', c, _) =>
    SameTable v w ∧ (∃ last, o' = { o with fileLastCluster := last } ∧ LastKnown g last) ∧
      ∃ n, c = (entryAt g v.disk)^[n] o.fileCluster ∧
        ∀ j < n, ¬ WalkStop g ((entryAt g v.disk)^[j] o.fileCluster)

theorem walkStep_go (v : Volume) (o : OFile) (count : ℕ) (hc : ¬ WalkStop g c) :
    walkStep g (v, o, c, count) = .inl (fatLoadFatEntry g v c, { o with fileLastCluster := c },
      entryAt g v.disk c, count + 1) := by
  rw [WalkStop, not_or] at hc
  rw [walkStep, if_neg hc.1, if_neg hc.2, fatGetFatEntry_eq]

theorem Walked.step {s s' : Volume × OFile × ℕ × ℕ} (h : Walked g v o s)
    (hs : walkStep g s = .inl s') : Walked g v o s' := by
  obtain ⟨w, o', c, count⟩ := s
  obtain ⟨hsa, ⟨last, rfl, -⟩, n, rfl, hgo⟩ := h
  by_cases hc : WalkStop g ((entryAt g v.disk)^[n] o.fileCluster)
  · rw [walkStep] at hs
    rcases hc with hc | hc
    · rw [if_pos hc] at hs
      cases hs
    · split at hs <;> cases hs
  · rw [walkStep_go _ _ _ hc] at hs
    cases hs
    have hin := not_or.mp hc
    refine ⟨hsa.trans (sameTable_fatLoadFatEntry g w _), ⟨_, rfl, .inr ?_⟩, n + 1, ?_, ?_⟩
    · omega
    · rw [hsa.disk, Function.iterate_succ_apply']
    · intro j hj
      rcases lt_or_eq_of_le (Nat.le_of_lt_succ hj) with hlt | rfl
      · exact hgo j hlt
      · exact hc

theorem walk_returns (hac : ¬ Cyclic g v.disk o.fileCluster)
    (hlast : LastKnown g o.fileLastCluster) :
    ∃ count w last, Returns (walkStep g) (v, o, o.fileCluster, 0)
        (count, w, { o with fileLastCluster := last }) ∧
      SameTable v w ∧ LastKnown g last ∧ (count ≠ none → Avoids g v.disk o.fileCluster) := by
  have he : Ends (entryAt g v.disk) (WalkStop g) o.fileCluster := by
    obtain ⟨n, hn⟩ := ends_iff_not_cyclic.mpr hac
    refine ⟨n, .inr ?_⟩
    have hlt := g.maxCluster_lt
    rcases hn with hn | hn
    · rw [hn]
      exact .inl (by decide)
    · unfold fatClusterSpecial at hn
      exact .inr (by omega)
  have hsta : Walked g v o (v, o, o.fileCluster, 0) :=
    ⟨.refl v, ⟨o.fileLastCluster, rfl, hlast⟩, 0, rfl, fun j hj => absurd hj (Nat.not_lt_zero j)⟩
  obtain ⟨⟨count, w, o'⟩, hre⟩ : ∃ r, Returns (walkStep g) (v, o, o.fileCluster, 0) r := by
    refine exists_returns_of_ends (fun s => s.2.2.1) ?_ ?_ hsta he
    · rintro ⟨w, o', c, count⟩ hs hc
      have hst := walkStep_go w o' count hc
      refine .inr ⟨_, hst, hs.step hst, ?_⟩
      rw [hs.1.disk]
    · rintro ⟨w, o', c, count⟩ - hc
      rw [walkStep]
      rcases hc with hc | hc
      · rw [if_pos hc]
        exact ⟨_, rfl⟩
      · split <;> exact ⟨_, rfl⟩
  obtain ⟨⟨w', o'', c, count'⟩, hr, hst⟩ := hre.exists_reaches
  have hw := hr.invariant (fun _ _ => Walked.step) hsta
  obtain ⟨hsa, ⟨last, rfl, hk⟩, n, rfl, hgo⟩ := hw
  rw [walkStep] at hst
  split at hst
  · rename_i hen
    cases hst
    refine ⟨_, _, last, hre, hsa, hk, fun _ m hm => ?_⟩
    -- a search that comes to the end of the chain has met entry 1 nowhere
    rcases lt_trichotomy m n with hlt | rfl | hlt
    · refine hgo m hlt (.inr (.inl ?_))
      rw [hm.1]
      decide
    · rw [hm.1] at hen
      exact absurd hen (by decide)
    · exact hm.2 n hlt (chainStop_of_end hen)
  · split at hst
    · cases hst
      exact ⟨_, _, last, hre, hsa, hk, fun hne => absurd rfl hne⟩
    · cases hst

/-! ## Positions and sizes -/

theorem runStep_inl {posLimit run run' c' : ℕ} (hc : c ≤ g.maxCluster + 2)
    (h : runStep g posLimit (v, c, run) = .inl (v', c', run')) :
    c' = c + 1 ∧ c' ≤ g.maxCluster + 2 := by
  have hlt := g.maxCluster_lt
  have ha : add64 c 1 = c + 1 := add64_of_lt (by omega)
  simp only [runStep, fatGetFatEntry_eq, ha] at h
  split at h
  · rename_i hnext
    cases h
    refine ⟨rfl, ?_⟩
    by_contra hno
    have he : entryAt g v.disk c = fatClusterLast :=
      entryAt_of_not_readable fun hr => by have := hr.1; omega
    rw [he, fatClusterLast] at hnext
    omega
  · cases h

theorem terminates_foundCluster (v : Volume) (o : OFile) (position posLimit c startPos : ℕ) :
    Terminates fun fuel => foundCluster g fuel v o position posLimit c startPos := by
  simp only [foundCluster]
  split
  · exact terminates_const
  · split
    · exact terminates_const
    · obtain ⟨r, hr⟩ : ∃ r, Returns (runStep g posLimit)
          (v, c, sub64 (add64 startPos g.clusterSize) position) r := by
        -- only entries of the table name the cluster behind their own
        refine exists_returns (fun s => g.maxCluster + 3 - s.2.1) ?_
        rintro ⟨w, c₁, run⟩ ⟨w', c₂, run'⟩ hre hs
        have hc₁ : c₁ ≤ g.maxCluster + 2 := by
          refine hre.invariant (P := fun s => s.2.1 ≤ g.maxCluster + 2) ?_ (by simp only; omega)
          rintro ⟨u, d, run⟩ ⟨u', d', run'⟩ hd hs
          exact (runStep_inl hd hs).2
        have := (runStep_inl hc₁ hs).1
        simp only at ⊢
        omega
      exact .bind (steady_loop _ _) hr (steady_const _) terminates_const

theorem terminates_fatOFilePosition (position posLimit : ℕ)
    (hs : o.fileCurrentCluster = o.fileCluster) (hac : ¬ Cyclic g v.disk o.fileCluster) :
    Terminates fun fuel => fatOFilePosition g fuel v o position posLimit := by
  simp only [fatOFilePosition, hs, or_true, if_true]
  split
  · exact terminates_const
  · obtain ⟨⟨found, w⟩, hr⟩ : ∃ r, Returns (seekStep g position) (v, o.fileCluster, 0) r := by
      refine exists_returns_of_ends (P := fun s => s.1.disk = v.disk) (fun s => s.2.1) ?_ ?_ rfl
        (ends_iff_not_cyclic.mpr hac)
      · rintro ⟨w, c, startPos⟩ hw hc
        simp only [seekStep, if_neg hc, fatGetFatEntry_eq]
        split
        · refine .inr ⟨_, rfl, (sameTable_fatLoadFatEntry g w c).disk.trans hw, ?_⟩
          rw [← hw]
        · exact .inl ⟨_, rfl⟩
      · rintro ⟨w, c, startPos⟩ - hc
        simp only [seekStep, if_pos hc]
        split <;> exact ⟨_, rfl⟩
    refine .bind (steady_loop _ _) hr ?_ ?_
    · rcases found with _ | ⟨c, startPos⟩
      · exact steady_const _
      · exact steady_foundCluster ..
    · rcases found with _ | ⟨c, startPos⟩
      · exact terminates_const
      · exact terminates_foundCluster ..

/-- **`FatPhysicalDirSize` returns exactly on the chains that are not cyclic.** -/
theorem terminates_fatPhysicalDirSize_iff (v : Volume) (c : ℕ) :
    Terminates (fun fuel => fatPhysicalDirSize g fuel v c) ↔ ¬ Cyclic g v.disk c := by
  rw [← ends_iff_not_cyclic]
  simp only [fatPhysicalDirSize]
  by_cases hc : c = 0
  · rw [hc]
    exact iff_of_true terminates_const ⟨0, .inl rfl⟩
  · simp only [if_pos hc]
    refine returns_iff_ends (P := fun s : Volume × ℕ × ℕ => s.1.disk = v.disk) (fun s => s.2.1)
      ?_ ?_ rfl
    · rintro ⟨w, c, size⟩ hw hc
      refine ⟨(fatLoadFatEntry g w c, entryAt g w.disk c, add64 size g.clusterSize), ?_,
        (sameTable_fatLoadFatEntry g w c).disk.trans hw, ?_⟩
      · rw [dirSizeStep, if_neg fun he => hc (chainStop_of_end he), if_neg hc,
          fatGetFatEntry_eq]
      · rw [← hw]
    · rintro ⟨w, c, size⟩ - hc
      rw [dirSizeStep]
      split <;> exact ⟨_, rfl⟩

/-! ## The functions on a file -/

/-- A file as `FatOpenDirEnt` opens it. -/
def opened (cluster size : ℕ) (fixed : Bool) : OFile where
  fileSize := size
  fileCluster := cluster
  fileCurrentCluster := cluster
  fileLastCluster := 0
  dirty := false
  isFixedRootDir := fixed
  position := 0
  posDisk := 0
  posRem := 0

theorem terminates_fatGrowEof (hf : g.NumbersFit) (newSizeInBytes : ℕ)
    (hlast : o.fileLastCluster = 0) (hac : ¬ Cyclic g v.disk o.fileCluster)
    (ht : ¬ DirtyTrap g v o.fileCluster (fatSizeToClusters g o.fileSize)) :
    Terminates fun fuel => fatGrowEof g fuel v o newSizeInBytes := by
  have hk : LastKnown g o.fileLastCluster := .inl hlast
  simp only [fatGrowEof, hlast, and_true]
  split
  · exact terminates_const
  split
  · split
    · obtain ⟨count, w, last, hr, hs, hl', ha⟩ := walk_returns hac hk
      refine .bind (steady_loop _ _) hr ?_ ?_
      · split
        · exact steady_growFrom ..
        · exact steady_growDone ..
      · simp only
        split
        · rename_i hcnt
          refine terminates_growFrom hf _ _ hl' ?_
          rw [hs.disk]
          exact ha (by simp [hcnt])
        · refine terminates_growDone _ _ _ ((terminates_fatShrinkEof_iff ?_).mpr ?_)
          · rwa [hs.disk]
          · rw [DirtyTrap, hs.disk, dirtyDisk_congr hs.disk hs.fatDirty]
            exact ht
    · rename_i hz
      refine terminates_growFrom hf _ _ hk fun n => not_meets_of_stop (.inl ?_) n
      exact not_not.mp hz
  · exact terminates_const

/-- **When the functions return.** On a table of any content, the four functions return for the file
with first cluster `cluster` and size `size` exactly when its chain does not come back to a cluster
it has passed, and is not led by the dirty flag into entry 1 behind the clusters that stay. -/
theorem chains_return_iff (hfit : g.NumbersFit) (v : Volume) (cluster size : ℕ) (fixed : Bool) :
    (Terminates (fun fuel => fatPhysicalDirSize g fuel v cluster) ∧
      Terminates (fun fuel => fatShrinkEof g fuel v (opened cluster size fixed)) ∧
      (∀ newSizeInBytes, Terminates fun fuel =>
        fatGrowEof g fuel v (opened cluster size fixed) newSizeInBytes) ∧
      ∀ position posLimit, Terminates fun fuel =>
        fatOFilePosition g fuel v (opened cluster size fixed) position posLimit) ↔
    ¬ Cyclic g v.disk cluster ∧ ¬ DirtyTrap g v cluster (fatSizeToClusters g size) := by
  constructor
  · rintro ⟨hs, hsh, -, -⟩
    have hac := (terminates_fatPhysicalDirSize_iff v cluster).mp hs
    exact ⟨hac, (terminates_fatShrinkEof_iff hac).mp hsh⟩
  · rintro ⟨hac, ht⟩
    refine ⟨(terminates_fatPhysicalDirSize_iff v cluster).mpr hac, ?_, ?_, ?_⟩
    · exact (terminates_fatShrinkEof_iff hac).mpr ht
    · exact fun newSizeInBytes => terminates_fatGrowEof hfit newSizeInBytes rfl hac ht
    · exact fun position posLimit => terminates_fatOFilePosition position posLimit rfl hac

/-- A floppy-sized volume. -/
def sampleLayout : Layout where
  fatType := .fat12
  maxCluster := 100
  fatPos := 512
  rootPos := 1024
  firstClusterPos := 2048
  volumeSize := 53248
  clusterAlignment := 9
  dirtyValue := 0
  maxCluster_lt := by decide
  maxCluster_fat12 := by decide
  maxCluster_fat16 := by decide
  clusterAlignment_le := by decide

/-- A volume whose table is `table`. -/
def sampleVolume (table : List UInt8) : Volume where
  disk a := table.getD (a - 512) 0
  diskError := false
  fatEntryPos := 0
  fatEntryBuffer := 0
  fatDirty := false
  freeInfoValid := false
  clusterCount := 0
  nextCluster := 2

/-- A table with the chain of the clusters 2, 3 and 5. -/
def threeVolume : Volume :=
  sampleVolume [0xF0, 0xFF, 0xFF, 0x03, 0x50, 0x00, 0x00, 0xF0, 0xFF]

/-- A file of two clusters, the chain of which has a third one. -/
theorem chains_return_iff_three : sampleLayout.NumbersFit ∧
    Terminates (fun fuel => fatPhysicalDirSize sampleLayout fuel threeVolume 2) ∧
    Terminates (fun fuel => fatShrinkEof sampleLayout fuel threeVolume (opened 2 700 false)) ∧
    (∀ newSizeInBytes, Terminates fun fuel =>
      fatGrowEof sampleLayout fuel threeVolume (opened 2 700 false) newSizeInBytes) ∧
    ∀ position posLimit, Terminates fun fuel =>
      fatOFilePosition sampleLayout fuel threeVolume (opened 2 700 false) position posLimit := by
  have he : Ends (entryAt sampleLayout threeVolume.disk) ChainStop 2 := ⟨3, by decide +kernel⟩
  have hs : entryAt sampleLayout (dirtyDisk sampleLayout threeVolume) 1 ≠ 1 := by decide +kernel
  refine ⟨by decide, (chains_return_iff (by decide) threeVolume 2 700 false).mpr ?_⟩
  exact ⟨ends_iff_not_cyclic.mp he, fun ht => hs ht.1⟩

/-- A file of one cluster, the entry of which names the cluster itself: neither the size of a
directory with this chain nor the end of the file is ever found. -/
theorem not_chains_return :
    ¬ Terminates (fun fuel => fatPhysicalDirSize sampleLayout fuel
      (sampleVolume [0xF0, 0xFF, 0xFF, 0x02, 0x00]) 2) ∧
    ¬ Terminates (fun fuel => fatGrowEof sampleLayout fuel
      (sampleVolume [0xF0, 0xFF, 0xFF, 0x02, 0x00]) (opened 2 512 false) 1024) := by
  have hse : entryAt sampleLayout (sampleVolume [0xF0, 0xFF, 0xFF, 0x02, 0x00]).disk 2 = 2 := by
    decide +kernel
  constructor
  · rw [terminates_fatPhysicalDirSize_iff, not_not]
    refine ⟨0, 1, Nat.one_pos, hse.symm, fun k hk => ?_⟩
    rcases Nat.le_one_iff_eq_zero_or_eq_one.mp hk with rfl | rfl
    · decide
    · decide
  · rintro ⟨r, fuel, hr⟩
    simp only [fatGrowEof, opened] at hr
    obtain ⟨s, hs, -⟩ := Option.bind_eq_some_iff.mp hr
    refine not_returns (P := fun s => s.2.2.1 = 2 ∧
      s.1.disk = (sampleVolume [0xF0, 0xFF, 0xFF, 0x02, 0x00]).disk) ?_ ⟨rfl, rfl⟩ ⟨fuel, hs⟩
    rintro ⟨v, o, c, count⟩ ⟨rfl, hd⟩
    refine ⟨_, walkStep_go _ _ _ (by unfold WalkStop; decide), ?_, ?_⟩
    · exact (congrArg (entryAt sampleLayout · 2) hd).trans hse
    · exact (sameTable_fatLoadFatEntry _ v 2).disk.trans hd

end Edk2.Fat
