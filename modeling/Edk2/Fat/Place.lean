import Edk2.Fat.Integrity
import Edk2.Fat.Access
import Edk2.Lib.Scatter

/-!
# Where the bytes of a file are

A file is scattered over the disk: its bytes are in the clusters of its chain, those of the root
directory of a FAT12 or FAT16 volume in one piece. `FatOFilePosition` finds the place of a position
and how many bytes follow it in one piece; `FatAccessOFile` moves from piece to piece.

## Main results

* `fatOFilePosition_spec`: what is found is the place of the position
* `fatAccessOFile_write`, `fatAccessOFile_read`: an access inside the file
-/

namespace Edk2.Fat

open List Option Nat Bool

variable {g : Layout} {v v' w : Volume} {disk disk' : Memory} {o o' : OFile} {c i j k n p q : ℕ}
  {cs : List ℕ}

def Layout.clusterPos (g : Layout) (cluster : ℕ) : ℕ :=
  g.firstClusterPos + (cluster - fatMinCluster) * g.clusterSize

/-- The clusters are inside the volume, behind the table. -/
structure Layout.DataFits (g : Layout) : Prop where
  behind : g.entryPos (g.maxCluster + 1) + g.fatEntrySize ≤ g.firstClusterPos
  inside : g.firstClusterPos + g.maxCluster * g.clusterSize ≤ g.volumeSize
  volumeSize_lt : g.volumeSize < 2 ^ 64

/-- Where byte `p` of a file is. -/
def placeOf (g : Layout) (o : OFile) (cs : List ℕ) (p : ℕ) : ℕ :=
  if o.isFixedRootDir then g.rootPos + p
  else g.clusterPos (cs.getD (p / g.clusterSize) 0) + p % g.clusterSize

def roomOf (g : Layout) (o : OFile) (cs : List ℕ) : ℕ :=
  if o.isFixedRootDir then o.fileSize else cs.length * g.clusterSize

/-- **An open file and its clusters**, with a position that can be used. The root directory of a
FAT12 or FAT16 volume is between the table and the clusters. -/
structure Body (g : Layout) (disk : Memory) (o : OFile) (cs : List ℕ) : Prop where
  root : o.isFixedRootDir = true →
    g.entryPos (g.maxCluster + 1) + g.fatEntrySize ≤ g.rootPos ∧
      g.rootPos + o.fileSize ≤ g.firstClusterPos
  file : o.isFixedRootDir = false → FileOf g disk o cs ∧ Seeks g o cs

theorem Layout.clusterSize_pos (g : Layout) : 0 < g.clusterSize := Nat.two_pow_pos _

/-! ## Sizes -/

theorem fatSizeToClusters_eq (g : Layout) (size : ℕ) :
    fatSizeToClusters g size = (size + (g.clusterSize - 1)) / g.clusterSize := by
  have hpos := g.clusterSize_pos
  have hs := div_add_mod size g.clusterSize
  have hm := mod_lt size hpos
  unfold fatSizeToClusters
  rw [Layout.clusterSize, and_low, shiftRight_eq_div_pow, ← Layout.clusterSize]
  symm
  split
  · refine Nat.div_eq_of_lt_le ?_ ?_
    · rw [Nat.succ_mul, mul_comm]
      omega
    · rw [Nat.succ_mul, Nat.succ_mul, mul_comm (size / g.clusterSize)]
      omega
  · refine Nat.div_eq_of_lt_le ?_ ?_
    · rw [add_zero, mul_comm]
      omega
    · rw [Nat.succ_mul, mul_comm (size / g.clusterSize)]
      omega

theorem fatSizeToClusters_mono {size size' : ℕ} (h : size ≤ size') :
    fatSizeToClusters g size ≤ fatSizeToClusters g size' := by
  rw [fatSizeToClusters_eq, fatSizeToClusters_eq]
  exact Nat.div_le_div_right (Nat.add_le_add_right h _)

theorem le_fatSizeToClusters (g : Layout) (size : ℕ) :
    size ≤ fatSizeToClusters g size * g.clusterSize := by
  have hpos := g.clusterSize_pos
  rw [fatSizeToClusters_eq]
  have hd := div_add_mod (size + (g.clusterSize - 1)) g.clusterSize
  have hm := mod_lt (size + (g.clusterSize - 1)) hpos
  rw [mul_comm] at hd
  omega

theorem FileOf.size_le (h : FileOf g disk o cs) : o.fileSize ≤ cs.length * g.clusterSize := by
  rw [h.length]
  exact le_fatSizeToClusters g o.fileSize

theorem FileOf.length_le (h : FileOf g disk o cs) : cs.length ≤ g.maxCluster := by
  have hs : cs.toFinset ⊆ Finset.Icc fatMinCluster (g.maxCluster + 1) := by
    intro x hx
    rw [Finset.mem_Icc]
    exact h.clusters x (mem_toFinset.mp hx)
  have hc := Finset.card_le_card hs
  rw [toFinset_card_of_nodup h.nodup, card_Icc] at hc
  unfold fatMinCluster at hc
  omega

/-! ## Places -/

theorem clusterPos_add (hc : fatMinCluster ≤ c) :
    g.clusterPos (c + n) = g.clusterPos c + n * g.clusterSize := by
  rw [Layout.clusterPos, Layout.clusterPos, Nat.sub_add_comm hc, add_mul, add_assoc]

theorem clusterPos_fits (hd : g.DataFits) (hc : g.IsCluster c) :
    g.firstClusterPos ≤ g.clusterPos c ∧ g.clusterPos c + g.clusterSize ≤ g.volumeSize := by
  have hin := hd.inside
  have hm : (c - fatMinCluster + 1) * g.clusterSize ≤ g.maxCluster * g.clusterSize := by
    refine mul_le_mul_right _ ?_
    have hmi := hc.1
    have hmax := hc.2
    unfold fatMinCluster at *
    omega
  rw [Nat.succ_mul] at hm
  unfold Layout.clusterPos
  omega

theorem clusterPos_inj {c' r r' : ℕ} (hc : fatMinCluster ≤ c) (hc' : fatMinCluster ≤ c')
    (hr : r < g.clusterSize) (hr' : r' < g.clusterSize)
    (h : g.clusterPos c + r = g.clusterPos c' + r') : c = c' ∧ r = r' := by
  have hn : (c - fatMinCluster) * g.clusterSize + r =
      (c' - fatMinCluster) * g.clusterSize + r' := by
    unfold Layout.clusterPos at h
    omega
  have hdi : c - fatMinCluster = c' - fatMinCluster := by
    have hd := congrArg (· / g.clusterSize) hn
    simp only [mul_comm _ g.clusterSize, mul_add_div g.clusterSize_pos,
      div_eq_of_lt hr, div_eq_of_lt hr', add_zero] at hd
    exact hd
  rw [hdi] at hn
  omega

theorem div_lt_length (h : p < cs.length * g.clusterSize) : p / g.clusterSize < cs.length :=
  (div_lt_iff_lt_mul g.clusterSize_pos).mpr h

theorem getD_div_mem (hp : p < cs.length * g.clusterSize) :
    cs[p / g.clusterSize]? = some (cs.getD (p / g.clusterSize) 0) := by
  have hlt := div_lt_length hp
  rw [getD_eq_getElem?_getD, List.getElem?_eq_getElem hlt]
  rfl

theorem placeOf_file (hf : o.isFixedRootDir = false) (p : ℕ) :
    placeOf g o cs p = g.clusterPos (cs.getD (p / g.clusterSize) 0) + p % g.clusterSize := by
  rw [placeOf, hf, if_neg Bool.false_ne_true]

theorem Body.placeOf_inj (h : Body g disk o cs) (hp : p < roomOf g o cs) (hq : q < roomOf g o cs)
    (heq : placeOf g o cs p = placeOf g o cs q) : p = q := by
  cases hf : o.isFixedRootDir with
  | true =>
    rw [placeOf, placeOf, hf, if_pos rfl, if_pos rfl] at heq
    omega
  | false =>
    rw [roomOf, hf] at hp hq
    rw [placeOf_file hf, placeOf_file hf] at heq
    obtain ⟨hfi, -⟩ := h.file hf
    have hpc := getD_div_mem hp
    have hqc := getD_div_mem hq
    have hcp := hfi.clusters _ (mem_of_getElem? hpc)
    have hcq := hfi.clusters _ (mem_of_getElem? hqc)
    obtain ⟨hc, hr⟩ := clusterPos_inj hcp.1 hcq.1 (mod_lt p g.clusterSize_pos)
      (mod_lt q g.clusterSize_pos) heq
    have hk : p / g.clusterSize = q / g.clusterSize := by
      rw [hc] at hpc
      exact (List.getElem?_inj (div_lt_length hp) hfi.nodup).mp (hpc.trans hqc.symm)
    rw [← div_add_mod p g.clusterSize, ← div_add_mod q g.clusterSize, hk, hr]

theorem Body.placeOf_fits (h : Body g disk o cs) (hd : g.DataFits) (hp : p < roomOf g o cs) :
    ¬ g.InTable (placeOf g o cs p) ∧ placeOf g o cs p < g.volumeSize := by
  unfold Layout.InTable
  have hb := hd.behind
  have hin := hd.inside
  cases hf : o.isFixedRootDir with
  | true =>
    obtain ⟨ht, hcl⟩ := h.root hf
    rw [roomOf, hf, if_pos rfl] at hp
    rw [placeOf, hf, if_pos rfl]
    omega
  | false =>
    rw [roomOf, hf] at hp
    rw [placeOf_file hf]
    have hc := (h.file hf).1.clusters _ (mem_of_getElem? (getD_div_mem hp))
    have hfi := clusterPos_fits hd hc
    have hm := mod_lt p g.clusterSize_pos
    omega

theorem Body.size_le (h : Body g disk o cs) : o.fileSize ≤ roomOf g o cs := by
  cases hf : o.isFixedRootDir with
  | true => rw [roomOf, hf, if_pos rfl]
  | false =>
    rw [roomOf, hf]
    exact (h.file hf).1.size_le

theorem Body.room_lt (h : Body g disk o cs) (hd : g.DataFits) : roomOf g o cs < 2 ^ 64 := by
  have hin := hd.inside
  have hlt := hd.volumeSize_lt
  cases hf : o.isFixedRootDir with
  | true =>
    obtain ⟨-, hc⟩ := h.root hf
    rw [roomOf, hf, if_pos rfl]
    omega
  | false =>
    have hle := mul_le_mul_right g.clusterSize (h.file hf).1.length_le
    rw [roomOf, hf, if_neg Bool.false_ne_true]
    omega

/-! ## The table -/

theorem entryAt_congr (h : ∀ a, g.InTable a → disk' a = disk a) (i : ℕ) :
    entryAt g disk' i = entryAt g disk i := by
  unfold entryAt
  split
  · rename_i hr
    have hle : le disk' (g.entryPos i) g.fatEntrySize = le disk (g.entryPos i) g.fatEntrySize :=
      le_congr fun j hj => h _ (inTable_of_entry hr.1 (Nat.le_add_right _ j) (by omega))
    rw [rawEntry, rawEntry, hle]
  · rfl

theorem FileOf.congr (h : FileOf g disk o cs)
    (heq : ∀ x ∈ cs, entryAt g disk' x = entryAt g disk x) : FileOf g disk' o cs :=
  ⟨h.chained.congr heq, h.clusters, h.nodup, h.length, h.last⟩

theorem Body.congr (h : Body g disk o cs)
    (heq : ∀ x ∈ cs, entryAt g disk' x = entryAt g disk x) : Body g disk' o cs :=
  ⟨h.root, fun hf => ⟨(h.file hf).1.congr heq, (h.file hf).2⟩⟩

/-! ## Finding a position -/

/-- Files that differ in their position only. -/
structure SameBody (o o' : OFile) : Prop where
  fileSize : o'.fileSize = o.fileSize
  fileCluster : o'.fileCluster = o.fileCluster
  fileLastCluster : o'.fileLastCluster = o.fileLastCluster
  isFixedRootDir : o'.isFixedRootDir = o.isFixedRootDir

theorem seek_path {d e : ℕ} (ht : g.TableFits) (hclu : ∀ x ∈ cs, g.IsCluster x)
    (hpa : Path (entryAt g v.disk) d cs e) (hp : p < cs.length * g.clusterSize)
    (hro : cs.length * g.clusterSize < 2 ^ 64) (hc : cs[k]? = some c)
    (hk : k * g.clusterSize ≤ p) :
    ∃ w, Quiet v w ∧ Returns (seekStep g p) (v, c, k * g.clusterSize)
      (some (cs.getD (p / g.clusterSize) 0, p / g.clusterSize * g.clusterSize), w) := by
  have hpos := g.clusterSize_pos
  have hkp : k ≤ p / g.clusterSize := (le_div_iff_mul_le hpos).mpr hk
  have ha : add64 (k * g.clusterSize) g.clusterSize = (k + 1) * g.clusterSize := by
    have hlt := (List.getElem?_eq_some_iff.mp hc).1
    have hle : (k + 1) * g.clusterSize ≤ cs.length * g.clusterSize := mul_le_mul_right _ hlt
    rw [Nat.succ_mul] at hle ⊢
    exact add64_of_lt (by omega)
  -- on the number of clusters to go
  obtain ⟨n, hn⟩ : ∃ n, p / g.clusterSize - k = n := ⟨_, rfl⟩
  induction n generalizing v k c with
  | zero =>
    have heq : p / g.clusterSize = k := by omega
    have hstop : ¬ (k + 1) * g.clusterSize ≤ p := by
      rw [← le_div_iff_mul_le hpos]
      omega
    refine ⟨v, .refl v, returns_of_inr ?_⟩
    rw [seekStep, ha, if_neg hstop, heq, getD_eq_getElem?_getD, hc]
    rfl
  | succ n ih =>
    have hgo : (k + 1) * g.clusterSize ≤ p := by
      rw [← le_div_iff_mul_le hpos]
      omega
    have hcl : g.IsCluster c := hclu c (mem_of_getElem? hc)
    have hq := quiet_load v (hcl.readable ht)
    obtain ⟨c', hc'⟩ : ∃ c', cs[k + 1]? = some c' := by
      have hlt := div_lt_length hp
      exact ⟨_, List.getElem?_eq_getElem (by omega)⟩
    have hnext : entryAt g v.disk c = c' := by
      rw [hpa.next_getElem? hc, hc']
      rfl
    have ha' : add64 ((k + 1) * g.clusterSize) g.clusterSize = (k + 1 + 1) * g.clusterSize := by
      have hlt := (List.getElem?_eq_some_iff.mp hc').1
      have hle : (k + 1 + 1) * g.clusterSize ≤ cs.length * g.clusterSize :=
        mul_le_mul_right _ hlt
      rw [Nat.succ_mul (k + 1)] at hle ⊢
      exact add64_of_lt (by omega)
    rw [← hq.1.disk] at hpa
    obtain ⟨w, hq', hr⟩ := ih hpa hc' hgo (by omega) ha' (by omega)
    refine ⟨w, hq.trans hq', ?_⟩
    have hs : seekStep g p (v, c, k * g.clusterSize) =
        .inl (fatLoadFatEntry g v c, c', (k + 1) * g.clusterSize) := by
      rw [seekStep, ha, if_pos hgo, if_neg hcl.not_stop, fatGetFatEntry_eq, hnext]
    rw [returns_inl_iff hs]
    exact hr

theorem run_path {d e : ℕ} (posLimit : ℕ) (ht : g.TableFits)
    (hclu : ∀ x ∈ cs, g.IsCluster x) (hpa : Path (entryAt g v.disk) d cs e)
    (hen : FatEndOfFatChain e)
    (hro : cs.length * g.clusterSize < 2 ^ 64) (hc : cs[k]? = some c)
    (hp : p < (k + 1) * g.clusterSize) :
    ∃ w m, Quiet v w ∧ k ≤ m ∧ m < cs.length ∧
      (∀ i, i ≤ m - k → cs[k + i]? = some (c + i)) ∧
      Returns (runStep g posLimit) (v, c, (k + 1) * g.clusterSize - p)
        ((m + 1) * g.clusterSize - p, w) := by
  have hlt := (List.getElem?_eq_some_iff.mp hc).1
  obtain ⟨n, hn⟩ : ∃ n, cs.length - k = n := ⟨_, rfl⟩
  induction n generalizing v k c with
  | zero => omega
  | succ n ih =>
    have hcl : g.IsCluster c := hclu c (mem_of_getElem? hc)
    have hq := quiet_load v (hcl.readable ht)
    have ho : add64 c 1 = c + 1 := by
      have hmax := hcl.lt
      exact add64_of_lt (by omega)
    have hs : runStep g posLimit (v, c, (k + 1) * g.clusterSize - p) =
        if entryAt g v.disk c = c + 1 ∧ (k + 1) * g.clusterSize - p < posLimit then
          .inl (fatLoadFatEntry g v c, c + 1,
            add64 ((k + 1) * g.clusterSize - p) g.clusterSize)
        else .inr ((k + 1) * g.clusterSize - p, fatLoadFatEntry g v c) := by
      rw [runStep, fatGetFatEntry_eq, ho]
    by_cases hgo : entryAt g v.disk c = c + 1 ∧ (k + 1) * g.clusterSize - p < posLimit
    · rw [if_pos hgo] at hs
      -- the end of the chain is no cluster
      have hc' : cs[k + 1]? = some (c + 1) := by
        have hnext := hpa.next_getElem? hc
        rw [hgo.1] at hnext
        cases hk : cs[k + 1]? with
        | some c' =>
          rw [hk] at hnext
          rw [hnext]
          rfl
        | none =>
          rw [hk] at hnext
          have hmax := hcl.lt
          have he : c + 1 = e := hnext
          unfold FatEndOfFatChain fatClusterSpecial at hen
          omega
      have hlt' := (List.getElem?_eq_some_iff.mp hc').1
      have hle : (k + 1 + 1) * g.clusterSize ≤ cs.length * g.clusterSize :=
        mul_le_mul_right _ hlt'
      have ha : add64 ((k + 1) * g.clusterSize - p) g.clusterSize =
          (k + 1 + 1) * g.clusterSize - p := by
        rw [Nat.succ_mul (k + 1)] at hle ⊢
        rw [add64_of_lt (by omega)]
        omega
      rw [ha] at hs
      rw [← hq.1.disk] at hpa
      have hp' : p < (k + 1 + 1) * g.clusterSize := by
        rw [Nat.succ_mul]
        omega
      obtain ⟨w, m, hq', hkm, hm, hr, hre⟩ := ih hpa hc' hp' hlt' (by omega)
      refine ⟨w, m, hq.trans hq', by omega, hm, fun i hi => ?_, ?_⟩
      · cases i with
        | zero => exact hc
        | succ i =>
          rw [add_comm i 1, ← add_assoc, ← add_assoc]
          exact hr i (by omega)
      · rw [returns_inl_iff hs]
        exact hre
    · rw [if_neg hgo] at hs
      refine ⟨fatLoadFatEntry g v c, k, hq, le_refl k, hlt, fun i hi => ?_,
        returns_of_inr hs⟩
      obtain rfl : i = 0 := by omega
      exact hc

/-- What `FatOFilePosition` finds for the position `p`. -/
structure Sought (g : Layout) (o : OFile) (cs : List ℕ) (p : ℕ) (o' : OFile) : Prop where
  same : SameBody o o'
  seeks : o.isFixedRootDir = false → Seeks g o' cs
  pos : 0 < o'.posRem
  room : p + o'.posRem ≤ roomOf g o cs
  place : ∀ i < o'.posRem, placeOf g o cs (p + i) = o'.posDisk + i

theorem placeOf_run {m : ℕ} (hf : o.isFixedRootDir = false) (hmi : fatMinCluster ≤ c)
    (hk : p / g.clusterSize = k)
    (hr : ∀ i, i ≤ m - k → cs[k + i]? = some (c + i)) (hkm : k ≤ m)
    (hi : i < (m + 1) * g.clusterSize - p) :
    placeOf g o cs (p + i) = g.clusterPos c + (p - k * g.clusterSize) + i := by
  have hpos := g.clusterSize_pos
  obtain ⟨j, hj⟩ : ∃ j, (p + i) / g.clusterSize = j := ⟨_, rfl⟩
  have hkj : k ≤ j := by
    rw [← hk, ← hj]
    exact Nat.div_le_div_right (Nat.le_add_right p i)
  have hjm : j ≤ m := by
    have hlt : (p + i) / g.clusterSize < m + 1 := (div_lt_iff_lt_mul hpos).mpr (by omega)
    omega
  have hc : cs.getD j 0 = c + (j - k) := by
    have hg := hr (j - k) (by omega)
    rw [Nat.add_sub_cancel' hkj] at hg
    rw [getD_eq_getElem?_getD, hg]
    rfl
  have hs := div_add_mod (p + i) g.clusterSize
  have hs' := div_add_mod p g.clusterSize
  have hm : k * g.clusterSize + (j - k) * g.clusterSize = j * g.clusterSize := by
    rw [← add_mul, Nat.add_sub_cancel' hkj]
  rw [hj, mul_comm] at hs
  rw [hk, mul_comm] at hs'
  rw [placeOf_file hf, hj, hc, clusterPos_add hmi]
  omega

/-- **`FatOFilePosition`** finds the place of a position inside the file. -/
theorem fatOFilePosition_spec (ht : g.TableFits) (hd : g.DataFits)
    (h : Body g v.disk o cs) (hp : p < o.fileSize) (posLimit : ℕ) :
    ∃ w o', Yields (fun fuel => fatOFilePosition g fuel v o p posLimit) (.success, w, o') ∧
      Quiet v w ∧ Sought g o cs p o' := by
  have hroo := h.room_lt hd
  have hsi := h.size_le
  cases hfix : o.isFixedRootDir with
  | true =>
    obtain ⟨-, hcl⟩ := h.root hfix
    have hin := hd.inside
    have hlt := hd.volumeSize_lt
    have hro : add64 g.rootPos p = g.rootPos + p := add64_of_lt (by omega)
    have hre : sub64 o.fileSize p = o.fileSize - p := sub64_of_le (by omega) (by omega)
    refine ⟨v, { o with posDisk := g.rootPos + p, posRem := o.fileSize - p }, ⟨0, ?_⟩, .refl v,
      ⟨⟨rfl, rfl, rfl, rfl⟩, ?_, ?_, ?_, ?_⟩⟩
    · simp only [fatOFilePosition, hfix, if_true, hro, hre]
    · rw [hfix]
      exact fun h => absurd h.symm Bool.false_ne_true
    · exact Nat.sub_pos_of_lt hp
    · simp only [roomOf, hfix, if_true]
      omega
    · simp only [placeOf, hfix, if_true]
      omega
  | false =>
    obtain ⟨hfil, hse⟩ := h.file hfix
    rw [roomOf, hfix, if_neg Bool.false_ne_true] at hroo hsi
    have hp' : p < cs.length * g.clusterSize := by omega
    rcases hfil.chained with ⟨rfl, -⟩ | ⟨hne, e, hpa, he⟩
    · rw [length_nil] at hp'
      omega
    have hf : cs[0]? = some o.fileCluster := by
      cases cs with
      | nil => exact absurd rfl hne
      | cons x xs => rw [hpa.1]; rfl
    -- the search starts at current cluster or at the first one
    obtain ⟨k, c, hst, hc, hk⟩ : ∃ k c,
        (if p < o.position ∨ o.fileCluster = o.fileCurrentCluster then (o.fileCluster, 0)
          else (o.fileCurrentCluster, o.position)) = (c, k * g.clusterSize) ∧
        cs[k]? = some c ∧ k * g.clusterSize ≤ p := by
      by_cases hr : p < o.position ∨ o.fileCluster = o.fileCurrentCluster
      · refine ⟨0, o.fileCluster, ?_, hf, by omega⟩
        rw [if_pos hr, zero_mul]
      · rcases hse with hcu | ⟨k, hpos, hc⟩
        · exact absurd (.inr hcu.symm) hr
        · refine ⟨k, o.fileCurrentCluster, ?_, hc, ?_⟩
          · rw [if_neg hr, hpos]
          · rw [← hpos]
            exact Nat.le_of_not_lt fun hlt => hr (.inl hlt)
    obtain ⟨w, hq, hsee⟩ := seek_path ht hfil.clusters hpa hp' hroo hc hk
    have hcp := getD_div_mem hp'
    have hclu := hfil.clusters _ (mem_of_getElem? hcp)
    generalize hck : cs.getD (p / g.clusterSize) 0 = ck at *
    generalize hkk : p / g.clusterSize = kk at *
    have hl : kk * g.clusterSize ≤ p := by
      rw [← hkk]
      exact div_mul_le_self p g.clusterSize
    have hh : p < (kk + 1) * g.clusterSize :=
      (div_lt_iff_lt_mul g.clusterSize_pos).mp (by omega)
    rw [← hq.1.disk] at hpa
    obtain ⟨w', m, hq', hkm, hm, hrun, hru⟩ :=
      run_path posLimit ht hfil.clusters hpa he hroo hcp hh
    have hle : (m + 1) * g.clusterSize ≤ cs.length * g.clusterSize := mul_le_mul_right _ hm
    have hkl : (kk + 1) * g.clusterSize ≤ (m + 1) * g.clusterSize :=
      mul_le_mul_right _ (by omega)
    have hfi := clusterPos_fits hd hclu
    have hv := hd.volumeSize_lt
    have hpd : sub64 (add64 (add64 g.firstClusterPos
        ((ck - fatMinCluster) <<< g.clusterAlignment)) p) (kk * g.clusterSize) =
        g.clusterPos ck + (p - kk * g.clusterSize) := by
      rw [Nat.succ_mul] at hh
      rw [shiftLeft_eq, ← Layout.clusterSize]
      unfold Layout.clusterPos add64 sub64 at *
      omega
    have hre : sub64 (add64 (kk * g.clusterSize) g.clusterSize) p =
        (kk + 1) * g.clusterSize - p := by
      have hs : (kk + 1) * g.clusterSize = kk * g.clusterSize + g.clusterSize :=
        Nat.succ_mul ..
      rw [add64_of_lt (by omega), sub64_of_le (by omega) (by omega), hs]
    refine ⟨w', { o with
      posDisk := g.clusterPos ck + (p - kk * g.clusterSize)
      fileCurrentCluster := ck
      position := kk * g.clusterSize
      posRem := (m + 1) * g.clusterSize - p }, ?_, hq.trans hq',
      ⟨⟨rfl, rfl, rfl, rfl⟩, fun _ => .inr ⟨kk, rfl, hcp⟩, ?_, ?_, ?_⟩⟩
    · simp only [fatOFilePosition, hfix, false_eq_true, if_false, hst]
      refine Yields.bind (steady_loop _ _) hsee (steady_foundCluster ..) ?_
      simp only [foundCluster, if_neg hclu.not_outside, if_neg hclu.not_end, hpd, hre]
      refine Yields.bind (steady_loop _ _) hru (steady_const _) ⟨0, ?_⟩
      rw [← hfix]
      rfl
    · simp only
      omega
    · simp only [roomOf, hfix, false_eq_true, if_false]
      omega
    · intro i hi
      exact placeOf_run hfix hclu.1 hkk hrun hkm hi

/-! ## Accesses -/

theorem SameBody.refl (o : OFile) : SameBody o o := ⟨rfl, rfl, rfl, rfl⟩

theorem SameBody.trans {o'' : OFile} (h : SameBody o o') (h' : SameBody o' o'') :
    SameBody o o'' :=
  ⟨h'.fileSize.trans h.fileSize, h'.fileCluster.trans h.fileCluster,
    h'.fileLastCluster.trans h.fileLastCluster, h'.isFixedRootDir.trans h.isFixedRootDir⟩

theorem SameBody.placeOf_eq (h : SameBody o o') : placeOf g o' cs = placeOf g o cs := by
  funext p
  rw [placeOf, placeOf, h.isFixedRootDir]

theorem SameBody.roomOf_eq (h : SameBody o o') : roomOf g o' cs = roomOf g o cs := by
  rw [roomOf, roomOf, h.isFixedRootDir, h.fileSize]

theorem FileOf.of_same (h : FileOf g disk o cs) (hs : SameBody o o') : FileOf g disk o' cs := by
  refine ⟨?_, h.clusters, h.nodup, ?_, ?_⟩
  · rw [hs.fileCluster]
    exact h.chained
  · rw [hs.fileSize]
    exact h.length
  · rw [hs.fileLastCluster]
    exact h.last

theorem Body.of_same (h : Body g disk o cs) (hs : SameBody o o')
    (hse : o.isFixedRootDir = false → Seeks g o' cs) : Body g disk o' cs := by
  refine ⟨fun hf => ?_, fun hf => ?_⟩
  · rw [hs.fileSize]
    exact h.root (hs.isFixedRootDir.symm.trans hf)
  · have hf' := hs.isFixedRootDir.symm.trans hf
    exact ⟨(h.file hf').1.of_same hs, hse hf'⟩

/-- The fields of a volume other than its disk and the entry buffer. -/
structure SameInfo (v v' : Volume) : Prop where
  diskError : v'.diskError = v.diskError
  fatDirty : v'.fatDirty = v.fatDirty
  clusterCount : v'.clusterCount = v.clusterCount
  nextCluster : v'.nextCluster = v.nextCluster

theorem SameInfo.refl (v : Volume) : SameInfo v v := ⟨rfl, rfl, rfl, rfl⟩

theorem SameInfo.trans (h : SameInfo v w) (h' : SameInfo w v') : SameInfo v v' :=
  ⟨h'.diskError.trans h.diskError, h'.fatDirty.trans h.fatDirty,
    h'.clusterCount.trans h.clusterCount, h'.nextCluster.trans h.nextCluster⟩

theorem Quiet.sameInfo (h : Quiet v w) : SameInfo v w :=
  ⟨h.2, h.1.fatDirty, h.1.clusterCount, h.1.nextCluster⟩

/-- What an access keeps. -/
structure Carried (g : Layout) (cs : List ℕ) (v : Volume) (file : OpenFile) (v' : Volume)
    (file' : OpenFile) : Prop where
  body : Body g v'.disk file'.toOFile cs
  same : SameBody file.toOFile file'.toOFile
  error : file'.error = file.error
  info : SameInfo v v'

variable {s s' : Access} {ioMode : DataMode}

/-- One round of `FatAccessOFile` finds a run, and accesses what the run and the buffer allow. -/
theorem accessStep_spec (hta : g.TableFits) (hda : g.DataFits)
    (h : Body g s.volume.disk s.file.toOFile cs) (hpos : 0 < s.bufferSize)
    (hin : s.position + s.bufferSize ≤ s.file.fileSize) (ioMode : DataMode) :
    ∃ w o' len, Quiet s.volume w ∧ Sought g s.file.toOFile cs s.position o' ∧ 0 < len ∧
      len ≤ s.bufferSize ∧ len ≤ o'.posRem ∧ add64 o'.posDisk len ≤ g.volumeSize ∧
      ∀ v₁ buffer, dataIo g w ioMode o'.posDisk len s.userBuffer = (.success, v₁, buffer) →
        ∃ file, SameBody o' file.toOFile ∧ (o'.isFixedRootDir = false → Seeks g o' cs →
            Seeks g file.toOFile cs) ∧ file.error = s.file.error ∧
          Yields (fun fuel => accessStep g ioMode fuel s)
            (.inl ⟨v₁, file, s.position + len, s.bufferSize - len, buffer⟩) := by
  obtain ⟨w, o', hy, hq, hso⟩ :=
    fatOFilePosition_spec hta hda h (p := s.position) (by omega) s.bufferSize
  have hre := hso.pos
  have hr := h.room_lt hda
  have hsi := h.size_le
  obtain ⟨len, hle⟩ : ∃ len,
      (if o'.posRem < s.bufferSize then o'.posRem else s.bufferSize) = len := ⟨_, rfl⟩
  have hlen_pos : 0 < len ∧ len ≤ s.bufferSize ∧ len ≤ o'.posRem := by
    split at hle <;> omega
  obtain ⟨hlen0, hlen, hl⟩ := hlen_pos
  have ha : add64 s.position len = s.position + len := add64_of_lt (by omega)
  have hlast : o'.posDisk + len ≤ g.volumeSize := by
    -- the last byte is inside the volume
    have hp := hso.place (len - 1) (by omega)
    have hf := (h.placeOf_fits hda (p := s.position + (len - 1)) (by
      omega)).2
    omega
  have hv := hda.volumeSize_lt
  have hd : add64 o'.posDisk len = o'.posDisk + len := add64_of_lt (by omega)
  refine ⟨w, o', len, hq, hso, hlen0, hlen, hl, by omega, fun v₁ buffer hio => ?_⟩
  have hz : s.bufferSize ≠ 0 := by omega
  have hs : Yields (fun fuel => accessStep g ioMode fuel s) (transfer g ioMode s w o') := by
    simp only [accessStep, if_neg hz]
    exact hy.map _
  have ht : transfer g ioMode s w o' = .inl ⟨v₁,
      (if ioMode = .writeData then
        { s.file with toOFile := { o' with dirty := true }, archive := true }
      else { s.file with toOFile := o' }), s.position + len, s.bufferSize - len, buffer⟩ := by
    simp only [transfer, hle, hio, EfiStatus.isError_success, false_eq_true, if_false, ha]
  rw [ht] at hs
  refine ⟨_, ?_, ?_, ?_, hs⟩
  · split <;> exact ⟨rfl, rfl, rfl, rfl⟩
  · intro _ hse
    split <;> exact hse
  · split <;> rfl

theorem Carried.trans {file file' file'' : OpenFile} (h : Carried g cs v file w file')
    (h' : Carried g cs w file' v' file'') : Carried g cs v file v' file'' :=
  ⟨h'.body, h.same.trans h'.same, h'.error.trans h.error, h.info.trans h'.info⟩

theorem Sought.carried {file : OpenFile} {v₁ : Volume}
    (hs : Sought g s.file.toOFile cs s.position o')
    (h : Body g s.volume.disk s.file.toOFile cs)
    (ht : ∀ a, g.InTable a → v₁.disk a = s.volume.disk a) (hsa : SameBody o' file.toOFile)
    (hse : o'.isFixedRootDir = false → Seeks g o' cs → Seeks g file.toOFile cs)
    (he : file.error = s.file.error) (hin : SameInfo s.volume v₁) :
    Carried g cs s.volume s.file v₁ file := by
  have hb := hs.same.trans hsa
  refine ⟨(h.congr fun x _ => entryAt_congr ht x).of_same hb fun hf => ?_, hb, he,
    hin⟩
  exact hse (hs.same.isFixedRootDir.trans hf) (hs.seeks hf)

/-- **The loop of `FatAccessOFile`, writing.** -/
theorem access_write (ht : g.TableFits) (hda : g.DataFits)
    (h : Body g s.volume.disk s.file.toOFile cs)
    (hin : s.position + s.bufferSize ≤ s.file.fileSize)
    (hb : s.bufferSize ≤ s.userBuffer.length) :
    ∃ s', Yields (fun fuel => nestedLoop (accessStep g .writeData) fuel s) (.success, s') ∧
      s'.bufferSize = 0 ∧ Carried g cs s.volume s.file s'.volume s'.file ∧
      Scattered (placeOf g s.file.toOFile cs) s.position (s.userBuffer.take s.bufferSize)
        s.volume.disk s'.volume.disk := by
  obtain ⟨n, hn⟩ : ∃ n, s.bufferSize = n := ⟨_, rfl⟩
  induction n using Nat.strong_induction_on generalizing s with
  | _ n ih =>
    by_cases hz : s.bufferSize = 0
    · refine ⟨s, yields_nestedLoop_inr ⟨0, ?_⟩ (steady_accessStep g .writeData), hz,
        ⟨h, .refl _, rfl, .refl _⟩, ?_⟩
      · simp only [accessStep, if_pos hz]
      · rw [hz]
        exact scattered_nil _ _ _
    · obtain ⟨w, o', len, hq, hso, hlen0, hlen, hle, hv, hr⟩ :=
        accessStep_spec ht hda h (pos_of_ne_zero hz) hin .writeData
      have hro := hso.room
      obtain ⟨file, hsa, hse, he, hst⟩ :=
        hr { w with disk := storeBytes w.disk o'.posDisk (s.userBuffer.take len) }
          (s.userBuffer.drop len) (by rw [dataIo, if_pos hv])
      have hta : (s.userBuffer.take len).length = len := by
        rw [length_take]
        omega
      have hp : Scattered (placeOf g s.file.toOFile cs) s.position (s.userBuffer.take len)
          s.volume.disk (storeBytes w.disk o'.posDisk (s.userBuffer.take len)) := by
        rw [hq.1.disk]
        exact scattered_storeBytes _ fun i hi => hso.place i (by omega)
      have hu : ∀ a, g.InTable a →
          storeBytes w.disk o'.posDisk (s.userBuffer.take len) a = s.volume.disk a := by
        intro a ha
        refine hp.miss a fun i hi heq => ?_
        rw [← heq] at ha
        exact (h.placeOf_fits hda (by omega)).1 ha
      have hc : Carried g cs s.volume s.file
          { w with disk := storeBytes w.disk o'.posDisk (s.userBuffer.take len) } file :=
        hso.carried h hu hsa hse he
          (hq.sameInfo.trans ⟨rfl, rfl, rfl, rfl⟩)
      have hsi : file.fileSize = s.file.fileSize := hc.same.fileSize
      have hl : s.bufferSize - len ≤ (s.userBuffer.drop len).length := by
        rw [length_drop]
        omega
      obtain ⟨s', hre, hd, hkept, hs⟩ := ih (s.bufferSize - len) (by omega)
        (s := ⟨_, file, s.position + len, s.bufferSize - len, s.userBuffer.drop len⟩)
        hc.body (by simp only; omega) hl rfl
      refine ⟨s', yields_nestedLoop_inl hst (steady_accessStep g .writeData) hre, hd,
        hc.trans hkept, ?_⟩
      simp only [hc.same.placeOf_eq] at hs
      have hw : s.userBuffer.take s.bufferSize =
          s.userBuffer.take len ++ (s.userBuffer.drop len).take (s.bufferSize - len) := by
        rw [← take_add, Nat.add_sub_cancel' hlen]
      rw [hw]
      refine hp.append ?_ ?_
      · rwa [hta]
      · intro i hi j hj heq
        rw [length_take] at hj
        have hsi := h.size_le
        have := h.placeOf_inj (by omega) (by omega) heq
        omega

/-- **The loop of `FatAccessOFile`, reading.** -/
theorem access_read (ht : g.TableFits) (hda : g.DataFits)
    (h : Body g s.volume.disk s.file.toOFile cs)
    (hin : s.position + s.bufferSize ≤ s.file.fileSize) :
    ∃ s', Yields (fun fuel => nestedLoop (accessStep g .readData) fuel s) (.success, s') ∧
      s'.bufferSize = 0 ∧ Carried g cs s.volume s.file s'.volume s'.file ∧
      s'.volume.disk = s.volume.disk ∧
      s'.userBuffer = s.userBuffer ++
        bytesAt (fun q => s.volume.disk (placeOf g s.file.toOFile cs q)) s.position
          s.bufferSize := by
  obtain ⟨n, hn⟩ : ∃ n, s.bufferSize = n := ⟨_, rfl⟩
  induction n using Nat.strong_induction_on generalizing s with
  | _ n ih =>
    by_cases hz : s.bufferSize = 0
    · refine ⟨s, yields_nestedLoop_inr ⟨0, ?_⟩ (steady_accessStep g .readData), hz,
        ⟨h, .refl _, rfl, .refl _⟩, rfl, ?_⟩
      · simp only [accessStep, if_pos hz]
      · rw [hz, bytesAt, append_nil]
    · obtain ⟨w, o', len, hq, hso, hlen0, hle, hl, hv, hro⟩ :=
        accessStep_spec ht hda h (pos_of_ne_zero hz) hin .readData
      obtain ⟨file, hsa, hse, he, hs⟩ :=
        hro w (s.userBuffer ++ bytesAt w.disk o'.posDisk len) (by rw [dataIo, if_pos hv])
      have hc : Carried g cs s.volume s.file w file :=
        hso.carried h (fun a _ => congrFun hq.1.disk a) hsa hse he
          hq.sameInfo
      have hsi : file.fileSize = s.file.fileSize := hc.same.fileSize
      obtain ⟨s', hre, hd, hkept, hdi, hr⟩ := ih (s.bufferSize - len) (by omega)
        (s := ⟨w, file, s.position + len, s.bufferSize - len,
          s.userBuffer ++ bytesAt w.disk o'.posDisk len⟩)
        hc.body (by simp only; omega) rfl
      refine ⟨s', yields_nestedLoop_inl hs (steady_accessStep g .readData) hre, hd,
        hc.trans hkept, hdi.trans hq.1.disk, ?_⟩
      have hp : bytesAt w.disk o'.posDisk len =
          bytesAt (fun q => s.volume.disk (placeOf g s.file.toOFile cs q)) s.position len := by
        refine bytesAt_congr fun i hi => ?_
        rw [hso.place i (by omega), hq.1.disk]
      have hw : s.bufferSize = len + (s.bufferSize - len) := by omega
      simp only [hc.same.placeOf_eq, hq.1.disk] at hr
      rw [hr, hw, bytesAt_add, ← hp, ← append_assoc, ← hw, hq.1.disk]

variable {file : OpenFile} {data buffer : List UInt8}

/-- **`FatAccessOFile`, writing** inside the file. -/
theorem fatAccessOFile_write (ht : g.TableFits) (hda : g.DataFits)
    (h : Body g v.disk file.toOFile cs) (hin : p + n ≤ file.fileSize)
    (hb : n ≤ buffer.length) :
    ∃ rest v' file', Yields (fun fuel => fatAccessOFile g fuel v file .writeData p n buffer)
        (.success, n, rest, v', file') ∧
      Carried g cs v file v' file' ∧
      Scattered (placeOf g file.toOFile cs) p (buffer.take n) v.disk v'.disk := by
  obtain ⟨s', hy, hd, hc, hs⟩ :=
    access_write (s := ⟨v, file, p, n, buffer⟩) ht hda h hin hb
  refine ⟨s'.userBuffer, s'.volume, s'.file, ?_, hc, hs⟩
  have hr := hy.map fun r =>
    (r.1, n - r.2.bufferSize, r.2.userBuffer, r.2.volume, r.2.file)
  simp only [hd] at hr
  exact hr

/-- **`FatAccessOFile`, reading** inside the file. -/
theorem fatAccessOFile_read (ht : g.TableFits) (hda : g.DataFits)
    (h : Body g v.disk file.toOFile cs) (hin : p + n ≤ file.fileSize) (buffer : List UInt8) :
    ∃ v' file', Yields (fun fuel => fatAccessOFile g fuel v file .readData p n buffer)
        (.success, n, buffer ++ bytesAt (fun q => v.disk (placeOf g file.toOFile cs q)) p n, v',
          file') ∧
      Carried g cs v file v' file' ∧ v'.disk = v.disk := by
  obtain ⟨s', hy, hd, hc, hdi, hre⟩ :=
    access_read (s := ⟨v, file, p, n, buffer⟩) ht hda h hin
  refine ⟨s'.volume, s'.file, ?_, hc, hdi⟩
  have hr := hy.map fun r =>
    (r.1, n - r.2.bufferSize, r.2.userBuffer, r.2.volume, r.2.file)
  simp only [hd, hre] at hr
  exact hr

/-- **The loop of `FatWriteZeroPool`** writes zeros up to the end of the file. -/
theorem zeroLoop_spec {bufferSize : ℕ} (hta : g.TableFits) (hd : g.DataFits)
    (h : Body g v.disk file.toOFile cs) (hin : p + n = file.fileSize)
    (hb : 0 < bufferSize ∨ n = 0) :
    ∃ v' file', Yields (fun fuel => nestedLoop (zeroStep g bufferSize) fuel (v, file, p, n))
        (.success, v', file') ∧
      Carried g cs v file v' file' ∧
      Scattered (placeOf g file.toOFile cs) p (List.replicate n 0) v.disk v'.disk := by
  have hro := h.room_lt hd
  have hs := h.size_le
  induction n using Nat.strong_induction_on generalizing v file p with
  | _ n ih =>
    obtain ⟨k, hk⟩ : ∃ k, (if bufferSize < n then bufferSize else n) = k := ⟨_, rfl⟩
    have hkb : k ≤ n ∧ k ≤ bufferSize ∧ (0 < n → 0 < k) := by
      split at hk <;> omega
    have hp : p + k ≤ file.fileSize := by omega
    have hz : k ≤ (List.replicate bufferSize (0 : UInt8)).length := by
      rw [length_replicate]
      omega
    obtain ⟨rest, w, file₁, hy, hc, hsc⟩ :=
      fatAccessOFile_write hta hd h hp hz
    have ht : (List.replicate bufferSize (0 : UInt8)).take k = List.replicate k 0 := by
      rw [take_replicate, min_eq_left hkb.2.1]
    rw [ht] at hsc
    have ha : add64 p k = p + k := add64_of_lt (by omega)
    have hst : Yields (fun fuel => zeroStep g bufferSize fuel (v, file, p, n))
        (if 0 < n - k then .inl (w, file₁, p + k, n - k) else .inr (.success, w, file₁)) := by
      have hm := hy.map fun r =>
        (if r.1.isError then .inr (r.1, r.2.2.2)
          else if 0 < n - k then .inl (r.2.2.2.1, r.2.2.2.2, add64 p r.2.1, n - k)
          else .inr (r.1, r.2.2.2) : (Volume × OpenFile × ℕ × ℕ) ⊕ EfiStatus × Volume × OpenFile)
      simp only [EfiStatus.isError_success, false_eq_true, if_false, ha] at hm
      simp only [zeroStep, hk]
      exact hm
    by_cases hmo : 0 < n - k
    · rw [if_pos hmo] at hst
      have hsa := hc.same.fileSize
      obtain ⟨v', file', hr, hc', hs'⟩ := ih (n - k) (by omega) (p := p + k)
        hc.body (by omega) (.inl (by omega))
        (by rw [hc.same.roomOf_eq]; exact hro)
        (by rw [hc.same.roomOf_eq]; omega)
      rw [hc.same.placeOf_eq] at hs'
      refine ⟨v', file', yields_nestedLoop_inl hst (steady_zeroStep g bufferSize) hr,
        hc.trans hc', ?_⟩
      have hw : List.replicate n (0 : UInt8) =
          List.replicate k 0 ++ List.replicate (n - k) 0 := by
        rw [replicate_append_replicate, Nat.add_sub_cancel' hkb.1]
      rw [hw]
      refine hsc.append ?_ fun i hi j hj heq => ?_
      · rwa [length_replicate]
      · rw [length_replicate] at *
        have := h.placeOf_inj (by omega) (by omega) heq
        omega
    · rw [if_neg hmo] at hst
      obtain rfl : k = n := by omega
      exact ⟨w, file₁, yields_nestedLoop_inr hst (steady_zeroStep g bufferSize), hc,
        hsc⟩

/-- **`FatWriteZeroPool`**, when its buffer can be allocated. -/
theorem fatWriteZeroPool_spec (ht : g.TableFits) (hd : g.DataFits)
    (h : Body g v.disk file.toOFile cs) (hin : p ≤ file.fileSize) :
    ∃ v' file', Yields (fun fuel => fatWriteZeroPool g fuel true v file p)
        (.success, v', file') ∧
      Carried g cs v file v' file' ∧
      Scattered (placeOf g file.toOFile cs) p (List.replicate (file.fileSize - p) 0) v.disk
        v'.disk := by
  have hr := h.room_lt hd
  have hsi := h.size_le
  have hs : sub64 file.fileSize p = file.fileSize - p := sub64_of_le (by omega) hin
  simp only [fatWriteZeroPool, if_true, hs]
  refine zeroLoop_spec ht hd h (by omega) ?_
  unfold fatMaxAllocateSize
  split <;> omega

end Edk2.Fat
