import Edk2.Fat.Table
import Edk2.Lib.Loop

/-!
# Cluster chains and free clusters

The functions of `FatPkg/EnhancedFatDxe/FileSpace.c` that allocate clusters, free them and follow
the chain of a file: each is a loop over the table, some bounded by a size and some by the chain
itself. A loop that may go on for ever is evaluated for a number of rounds, its `fuel`.
-/

namespace Edk2.Fat

/-- The fields of `FAT_OFILE` that the space functions use. -/
structure OFile where
  fileSize : ℕ
  fileCluster : ℕ
  fileCurrentCluster : ℕ
  fileLastCluster : ℕ
  dirty : Bool
  isFixedRootDir : Bool
  position : ℕ
  posDisk : ℕ
  posRem : ℕ
  deriving DecidableEq

/-- `Cluster == FAT_CLUSTER_FREE || Cluster >= FAT_CLUSTER_SPECIAL`: what no cluster of a chain is,
the end of a chain included. -/
def ChainStop (cluster : ℕ) : Prop := cluster = fatClusterFree ∨ fatClusterSpecial ≤ cluster

instance (cluster : ℕ) : Decidable (ChainStop cluster) := inferInstanceAs (Decidable (_ ∨ _))

variable (g : Layout)

/-! ## Free clusters -/

/-- One round of `FatFreeClusters`. -/
def freeStep : Volume × ℕ → Volume × ℕ ⊕ EfiStatus × Volume
  | (v, cluster) =>
    if FatEndOfFatChain cluster then .inr (.success, v)
    else if ChainStop cluster then .inr (.volumeCorrupted, v)
    else
      let (next, v) := fatGetFatEntry g v cluster
      .inl ((fatSetFatEntry g v cluster fatClusterFree).2, next)

def fatFreeClusters (fuel : ℕ) (v : Volume) (cluster : ℕ) : Option (EfiStatus × Volume) :=
  loop (freeStep g) fuel (v, cluster)

/-- The loop of `FatComputeFreeInfo`, from `Index` down. -/
def computeLoop : ℕ → Volume → Volume
  | 0, v => v
  | index + 1, v =>
    if index + 1 < fatMinCluster then v
    else if v.diskError then v
    else
      let (entry, v) := fatGetFatEntry g v (index + 1)
      computeLoop index <|
        if entry = fatClusterFree then
          { v with clusterCount := add32 v.clusterCount 1, nextCluster := (index + 1) % 2 ^ 32 }
        else v

def fatComputeFreeInfo (v : Volume) : Volume :=
  if v.freeInfoValid then v
  else computeLoop g (g.maxCluster + 1) { v with freeInfoValid := true, clusterCount := 0 }

/-- `0 < (INT32) n`. -/
def PositiveInt32 (n : ℕ) : Prop := 0 < n ∧ n < 2 ^ 31

instance (n : ℕ) : Decidable (PositiveInt32 n) := inferInstanceAs (Decidable (_ ∧ _))

/-- `FatAllocateCluster` at the next cluster: it is free, or the one behind it is next. -/
def tryNext (v : Volume) : Volume ⊕ ℕ × Volume :=
  let (entry, v) := fatGetFatEntry g v v.nextCluster
  let following := { v with nextCluster := add32 v.nextCluster 1 }
  if entry = fatClusterFree then .inr (v.nextCluster, following) else .inl following

/-- One round of `FatAllocateCluster`. -/
def allocateStep (v : Volume) : Volume ⊕ ℕ × Volume :=
  if g.maxCluster + 1 < v.nextCluster then
    let v := fatComputeFreeInfo g <|
      if v.freeInfoValid ∧ PositiveInt32 v.clusterCount then { v with freeInfoValid := false }
      else v
    if g.maxCluster + 1 < v.nextCluster then .inr (fatClusterLast, v) else tryNext g v
  else tryNext g v

def fatAllocateCluster (fuel : ℕ) (v : Volume) : Option (ℕ × Volume) :=
  if v.diskError then some (fatClusterLast, v) else loop (allocateStep g) fuel v

def fatSizeToClusters (size : ℕ) : ℕ :=
  size >>> g.clusterAlignment + if 0 < size &&& (g.clusterSize - 1) then 1 else 0

/-! ## The end of a file -/

/-- The loop of `FatShrinkEof` over the clusters that stay: the last of them and the cluster behind
it, unless the chain is corrupt. -/
def shrinkWalk : ℕ → Volume → ℕ → ℕ → Option (ℕ × ℕ) × Volume
  | 0, v, cluster, last => (some (last, cluster), v)
  | n + 1, v, cluster, _ =>
    if ChainStop cluster then (none, v)
    else
      let (next, v) := fatGetFatEntry g v cluster
      shrinkWalk n v next cluster

/-- The end of `FatShrinkEof`: the fields of the file, and the rest of the chain is freed. -/
def finishShrink (fuel : ℕ) (v : Volume) (o : OFile) (last cluster : ℕ) :
    Option (EfiStatus × Volume × OFile) := do
  let o := { o with
    fileCurrentCluster := o.fileCluster
    fileLastCluster := last
    dirty := true }
  let (status, v) ← fatFreeClusters g fuel v cluster
  return (status, v, o)

def fatShrinkEof (fuel : ℕ) (v : Volume) (o : OFile) : Option (EfiStatus × Volume × OFile) :=
  let newSize := fatSizeToClusters g o.fileSize
  if newSize ≠ 0 then
    match shrinkWalk g newSize v o.fileCluster fatClusterFree with
    | (none, v) => some (.volumeCorrupted, v, o)
    | (some (last, cluster), v) =>
      finishShrink g fuel (fatSetFatEntry g v last fatClusterLast).2 o last cluster
  else if o.fileCluster = fatClusterFree then some (.success, v, o)
  else finishShrink g fuel v { o with fileCluster := fatClusterFree } fatClusterFree o.fileCluster

/-- One round of the walk of `FatGrowEof` to the last cluster of the file, with the number of
clusters so far. It ends with that number, unless the chain is corrupt. -/
def walkStep : Volume × OFile × ℕ × ℕ → (Volume × OFile × ℕ × ℕ) ⊕ Option ℕ × Volume × OFile
  | (v, o, cluster, count) =>
    if FatEndOfFatChain cluster then .inr (some count, v, o)
    else if cluster < fatMinCluster ∨ g.maxCluster + 1 < cluster then .inr (none, v, o)
    else
      let (next, v) := fatGetFatEntry g v cluster
      .inl (v, { o with fileLastCluster := cluster }, next, count + 1)

/-- The allocation of one cluster behind `last`. -/
def appendCluster (v : Volume) (o : OFile) (last new : ℕ) : Volume × OFile :=
  let (v, o) :=
    if last ≠ 0 then ((fatSetFatEntry g v last new).2, o)
    else (v, { o with fileCluster := new, fileCurrentCluster := new })
  ((fatSetFatEntry g v new fatClusterLast).2, { o with fileLastCluster := new })

/-- The allocation loop of `FatGrowEof`, with the number of clusters still to be allocated. -/
def growLoop (fuel : ℕ) : ℕ → Volume → OFile → ℕ → Option (EfiStatus × Volume × OFile)
  | 0, v, o, _ => some (.success, v, o)
  | n + 1, v, o, last => do
    let (new, v) ← fatAllocateCluster g fuel v
    if FatEndOfFatChain new then
      if last ≠ fatClusterFree then
        return (.volumeFull, (fatSetFatEntry g v last fatClusterLast).2,
          { o with fileLastCluster := last })
      else return (.volumeFull, v, o)
    else if new < fatMinCluster ∨ g.maxCluster + 1 < new then return (.volumeCorrupted, v, o)
    else
      let (v, o) := appendCluster g v o last new
      growLoop fuel n v o new

/-- The label `Done` of `FatGrowEof`. -/
def growDone (fuel : ℕ) (status : EfiStatus) (v : Volume) (o : OFile) :
    Option (EfiStatus × Volume × OFile) := do
  let (_, v, o) ← fatShrinkEof g fuel v o
  return (status, v, o)

/-- The growth of the file, once its last cluster is known. -/
def growFrom (fuel n : ℕ) (v : Volume) (o : OFile) (newSizeInBytes : ℕ) :
    Option (EfiStatus × Volume × OFile) := do
  let (status, v, o) ← growLoop g fuel n v o o.fileLastCluster
  if status = .success then
    return (.success, v, { o with fileSize := newSizeInBytes, dirty := true })
  else growDone g fuel status v o

def fatGrowEof (fuel : ℕ) (v : Volume) (o : OFile) (newSizeInBytes : ℕ) :
    Option (EfiStatus × Volume × OFile) :=
  if 0xFFFFFFFF < newSizeInBytes then some (.unsupported, v, o)
  else
    let curSize := fatSizeToClusters g o.fileSize
    let newSize := fatSizeToClusters g newSizeInBytes
    if curSize < newSize then
      if o.fileCluster ≠ 0 ∧ o.fileLastCluster = 0 then do
        let (count, v, o) ← loop (walkStep g) fuel (v, o, o.fileCluster, 0)
        if count = some curSize then growFrom g fuel (newSize - curSize) v o newSizeInBytes
        else growDone g fuel .volumeCorrupted v o
      else growFrom g fuel (newSize - curSize) v o newSizeInBytes
    else some (.success, v, { o with fileSize := newSizeInBytes, dirty := true })

def fatTruncateOFile (fuel : ℕ) (v : Volume) (o : OFile) (truncatedSize : ℕ) :
    Option (EfiStatus × Volume × OFile) :=
  fatShrinkEof g fuel v { o with fileSize := truncatedSize }

/-! ## Positions -/

/-- One round of the search of `FatOFilePosition` for the cluster of a position. -/
def seekStep (position : ℕ) : Volume × ℕ × ℕ → (Volume × ℕ × ℕ) ⊕ Option (ℕ × ℕ) × Volume
  | (v, cluster, startPos) =>
    if add64 startPos g.clusterSize ≤ position then
      if ChainStop cluster then .inr (none, v)
      else
        let (next, v) := fatGetFatEntry g v cluster
        .inl (v, next, add64 startPos g.clusterSize)
    else .inr (some (cluster, startPos), v)

/-- One round of the count of consecutive clusters. -/
def runStep (posLimit : ℕ) : Volume × ℕ × ℕ → (Volume × ℕ × ℕ) ⊕ ℕ × Volume
  | (v, cluster, run) =>
    let (next, v) := fatGetFatEntry g v cluster
    if next = add64 cluster 1 ∧ run < posLimit then
      .inl (v, add64 cluster 1, add64 run g.clusterSize)
    else .inr (run, v)

/-- The position on the disk, once the cluster is found. -/
def foundCluster (fuel : ℕ) (v : Volume) (o : OFile) (position posLimit cluster startPos : ℕ) :
    Option (EfiStatus × Volume × OFile) :=
  if cluster < fatMinCluster ∨ g.maxCluster + 1 < cluster then some (.volumeCorrupted, v, o)
  else do
    let posDisk := sub64 (add64 (add64 g.firstClusterPos
      ((cluster - fatMinCluster) <<< g.clusterAlignment)) position) startPos
    let o := { o with posDisk, fileCurrentCluster := cluster, position := startPos }
    let run := sub64 (add64 startPos g.clusterSize) position
    let (run, v) ←
      if FatEndOfFatChain cluster then some (run, v)
      else loop (runStep g posLimit) fuel (v, cluster, run)
    return (.success, v, { o with posRem := run })

def fatOFilePosition (fuel : ℕ) (v : Volume) (o : OFile) (position posLimit : ℕ) :
    Option (EfiStatus × Volume × OFile) :=
  if o.isFixedRootDir then
    some (.success, v, { o with
      posDisk := add64 g.rootPos position, posRem := sub64 o.fileSize position })
  else do
    let start :=
      if position < o.position ∨ o.fileCluster = o.fileCurrentCluster then (o.fileCluster, 0)
      else (o.fileCurrentCluster, o.position)
    match ← loop (seekStep g position) fuel (v, start) with
    | (none, v) => return (.volumeCorrupted, v, o)
    | (some (cluster, startPos), v) => foundCluster g fuel v o position posLimit cluster startPos

/-- One round of `FatPhysicalDirSize`. -/
def dirSizeStep : Volume × ℕ × ℕ → (Volume × ℕ × ℕ) ⊕ ℕ × Volume
  | (v, cluster, size) =>
    if FatEndOfFatChain cluster then .inr (size, v)
    else if ChainStop cluster then .inr (0, v)
    else
      let (next, v) := fatGetFatEntry g v cluster
      .inl (v, next, add64 size g.clusterSize)

def fatPhysicalDirSize (fuel : ℕ) (v : Volume) (cluster : ℕ) : Option (ℕ × Volume) :=
  if cluster ≠ 0 then loop (dirSizeStep g) fuel (v, cluster, 0) else some (0, v)

/-! ## More rounds -/

section Steady

variable (v : Volume) (o : OFile)

theorem steady_fatFreeClusters (cluster : ℕ) :
    Steady fun fuel => fatFreeClusters g fuel v cluster :=
  steady_loop _ _

theorem steady_fatAllocateCluster : Steady fun fuel => fatAllocateCluster g fuel v := by
  simp only [fatAllocateCluster]
  split
  · exact steady_const _
  · exact steady_loop _ _

theorem steady_finishShrink (last cluster : ℕ) :
    Steady fun fuel => finishShrink g fuel v o last cluster :=
  (steady_fatFreeClusters g v cluster).bind fun _ => steady_const _

theorem steady_fatShrinkEof : Steady fun fuel => fatShrinkEof g fuel v o := by
  simp only [fatShrinkEof]
  split
  · split
    · exact steady_const _
    · exact steady_finishShrink ..
  · split
    · exact steady_const _
    · exact steady_finishShrink ..

theorem steady_growLoop (n last : ℕ) : Steady fun fuel => growLoop g fuel n v o last := by
  induction n generalizing v o last with
  | zero => exact steady_const _
  | succ n ih =>
    refine (steady_fatAllocateCluster g v).bind fun x => ?_
    simp only
    split
    · split <;> exact steady_const _
    · split
      · exact steady_const _
      · exact ih _ _ _

theorem steady_growDone (status : EfiStatus) : Steady fun fuel => growDone g fuel status v o :=
  (steady_fatShrinkEof g v o).bind fun _ => steady_const _

theorem steady_growFrom (n newSizeInBytes : ℕ) :
    Steady fun fuel => growFrom g fuel n v o newSizeInBytes := by
  refine (steady_growLoop g v o n o.fileLastCluster).bind fun x => ?_
  simp only
  split
  · exact steady_const _
  · exact steady_growDone ..

theorem steady_fatGrowEof (newSizeInBytes : ℕ) :
    Steady fun fuel => fatGrowEof g fuel v o newSizeInBytes := by
  simp only [fatGrowEof]
  split
  · exact steady_const _
  · split
    · split
      · refine (steady_loop (walkStep g) _).bind fun x => ?_
        obtain ⟨count, v, o⟩ := x
        split
        · exact steady_growFrom ..
        · exact steady_growDone ..
      · exact steady_growFrom ..
    · exact steady_const _

theorem steady_foundCluster (position posLimit cluster startPos : ℕ) :
    Steady fun fuel => foundCluster g fuel v o position posLimit cluster startPos := by
  simp only [foundCluster]
  split
  · exact steady_const _
  · split
    · exact (steady_const _).bind fun _ => steady_const _
    · exact (steady_loop _ _).bind fun _ => steady_const _

end Steady

end Edk2.Fat
