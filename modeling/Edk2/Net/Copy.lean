import Edk2.Net.Buffer

/-!
# Copying and joining net buffers

`NetbufCopy` and `NetbufQueCopy` copy a slice of a buffer, or of a queue of buffers, to memory.
`NetbufFromExt` builds a buffer over given fragments, with a new first block for the head space and
for a header that is to be in one piece; `NetbufFromBufList` does so over the blocks of a list of
buffers.

## Main results

* `netbufCopy_spec`, `netbufQueCopy_spec`: what is written is the part of the slice that exists
* `netbufFromBufList_spec`: the joined buffer holds the contents of the list
* `netbuf_algebra`: the operations on contents
-/

namespace Edk2.Net

open List Option

/-! ## Copying from a buffer -/

/-- The search of `NetbufCopy` for the block that contains `Offset`: the block, those behind it, and
`Cur`. -/
def seekCopy (offset : ℕ) : List NetBlockOp → ℕ → Option (NetBlockOp × List NetBlockOp × ℕ)
  | [], _ => none
  | b :: bs, cur =>
    if b.size = 0 then seekCopy offset bs cur
    else if offset < add32 cur b.size then some (b, bs, cur)
    else seekCopy offset bs (add32 cur b.size)

/-- The loop of `NetbufCopy` over the blocks behind the first: `Copied` and the memory. -/
def copyRest (m : Memory) (dest len copied : ℕ) : List NetBlockOp → ℕ × Memory
  | [] => (copied, m)
  | b :: bs =>
    if len > b.size then
      copyRest (copyMem m dest m b.head b.size) (dest + b.size) (len - b.size) (copied + b.size) bs
    else (copied + len, copyMem m dest m b.head len)

def netbufCopy (m : Memory) (nbuf : NetBuf) (offset len dest : ℕ) : Option (ℕ × Memory) :=
  if len = 0 ∨ nbuf.totalSize ≤ offset then some (0, m)
  else
    let len := if nbuf.totalSize - offset < len then nbuf.totalSize - offset else len
    match seekCopy offset nbuf.blockOp 0 with
    | none => none
    | some (b, bs, cur) =>
      let skip := sub32 offset cur
      let left := sub32 b.size skip
      if len ≤ left then some (len, copyMem m dest m (b.head + skip) len)
      else
        some (copyRest (copyMem m dest m (b.head + skip) left) (dest + left) (len - left) left bs)

/-! ## Copying from a queue -/

/-- `NET_BUF_QUEUE`: its buffers and `BufSize`. -/
structure NetBufQueue where
  bufList : List NetBuf
  bufSize : ℕ

/-- The search of `NetbufQueCopy`. -/
def seekQue (offset : ℕ) : List NetBuf → ℕ → Option (NetBuf × List NetBuf × ℕ)
  | [], _ => none
  | nbuf :: rest, cur =>
    if offset < add32 cur nbuf.totalSize then some (nbuf, rest, cur)
    else seekQue offset rest (add32 cur nbuf.totalSize)

/-- The loop of `NetbufQueCopy` over the buffers behind the first. -/
def queRest (m : Memory) (dest len copied : ℕ) : List NetBuf → Option (ℕ × Memory)
  | [] => some (copied, m)
  | nbuf :: rest =>
    if len > 0 then
      if len > nbuf.totalSize then
        (netbufCopy m nbuf 0 nbuf.totalSize dest).bind fun r =>
          queRest r.2 (dest + nbuf.totalSize) (len - nbuf.totalSize) (copied + nbuf.totalSize) rest
      else (netbufCopy m nbuf 0 len dest).map fun r => (copied + len, r.2)
    else some (copied, m)

def netbufQueCopy (m : Memory) (que : NetBufQueue) (offset len dest : ℕ) : Option (ℕ × Memory) :=
  if len = 0 ∨ que.bufSize ≤ offset then some (0, m)
  else
    let len := if que.bufSize - offset < len then que.bufSize - offset else len
    match seekQue offset que.bufList 0 with
    | none => none
    | some (nbuf, rest, cur) =>
      let skip := sub32 offset cur
      let left := sub32 nbuf.totalSize skip
      if len < left then netbufCopy m nbuf skip len dest
      else
        (netbufCopy m nbuf skip left dest).bind fun r =>
          queRest r.2 (dest + left) (len - left) left rest

/-! ## Joining -/

structure NetFragment where
  len : ℕ
  bulk : ℕ

/-- The header loop of `NetbufFromExt`: the memory, `Copied`, and the fragments that are left. The
table of fragments is as before when the function returns. -/
def pullHeader (m : Memory) (header len : ℕ) : List NetFragment → Memory × ℕ × List NetFragment
  | [] => (m, 0, [])
  | f :: fs =>
    if len ≥ f.len then
      let m := copyMem m header m f.bulk f.len
      if len - f.len = 0 then (m, f.len, fs)
      else
        let r := pullHeader m (header + f.len) (len - f.len) fs
        (r.1, f.len + r.2.1, r.2.2)
    else (copyMem m header m f.bulk len, len, ⟨f.len - len, f.bulk + len⟩ :: fs)

/-- `NetbufSetBlock` for each fragment. -/
def blocksOf (fs : List NetFragment) : List NetBlockOp :=
  fs.map fun f => netbufSetBlockOp f.bulk f.len

/-- The length of the header that `NetbufFromExt` pulls together: none if it is in one piece
already. -/
def pulledLen (ext : List NetFragment) (headLen : ℕ) : ℕ :=
  if (ext.head?.any fun f => headLen ≤ f.len) ∨ ext.length = 1 then 0 else headLen

/-- `FirstBlockLen`, in 32-bit arithmetic. -/
def firstBlockLen (ext : List NetFragment) (headSpace headLen : ℕ) : ℕ :=
  if headSpace ≠ 0 ∨ pulledLen ext headLen ≠ 0 then add32 (pulledLen ext headLen) headSpace else 0

/-- The first block of `NetbufFromExt`: the head space and the header. -/
def firstBlockOp (firstBlock headSpace copied : ℕ) : NetBlockOp :=
  { netbufSetBlockOp firstBlock (headSpace + copied) with
    head := firstBlock + headSpace
    size := copied }

/-- `NetbufFromExt`: the inner `none` is `NULL`. -/
def netbufFromExt (m : Memory) (ext : List NetFragment) (headSpace headLen : ℕ)
    (alloc : FragmentAlloc) : Option (Option (NetBuf × Memory)) :=
  if ext = [] then none
  else
    match (if headSpace ≠ 0 ∨ pulledLen ext headLen ≠ 0 then alloc.firstBulk else some 0) with
    | none => some none
    | some firstBlock =>
      let (m, copied, rest) :=
        if pulledLen ext headLen ≠ 0 then
          pullHeader m (firstBlock + headSpace) (pulledLen ext headLen) ext
        else (m, 0, ext)
      if alloc.struct then
        let blocks :=
          if firstBlockLen ext headSpace headLen ≠ 0 then
            firstBlockOp firstBlock headSpace copied :: blocksOf rest
          else blocksOf rest
        some (some (⟨blocks, rest.foldl (fun totalLen f => add32 totalLen f.len) copied⟩, m))
      else some none

/-- The fragments of `NetbufFromBufList`: the blocks that hold data. -/
def fragmentsOf (bufList : List NetBuf) : List NetFragment :=
  bufList.flatMap fun nbuf =>
    (nbuf.blockOp.filter fun b => b.size ≠ 0).map fun b => ⟨b.size, b.head⟩

/-- `NetbufFromBufList`; `table` is whether the table of fragments could be allocated. -/
def netbufFromBufList (m : Memory) (bufList : List NetBuf) (headSpace headerLen : ℕ) (table : Bool)
    (alloc : FragmentAlloc) : Option (Option (NetBuf × Memory)) :=
  let fragmentNum := bufList.foldl (fun n nbuf => add32 n nbuf.blockOp.length) 0
  if ¬ table then some none
  else if fragmentNum < (fragmentsOf bufList).length then none
  else netbufFromExt m (fragmentsOf bufList) headSpace headerLen alloc

/-! ## What is copied -/

section Copy

variable {m : Memory} {bs cs : List NetBlockOp} {nbuf : NetBuf} {dest n offset len cur : ℕ}

/-- No block touches the `n` bytes at `dest`. -/
def Apart (dest n : ℕ) (bs : List NetBlockOp) : Prop :=
  ∀ b ∈ bs, b.head + b.size ≤ dest ∨ dest + n ≤ b.head

theorem Apart.mono {dest' n' : ℕ} (h : Apart dest n bs) (hs : ∀ b ∈ cs, b ∈ bs)
    (hle : dest ≤ dest') (hl : dest' + n' ≤ dest + n) : Apart dest' n' cs := by
  intro b hb
  have := h b (hs b hb)
  omega

theorem bytesOf_storeBytes {l : List UInt8} (h : Apart dest n bs) (hl : l.length ≤ n) :
    bytesOf (storeBytes m dest l) bs = bytesOf m bs := by
  refine flatMap_congr fun b hb => ?_
  have := h b hb
  exact bytesAt_storeBytes_of_disjoint (by omega)

theorem copyRest_spec {copied : ℕ} (hl : len ≤ sizesOf bs) (hapart : Apart dest len bs) :
    copyRest m dest len copied bs
      = (copied + len, storeBytes m dest ((bytesOf m bs).take len)) := by
  induction bs generalizing m dest len copied with
  | nil =>
    obtain rfl : len = 0 := Nat.le_zero.mp hl
    rw [copyRest, take_zero, storeBytes_nil, add_zero]
  | cons b bs ih =>
    rw [sizesOf_cons] at hl
    rw [copyRest, bytesOf_cons, take_append, length_bytes]
    split
    · have hw : copyMem m dest m b.head b.size = storeBytes m dest (b.bytes m) :=
        copyMem_eq_storeBytes m dest b.head b.size
      have hr : Apart (dest + b.size) (len - b.size) bs :=
        hapart.mono (fun c hc => mem_cons_of_mem b hc) (by omega) (by omega)
      have hb : bytesOf (storeBytes m dest (b.bytes m)) bs = bytesOf m bs :=
        bytesOf_storeBytes (hapart.mono (fun c hc => mem_cons_of_mem b hc)
          (le_refl _) (le_refl _)) (by rw [length_bytes]; omega)
      have hwh : (b.bytes m).take len = b.bytes m :=
        take_of_length_le (by rw [length_bytes]; omega)
      rw [ih (by omega) hr, hw, hb, hwh, ← storeBytes_append, length_bytes,
        add_assoc, Nat.add_sub_cancel' (by omega)]
    · rw [copyMem_eq_storeBytes, Nat.sub_eq_zero_of_le (by omega), take_zero, append_nil,
        NetBlockOp.bytes, take_bytesAt (by omega)]

theorem seekCopy_spec (hsu : cur + sizesOf bs < 2 ^ 32) (hc : cur ≤ offset)
    (ho : offset < cur + sizesOf bs) :
    ∃ pre b post, bs = pre ++ b :: post ∧
      seekCopy offset bs cur = some (b, post, cur + sizesOf pre) ∧
      cur + sizesOf pre ≤ offset ∧ offset < cur + sizesOf pre + b.size := by
  induction bs generalizing cur with
  | nil =>
    rw [sizesOf_nil] at ho
    omega
  | cons b bs ih =>
    rw [sizesOf_cons] at hsu ho
    rw [seekCopy]
    by_cases hz : b.size = 0
    · obtain ⟨pre, b', post, rfl, hs, hle, hlt⟩ := ih (by omega) hc (by omega)
      refine ⟨b :: pre, b', post, rfl, ?_, ?_, ?_⟩
      · rw [if_pos hz, hs, sizesOf_cons, hz, zero_add]
      · rwa [sizesOf_cons, hz, zero_add]
      · rwa [sizesOf_cons, hz, zero_add]
    · rw [if_neg hz, add32_of_lt (by omega)]
      by_cases hh : offset < cur + b.size
      · exact ⟨[], b, bs, rfl, if_pos hh, hc, hh⟩
      · obtain ⟨pre, b', post, rfl, hs, hle, hlt⟩ :=
          ih (show cur + b.size + _ < _ by omega) (by omega) (by omega)
        refine ⟨b :: pre, b', post, rfl, ?_, ?_, ?_⟩
        · rw [if_neg hh, hs, sizesOf_cons, add_assoc]
        · rwa [sizesOf_cons, ← add_assoc]
        · rwa [sizesOf_cons, ← add_assoc]

/-- **A copy writes the part of the slice that exists**, and returns its length. -/
theorem netbufCopy_spec (h : nbuf.Valid) (m : Memory) (offset len dest : ℕ)
    (hapart : Apart dest (min len (nbuf.totalSize - offset)) nbuf.blockOp) :
    netbufCopy m nbuf offset len dest
      = some (min len (nbuf.totalSize - offset),
        storeBytes m dest (((nbuf.content m).drop offset).take len)) := by
  have hlen := h.length_content m
  have ht := h.totalSize_eq
  have hlt := h.totalSize_lt
  unfold netbufCopy
  by_cases hnone : len = 0 ∨ nbuf.totalSize ≤ offset
  · have hempty : ((nbuf.content m).drop offset).take len = [] := by
      rcases hnone with rfl | hle
      · exact take_zero
      · rw [drop_eq_nil_of_le (by omega), take_nil]
    rw [if_pos hnone, hempty, storeBytes_nil]
    congr 2
    omega
  · obtain ⟨pre, b, post, hs, hse, hcu, hin⟩ := seekCopy_spec
      (show 0 + sizesOf nbuf.blockOp < 2 ^ 32 by omega) (Nat.zero_le offset) (by omega)
    simp only [Nat.zero_add] at hse hcu hin
    have hsi : sizesOf nbuf.blockOp = sizesOf pre + (b.size + sizesOf post) := by
      rw [hs, sizesOf_append, sizesOf_cons]
    have hcut : (if nbuf.totalSize - offset < len then nbuf.totalSize - offset else len)
        = min len (nbuf.totalSize - offset) := by split <;> omega
    have hsl : ((nbuf.content m).drop offset).take len
        = (bytesAt m (b.head + (offset - sizesOf pre)) (b.size - (offset - sizesOf pre))
          ++ bytesOf m post).take (min len (nbuf.totalSize - offset)) := by
      rw [take_eq_take_min, length_drop, hlen, ← drop_bytesOf hcu hin, ← hs]
      rfl
    have hp : Apart dest (min len (nbuf.totalSize - offset)) post :=
      hapart.mono (fun c hc => by rw [hs]; simp [hc]) (le_refl _) (le_refl _)
    rw [if_neg hnone]
    rw [hcut, hse]
    dsimp only
    rw [sub32_of_le (by omega) hcu, sub32_of_le (by omega) (by omega), hsl]
    have hn : min len (nbuf.totalSize - offset) ≤ nbuf.totalSize - offset := min_le_right _ _
    generalize min len (nbuf.totalSize - offset) = n at hp hn
    split
    · rename_i hf
      rw [copyMem_eq_storeBytes, take_append_of_le_length (by rwa [length_bytesAt]),
        take_bytesAt hf]
    · have hfi : ∀ l : List UInt8, l.length = b.size - (offset - sizesOf pre) → l.take n = l :=
        fun l hl => take_of_length_le (by omega)
      rw [copyMem_eq_storeBytes,
        copyRest_spec (by omega) (hp.mono (fun _ => id) (by omega) (by omega)),
        bytesOf_storeBytes hp (by rw [length_bytesAt]; omega), take_append,
        hfi _ (length_bytesAt _ _ _), ← storeBytes_append, length_bytesAt,
        Nat.add_sub_cancel' (by omega)]

end Copy

section Queue

variable {m : Memory} {bufs rest : List NetBuf} {nbuf : NetBuf} {dest n offset len cur copied : ℕ}

/-- The contents of buffers, one after the other. -/
def contentsOf (m : Memory) (bufs : List NetBuf) : List UInt8 := bufs.flatMap (NetBuf.content m)

def totalsOf (bufs : List NetBuf) : ℕ := (bufs.map NetBuf.totalSize).sum

def blocksIn (bufs : List NetBuf) : List NetBlockOp := bufs.flatMap NetBuf.blockOp

theorem contentsOf_eq (m : Memory) (bufs : List NetBuf) :
    contentsOf m bufs = bytesOf m (blocksIn bufs) := by
  unfold contentsOf bytesOf blocksIn
  rw [flatMap_assoc]
  rfl

theorem contentsOf_cons (m : Memory) (nbuf : NetBuf) (bufs : List NetBuf) :
    contentsOf m (nbuf :: bufs) = nbuf.content m ++ contentsOf m bufs := rfl

theorem totalsOf_cons (nbuf : NetBuf) (bufs : List NetBuf) :
    totalsOf (nbuf :: bufs) = nbuf.totalSize + totalsOf bufs := by
  rw [totalsOf, map_cons, sum_cons, totalsOf]

theorem blocksIn_cons (nbuf : NetBuf) (bufs : List NetBuf) :
    blocksIn (nbuf :: bufs) = nbuf.blockOp ++ blocksIn bufs := rfl

theorem sizesOf_blocksIn (h : ∀ nbuf ∈ bufs, nbuf.Valid) : sizesOf (blocksIn bufs) = totalsOf bufs := by
  induction bufs with
  | nil => rfl
  | cons nbuf bufs ih =>
    obtain ⟨hn, hb⟩ := forall_mem_cons.mp h
    rw [blocksIn_cons, sizesOf_append, totalsOf_cons, ih hb, hn.totalSize_eq]

theorem length_contentsOf (h : ∀ nbuf ∈ bufs, nbuf.Valid) (m : Memory) :
    (contentsOf m bufs).length = totalsOf bufs := by
  rw [contentsOf_eq, length_bytesOf, sizesOf_blocksIn h]

/-- **`BufSize` is the length of what is queued**, and fits its type. -/
structure NetBufQueue.Valid (que : NetBufQueue) : Prop where
  valid : ∀ nbuf ∈ que.bufList, nbuf.Valid
  bufSize_eq : que.bufSize = totalsOf que.bufList
  bufSize_lt : que.bufSize < 2 ^ 32

theorem queRest_spec (h : ∀ nbuf ∈ bufs, nbuf.Valid) (hl : len ≤ totalsOf bufs)
    (hapart : Apart dest len (blocksIn bufs)) :
    queRest m dest len copied bufs
      = some (copied + len, storeBytes m dest ((contentsOf m bufs).take len)) := by
  induction bufs generalizing m dest len copied with
  | nil =>
    obtain rfl : len = 0 := Nat.le_zero.mp hl
    rw [queRest, take_zero, storeBytes_nil, add_zero]
  | cons nbuf bufs ih =>
    obtain ⟨hn, hbu⟩ := forall_mem_cons.mp h
    rw [totalsOf_cons] at hl
    have hle := hn.length_content m
    rw [queRest, contentsOf_cons, take_append, hle]
    by_cases hz : len > 0
    · rw [if_pos hz]
      by_cases hm : len > nbuf.totalSize
      · have hc := netbufCopy_spec hn m 0 nbuf.totalSize dest
          (hapart.mono (fun b hb => mem_append_left _ hb) (by omega) (by omega))
        rw [drop_zero, take_of_length_le (le_of_eq hle)] at hc
        have hr : Apart dest len (blocksIn bufs) :=
          hapart.mono (fun b hb => mem_append_right _ hb) (by omega) (by omega)
        have hco : contentsOf (storeBytes m dest (nbuf.content m)) bufs = contentsOf m bufs := by
          rw [contentsOf_eq, contentsOf_eq]
          exact bytesOf_storeBytes hr (by omega)
        rw [if_pos hm, hc, bind_some,
          ih hbu (by omega) (hr.mono (fun _ => id) (by omega) (by omega)), hco,
          take_of_length_le (by omega : (nbuf.content m).length ≤ len), ← storeBytes_append,
          hle, add_assoc, Nat.add_sub_cancel' (by omega)]
      · have hc := netbufCopy_spec hn m 0 len dest
          (hapart.mono (fun b hb => mem_append_left _ hb) (by omega) (by omega))
        rw [if_neg hm, hc, map_some, drop_zero,
          show len - nbuf.totalSize = 0 by omega, take_zero, append_nil]
    · obtain rfl : len = 0 := by omega
      rw [if_neg hz, take_zero, Nat.zero_sub, take_zero, append_nil,
        storeBytes_nil, add_zero]

theorem seekQue_spec (h : ∀ nbuf ∈ bufs, nbuf.Valid) (hs : cur + totalsOf bufs < 2 ^ 32)
    (hc : cur ≤ offset) (ho : offset < cur + totalsOf bufs) :
    ∃ pre nbuf post, bufs = pre ++ nbuf :: post ∧
      seekQue offset bufs cur = some (nbuf, post, cur + totalsOf pre) ∧
      cur + totalsOf pre ≤ offset ∧ offset < cur + totalsOf pre + nbuf.totalSize := by
  induction bufs generalizing cur with
  | nil => exact absurd ho (by simp [totalsOf]; omega)
  | cons nbuf bufs ih =>
    rw [totalsOf_cons] at hs ho
    rw [seekQue, add32_of_lt (by omega)]
    by_cases hh : offset < cur + nbuf.totalSize
    · exact ⟨[], nbuf, bufs, rfl, if_pos hh, hc, hh⟩
    · obtain ⟨pre, nbuf', post, rfl, hse, hle, hlt⟩ :=
        ih (forall_mem_cons.mp h).2 (show cur + nbuf.totalSize + _ < _ by omega) (by omega)
          (by omega)
      refine ⟨nbuf :: pre, nbuf', post, rfl, ?_, ?_, ?_⟩
      · rw [if_neg hh, hse, totalsOf_cons, add_assoc]
      · rwa [totalsOf_cons, ← add_assoc]
      · rwa [totalsOf_cons, ← add_assoc]

/-- **A copy from a queue writes the part of the slice that exists**, and returns its length. -/
theorem netbufQueCopy_spec {que : NetBufQueue} (h : que.Valid) (m : Memory) (offset len dest : ℕ)
    (hapart : Apart dest (min len (que.bufSize - offset)) (blocksIn que.bufList)) :
    netbufQueCopy m que offset len dest
      = some (min len (que.bufSize - offset),
        storeBytes m dest (((contentsOf m que.bufList).drop offset).take len)) := by
  have hlen := length_contentsOf h.valid m
  have ht := h.bufSize_eq
  have hlt := h.bufSize_lt
  unfold netbufQueCopy
  by_cases hnone : len = 0 ∨ que.bufSize ≤ offset
  · have hempty : ((contentsOf m que.bufList).drop offset).take len = [] := by
      rcases hnone with rfl | hle
      · exact take_zero
      · rw [drop_eq_nil_of_le (by omega), take_nil]
    rw [if_pos hnone, hempty, storeBytes_nil]
    congr 2
    omega
  · obtain ⟨pre, nbuf, post, hsp, hse, hcur, hin⟩ := seekQue_spec h.valid
      (by omega) (Nat.zero_le offset) (by omega)
    simp only [Nat.zero_add] at hse hcur
    have hv := h.valid
    rw [hsp] at hv
    have hnb : nbuf.Valid := hv nbuf (by simp)
    have hpo : ∀ nbuf ∈ post, nbuf.Valid := fun nbuf hmem => hv nbuf (by simp [hmem])
    have hp : ∀ nbuf ∈ pre, nbuf.Valid := fun nbuf hmem => hv nbuf (by simp [hmem])
    have hsi : totalsOf que.bufList = totalsOf pre + (nbuf.totalSize + totalsOf post) := by
      rw [hsp, totalsOf, map_append, sum_append, ← totalsOf, ← totalsOf, totalsOf_cons]
    have hc := hnb.length_content m
    have hcu : (if que.bufSize - offset < len then que.bufSize - offset else len)
        = min len (que.bufSize - offset) := by split <;> omega
    have hsl : ((contentsOf m que.bufList).drop offset).take len
        = ((nbuf.content m).drop (offset - totalsOf pre) ++ contentsOf m post).take
          (min len (que.bufSize - offset)) := by
      rw [take_eq_take_min, length_drop, hlen, ← ht, hsp, contentsOf,
        flatMap_append, drop_append, ← contentsOf, ← contentsOf, length_contentsOf hp,
        drop_eq_nil_of_le (by rwa [length_contentsOf hp]), nil_append, contentsOf_cons,
        drop_append, hc, show offset - totalsOf pre - nbuf.totalSize = 0 by omega,
        drop_zero]
    have hpa : Apart dest (min len (que.bufSize - offset)) nbuf.blockOp :=
      hapart.mono (fun b hb => by
        rw [hsp]
        exact mem_flatMap.mpr ⟨nbuf, by simp, hb⟩) (le_refl _) (le_refl _)
    have hr : Apart dest (min len (que.bufSize - offset)) (blocksIn post) :=
      hapart.mono (fun b hb => by
        obtain ⟨nbuf', hmem, hb⟩ := mem_flatMap.mp hb
        rw [hsp]
        exact mem_flatMap.mpr ⟨nbuf', by simp [hmem], hb⟩) (le_refl _) (le_refl _)
    rw [if_neg hnone]
    rw [hcu, hse]
    dsimp only
    rw [sub32_of_le (by omega) hcur, sub32_of_le (by have := hnb.totalSize_lt; omega) (by omega),
      hsl]
    have hn : min len (que.bufSize - offset) ≤ que.bufSize - offset := min_le_right _ _
    generalize min len (que.bufSize - offset) = n at hpa hr hn
    have hl : ((nbuf.content m).drop (offset - totalsOf pre)).length
        = nbuf.totalSize - (offset - totalsOf pre) := by rw [length_drop, hc]
    split
    · rw [netbufCopy_spec hnb m _ _ _ (hpa.mono (fun _ => id) (by omega) (by omega)),
        take_append_of_le_length (by omega), min_eq_left (by omega)]
    · have hw : ((nbuf.content m).drop (offset - totalsOf pre)).take n
          = (nbuf.content m).drop (offset - totalsOf pre) := take_of_length_le (by omega)
      have hs : contentsOf (storeBytes m dest ((nbuf.content m).drop (offset - totalsOf pre))) post
          = contentsOf m post := by
        rw [contentsOf_eq, contentsOf_eq]
        exact bytesOf_storeBytes hr (by omega)
      rw [netbufCopy_spec hnb m _ _ _ (hpa.mono (fun _ => id) (by omega) (by omega)),
        bind_some, take_of_length_le (by omega),
        queRest_spec hpo (by omega) (hr.mono (fun _ => id) (by omega) (by omega)), hs,
        take_append, hw, ← storeBytes_append, hl, Nat.add_sub_cancel' (by omega)]

end Queue

/-! ## What is joined -/

section Join

variable {m : Memory} {fs ext : List NetFragment} {header len headSpace headLen : ℕ}

theorem blocksOf_cons (f : NetFragment) (fs : List NetFragment) :
    blocksOf (f :: fs) = netbufSetBlockOp f.bulk f.len :: blocksOf fs := rfl

/-- The header loop copies the first `len` bytes and leaves the fragments of the others. -/
theorem pullHeader_spec (hpos : 0 < len) (hapart : Apart header len (blocksOf fs)) :
    ∃ rest, pullHeader m header len fs
        = (storeBytes m header ((bytesOf m (blocksOf fs)).take len),
          min len (sizesOf (blocksOf fs)), rest) ∧
      ∀ m', bytesOf m' (blocksOf rest) = (bytesOf m' (blocksOf fs)).drop len := by
  induction fs generalizing m header len with
  | nil =>
    refine ⟨[], ?_, fun m' => drop_nil.symm⟩
    rw [pullHeader, show blocksOf [] = [] from rfl, bytesOf_nil, take_nil, storeBytes_nil,
      sizesOf_nil, Nat.min_zero]
  | cons f fs ih =>
    rw [blocksOf_cons] at ⊢
    have hr : Apart header len (blocksOf fs) :=
      hapart.mono (fun b hb => mem_cons_of_mem _ hb) (le_refl _) (le_refl _)
    simp only [bytesOf_cons, sizesOf_cons, bytes_netbufSetBlockOp, size_netbufSetBlockOp,
      take_append, drop_append, length_bytesAt]
    rw [pullHeader]
    by_cases hw : len ≥ f.len
    · have hbu : (bytesAt m f.bulk f.len).take len = bytesAt m f.bulk f.len :=
        take_of_length_le (by rwa [length_bytesAt])
      have hg : ∀ m', (bytesAt m' f.bulk f.len).drop len = [] := fun m' =>
        drop_eq_nil_of_le (by rwa [length_bytesAt])
      rw [if_pos hw, copyMem_eq_storeBytes, hbu]
      by_cases he : len - f.len = 0
      · refine ⟨fs, ?_, fun m' => ?_⟩
        · rw [if_pos he, he, take_zero, append_nil]
          congr 2
          omega
        · rw [hg, he, drop_zero, nil_append]
      · obtain ⟨rest, hp, hby⟩ := ih
          (show 0 < len - f.len by omega)
          (show Apart (header + f.len) _ _ from hr.mono (fun _ => id) (by omega) (by omega))
        refine ⟨rest, ?_, fun m' => ?_⟩
        · rw [if_neg he, hp, bytesOf_storeBytes hr (by rwa [length_bytesAt]),
            ← storeBytes_append, length_bytesAt]
          refine Prod.ext rfl (Prod.ext ?_ rfl)
          show f.len + min (len - f.len) (sizesOf (blocksOf fs))
            = min len (f.len + sizesOf (blocksOf fs))
          omega
        · rw [hg, hby, nil_append]
    · refine ⟨⟨f.len - len, f.bulk + len⟩ :: fs, ?_, fun m' => ?_⟩
      · rw [if_neg hw, copyMem_eq_storeBytes, show len - f.len = 0 by omega, take_zero,
          append_nil, take_bytesAt (by omega), Nat.min_eq_left (by omega)]
      · rw [show len - f.len = 0 by omega, drop_zero, drop_bytesAt (by omega), blocksOf_cons,
          bytesOf_cons, bytes_netbufSetBlockOp]

theorem foldl_add32 {total : ℕ} (h : total + sizesOf (blocksOf fs) < 2 ^ 32) :
    fs.foldl (fun totalLen f => add32 totalLen f.len) total = total + sizesOf (blocksOf fs) := by
  induction fs generalizing total with
  | nil => rfl
  | cons f fs ih =>
    rw [blocksOf_cons, sizesOf_cons, size_netbufSetBlockOp] at h ⊢
    rw [foldl_cons, add32_of_lt (by omega), ih (by omega), add_assoc]

/-- The allocations of a call that joins `ext` succeed, and the first block is new memory. -/
structure Allocated (ext : List NetFragment) (headSpace headLen : ℕ) (alloc : FragmentAlloc) :
    Prop where
  struct : alloc.struct = true
  firstBulk : headSpace ≠ 0 ∨ pulledLen ext headLen ≠ 0 → ∃ bulk, alloc.firstBulk = some bulk ∧
    Apart bulk (firstBlockLen ext headSpace headLen) (blocksOf ext)

/-- **The buffer over fragments holds their bytes**; blocks outside the new memory are as before. -/
theorem netbufFromExt_spec {alloc : FragmentAlloc} (m : Memory) (he : ext ≠ [])
    (ht : sizesOf (blocksOf ext) < 2 ^ 32) (hh : headSpace + headLen < 2 ^ 32)
    (ha : Allocated ext headSpace headLen alloc) :
    ∃ nbuf m', netbufFromExt m ext headSpace headLen alloc = some (some (nbuf, m')) ∧ nbuf.Valid ∧
      nbuf.content m' = bytesOf m (blocksOf ext) ∧
      ∀ bs, (headSpace ≠ 0 ∨ pulledLen ext headLen ≠ 0 → ∀ bulk, alloc.firstBulk = some bulk →
        Apart bulk (firstBlockLen ext headSpace headLen) bs) → bytesOf m' bs = bytesOf m bs := by
  have hp : pulledLen ext headLen ≤ headLen := by
    unfold pulledLen
    split <;> omega
  unfold netbufFromExt
  rw [if_neg he, ha.struct]
  by_cases hbl : headSpace ≠ 0 ∨ pulledLen ext headLen ≠ 0
  · have hf : firstBlockLen ext headSpace headLen = pulledLen ext headLen + headSpace := by
      rw [firstBlockLen, if_pos hbl, add32_of_lt (by omega)]
    obtain ⟨bulk, hb, hapart⟩ := ha.firstBulk hbl
    rw [if_pos hbl, hb, hf]
    dsimp only
    by_cases hpu : pulledLen ext headLen ≠ 0
    · have hpa : Apart (bulk + headSpace) (pulledLen ext headLen) (blocksOf ext) :=
        hapart.mono (fun _ => id) (by omega) (by omega)
      obtain ⟨rest, hlo, hby⟩ := pullHeader_spec (pos_of_ne_zero hpu) hpa
      have hs : sizesOf (blocksOf rest)
          = sizesOf (blocksOf ext) - pulledLen ext headLen := by
        have := sizesOf_of_bytesOf hby m
        rwa [length_drop, length_bytesOf] at this
      rw [if_pos hpu, hlo]
      dsimp only
      rw [if_pos rfl, if_pos (by omega), foldl_add32 (by omega)]
      generalize hl : (bytesOf m (blocksOf ext)).take (pulledLen ext headLen) = l
      have hle : l.length = min (pulledLen ext headLen) (sizesOf (blocksOf ext)) := by
        rw [← hl, length_take, length_bytesOf]
      refine ⟨_, _, rfl, ⟨?_, ?_⟩, ?_, fun bs hbs => ?_⟩
      · rfl
      · show min _ _ + sizesOf (blocksOf rest) < 2 ^ 32
        omega
      · show bytesOf _ (_ :: blocksOf rest) = _
        rw [bytesOf_cons, hby, bytesOf_storeBytes hpa (by omega)]
        show bytesAt _ (bulk + headSpace) (min _ _) ++ _ = _
        rw [← hle, bytesAt_storeBytes, ← hl, take_append_drop]
      · exact bytesOf_storeBytes ((hbs hbl bulk rfl).mono (fun _ => id) (by omega)
          (by omega)) (le_of_eq hle |>.trans
          (min_le_left _ _))
    · rw [if_neg hpu]
      dsimp only
      rw [if_pos rfl, if_pos (by omega), foldl_add32 (by omega)]
      refine ⟨_, _, rfl, ⟨?_, ?_⟩, ?_, fun bs _ => rfl⟩
      · rfl
      · show 0 + sizesOf (blocksOf ext) < 2 ^ 32
        omega
      · show bytesOf m (_ :: blocksOf ext) = _
        rw [bytesOf_cons, bytes_of_size_zero rfl, nil_append]
  · have hnone : pulledLen ext headLen = 0 := by omega
    have hf : firstBlockLen ext headSpace headLen = 0 := if_neg hbl
    rw [if_neg hbl, hnone, hf]
    dsimp only
    rw [if_neg (not_not.mpr rfl), if_neg (not_not.mpr rfl)]
    dsimp only
    rw [foldl_add32 (by omega), zero_add]
    exact ⟨_, _, rfl, ⟨rfl, ht⟩, rfl, fun bs _ => rfl⟩

theorem bytesOf_fragmentsOf (m : Memory) (bufs : List NetBuf) :
    bytesOf m (blocksOf (fragmentsOf bufs)) = contentsOf m bufs := by
  have hb : ∀ bs : List NetBlockOp, bytesOf m (blocksOf
      ((bs.filter fun b => b.size ≠ 0).map fun b => ⟨b.size, b.head⟩)) = bytesOf m bs := by
    intro bs
    induction bs with
    | nil => rfl
    | cons b bs ih =>
      rw [filter_cons, bytesOf_cons]
      split
      · rw [map_cons, blocksOf_cons, bytesOf_cons, ih]
        rfl
      · rename_i hz
        rw [ih, bytes_of_size_zero (by simpa using hz), nil_append]
  induction bufs with
  | nil => rfl
  | cons nbuf bufs ih =>
    rw [contentsOf_cons, ← ih, NetBuf.content, ← hb nbuf.blockOp, ← bytesOf_append]
    unfold fragmentsOf blocksOf
    rw [flatMap_cons, map_append]

variable {bufs : List NetBuf}

theorem apart_fragmentsOf {dest n : ℕ} (h : Apart dest n (blocksIn bufs)) :
    Apart dest n (blocksOf (fragmentsOf bufs)) := by
  intro b hb
  obtain ⟨f, hf, rfl⟩ := mem_map.mp hb
  obtain ⟨nbuf, hn, hf⟩ := mem_flatMap.mp hf
  obtain ⟨b₀, hb₀, rfl⟩ := mem_map.mp hf
  exact h b₀ (mem_flatMap.mpr ⟨nbuf, hn, (mem_filter.mp hb₀).1⟩)

theorem length_fragmentsOf_le {num : ℕ}
    (h : num + (blocksIn bufs).length < 2 ^ 32) :
    bufs.foldl (fun n nbuf => add32 n nbuf.blockOp.length) num = num + (blocksIn bufs).length ∧
      (fragmentsOf bufs).length ≤ (blocksIn bufs).length := by
  induction bufs generalizing num with
  | nil => exact ⟨rfl, le_refl _⟩
  | cons nbuf bufs ih =>
    rw [blocksIn_cons, length_append] at h ⊢
    obtain ⟨hn, hl⟩ := ih (show num + nbuf.blockOp.length + _ < _ by omega)
    have hf := length_filter_le (fun b : NetBlockOp => b.size ≠ 0) nbuf.blockOp
    refine ⟨?_, ?_⟩
    · rw [foldl_cons, add32_of_lt (by omega), hn, add_assoc]
    · unfold fragmentsOf at hl ⊢
      rw [flatMap_cons, length_append, length_map]
      omega

/-- **The joined buffer holds the contents of the list**, and the buffers of the list hold what they
held. -/
theorem netbufFromBufList_spec {alloc : FragmentAlloc} (m : Memory)
    (hv : ∀ nbuf ∈ bufs, nbuf.Valid) (hpos : 0 < totalsOf bufs) (ht : totalsOf bufs < 2 ^ 32)
    (hnu : (blocksIn bufs).length < 2 ^ 32) (hh : headSpace + headLen < 2 ^ 32)
    (hs : alloc.struct = true)
    (hbu : headSpace ≠ 0 ∨ pulledLen (fragmentsOf bufs) headLen ≠ 0 →
      ∃ bulk, alloc.firstBulk = some bulk ∧
        Apart bulk (firstBlockLen (fragmentsOf bufs) headSpace headLen) (blocksIn bufs)) :
    ∃ nbuf m', netbufFromBufList m bufs headSpace headLen true alloc = some (some (nbuf, m')) ∧
      nbuf.Valid ∧ nbuf.content m' = contentsOf m bufs ∧
      ∀ nbuf ∈ bufs, nbuf.content m' = nbuf.content m := by
  have hl : sizesOf (blocksOf (fragmentsOf bufs)) = totalsOf bufs := by
    rw [← length_bytesOf m, bytesOf_fragmentsOf, length_contentsOf hv]
  have hne : fragmentsOf bufs ≠ [] := by
    intro hnil
    rw [hnil, show sizesOf (blocksOf []) = 0 from rfl] at hl
    omega
  obtain ⟨hf, hle⟩ := length_fragmentsOf_le (show 0 + (blocksIn bufs).length < 2 ^ 32 by omega)
  obtain ⟨nbuf, m', hj, hn, hc, hk⟩ := netbufFromExt_spec m hne (by omega) hh
    ⟨hs, fun hbl => (hbu hbl).imp fun bulk h => ⟨h.1, apart_fragmentsOf h.2⟩⟩
  refine ⟨nbuf, m', ?_, hn, by rw [hc, bytesOf_fragmentsOf], fun nbuf' hmem => ?_⟩
  · unfold netbufFromBufList
    rw [if_neg (by simp), if_neg (by omega), hj]
  · refine hk nbuf'.blockOp fun hbl bulk' hb' => ?_
    obtain ⟨bulk, hso, hapart⟩ := hbu hbl
    obtain rfl := some.inj (hso.symm.trans hb')
    exact hapart.mono (fun b hb => mem_flatMap.mpr ⟨nbuf', hmem, hb⟩) (le_refl _)
      (le_refl _)

/-- Without head space and header nothing is written: a buffer that is returned is over the blocks
of the list. -/
theorem netbufFromBufList_whole {alloc : FragmentAlloc} {table : Bool}
    {m' : Memory} {nbuf : NetBuf} (hv : ∀ nbuf ∈ bufs, nbuf.Valid)
    (ht : totalsOf bufs < 2 ^ 32)
    (h : netbufFromBufList m bufs 0 0 table alloc = some (some (nbuf, m'))) :
    nbuf.Valid ∧ nbuf.content m = contentsOf m bufs := by
  have hl : sizesOf (blocksOf (fragmentsOf bufs)) = totalsOf bufs := by
    rw [← length_bytesOf m, bytesOf_fragmentsOf, length_contentsOf hv]
  unfold netbufFromBufList at h
  dsimp only at h
  split at h
  · cases h
  split at h
  · cases h
  by_cases hnil : fragmentsOf bufs = []
  · rw [netbufFromExt, if_pos hnil] at h
    cases h
  have hp : pulledLen (fragmentsOf bufs) 0 = 0 := by
    unfold pulledLen
    split <;> rfl
  by_cases hs : alloc.struct = true
  · obtain ⟨nbuf', m₁, hj, hn, hc, hk⟩ := netbufFromExt_spec m hnil
      (by omega) (show 0 + 0 < 2 ^ 32 by omega)
      ⟨hs, fun hb => absurd hp (by simpa using hb)⟩
    rw [hj] at h
    obtain ⟨rfl, rfl⟩ := Prod.mk.inj (some.inj (some.inj h))
    refine ⟨hn, ?_⟩
    rw [NetBuf.content, ← hk nbuf'.blockOp fun hb => absurd hp (by simpa using hb),
      ← NetBuf.content, hc, bytesOf_fragmentsOf]
  · unfold netbufFromExt at h
    simp [hnil, hp, hs] at h

end Join

/-! ## The operations on contents -/

/-- **The algebra of net buffers.** For a buffer whose `TotalSize` is the length of its content:

* a fragment of at least one byte is the slice it is asked for if the slice exists; with no bytes, or
  if the slice ends behind the content at an offset that fits 32 bits, there is none;
* a trim cuts off what it is asked to, or all there is;
* a copy, from a buffer or a queue, writes the part of the slice that exists;
* the buffer joined from a list that holds data holds the contents of the list, if the sizes, the
  number of blocks and the head fit 32 bits.

The buffers made are valid, and those they are made from hold what they held. -/
theorem netbuf_algebra :
    (∀ (nbuf : NetBuf) (offset len headSpace : ℕ) (alloc : FragmentAlloc), nbuf.Valid →
      alloc.struct = true → (headSpace ≠ 0 → alloc.firstBulk.isSome = true) →
      (0 < len → offset + len ≤ nbuf.totalSize →
        ∃ child, netbufGetFragment nbuf offset len headSpace alloc = some (some child) ∧
          child.Valid ∧ ∀ m, child.content m = ((nbuf.content m).drop offset).take len) ∧
      (len = 0 ∨ nbuf.totalSize < offset + len ∧ offset + len < 2 ^ 32 →
        netbufGetFragment nbuf offset len headSpace alloc = some none)) ∧
    (∀ (nbuf : NetBuf) (len : ℕ) (fromHead : Bool), nbuf.Valid →
      ∃ nbuf', netbufTrim nbuf len fromHead = some (nbuf', min len nbuf.totalSize) ∧ nbuf'.Valid ∧
        ∀ m, nbuf'.content m = if fromHead then (nbuf.content m).drop len
          else (nbuf.content m).take (nbuf.totalSize - len)) ∧
    (∀ (m : Memory) (nbuf : NetBuf) (offset len dest : ℕ), nbuf.Valid →
      Apart dest (min len (nbuf.totalSize - offset)) nbuf.blockOp →
      ∃ m', netbufCopy m nbuf offset len dest = some (min len (nbuf.totalSize - offset), m') ∧
        m' = storeBytes m dest (((nbuf.content m).drop offset).take len) ∧
        nbuf.content m' = nbuf.content m) ∧
    (∀ (m : Memory) (que : NetBufQueue) (offset len dest : ℕ), que.Valid →
      Apart dest (min len (que.bufSize - offset)) (blocksIn que.bufList) →
      ∃ m', netbufQueCopy m que offset len dest = some (min len (que.bufSize - offset), m') ∧
        m' = storeBytes m dest (((contentsOf m que.bufList).drop offset).take len) ∧
        ∀ nbuf ∈ que.bufList, nbuf.content m' = nbuf.content m) ∧
    (∀ (m : Memory) (bufs : List NetBuf) (headSpace headLen : ℕ) (alloc : FragmentAlloc),
      (∀ nbuf ∈ bufs, nbuf.Valid) → 0 < totalsOf bufs → totalsOf bufs < 2 ^ 32 →
      (blocksIn bufs).length < 2 ^ 32 → headSpace + headLen < 2 ^ 32 → alloc.struct = true →
      (headSpace ≠ 0 ∨ pulledLen (fragmentsOf bufs) headLen ≠ 0 →
        ∃ bulk, alloc.firstBulk = some bulk ∧
          Apart bulk (firstBlockLen (fragmentsOf bufs) headSpace headLen) (blocksIn bufs)) →
      ∃ nbuf m', netbufFromBufList m bufs headSpace headLen true alloc = some (some (nbuf, m')) ∧
        nbuf.Valid ∧ nbuf.content m' = contentsOf m bufs ∧
        ∀ nbuf ∈ bufs, nbuf.content m' = nbuf.content m) := by
  refine ⟨?_, ?_, ?_, ?_, ?_⟩
  · intro nbuf offset len headSpace alloc h hs hbu
    refine ⟨fun hpos hle => netbufGetFragment_spec h hpos hle hs hbu, fun hnone => ?_⟩
    unfold netbufGetFragment
    rw [if_pos]
    rcases hnone with hz | ⟨hm, hf⟩
    · exact .inl hz
    · exact .inr (by rwa [add32_of_lt hf])
  · intro nbuf len fromHead h
    exact netbufTrim_spec h len fromHead
  · intro m nbuf offset len dest h hapart
    refine ⟨_, netbufCopy_spec h m offset len dest hapart, rfl, bytesOf_storeBytes hapart ?_⟩
    rw [length_take, length_drop, h.length_content]
  · intro m que offset len dest h hapart
    refine ⟨_, netbufQueCopy_spec h m offset len dest hapart, rfl, fun nbuf hmem => ?_⟩
    refine bytesOf_storeBytes (hapart.mono (fun b hb => mem_flatMap.mpr ⟨nbuf, hmem, hb⟩)
      (le_refl _) (le_refl _)) ?_
    rw [length_take, length_drop, length_contentsOf h.valid, h.bufSize_eq]
  · intro m bufs headSpace headLen alloc hv hpos ht hn hh hs hbu
    exact netbufFromBufList_spec m hv hpos ht hn hh hs hbu

/-- A buffer of one block of eight bytes at `0x1000`. -/
private def sampleBuf : NetBuf := ⟨[netbufSetBlockOp 0x1000 8], 8⟩

private theorem sampleBuf_valid : sampleBuf.Valid := ⟨rfl, by decide⟩

/-- A buffer of nine bytes in four blocks, one of which is empty. -/
private def splitBuf : NetBuf :=
  ⟨[netbufSetBlockOp 0x3000 3, netbufSetBlockOp 0x3100 0, netbufSetBlockOp 0x3210 4,
    netbufSetBlockOp 0x3320 2], 9⟩

private theorem splitBuf_valid : splitBuf.Valid := ⟨rfl, by decide⟩

private theorem sample_valid : ∀ nbuf ∈ [splitBuf, sampleBuf], nbuf.Valid := by
  rintro _ (_ | ⟨_, _ | ⟨_, ⟨⟩⟩⟩)
  · exact splitBuf_valid
  · exact sampleBuf_valid

/-- Cuts and copies across the blocks of a buffer and the buffers of a queue, and the two samples
joined behind a header of five bytes. Each byte of the memory is the last one of its address. -/
theorem netbuf_algebra_split :
    (∃ child, netbufGetFragment splitBuf 2 6 16 ⟨some 0x2000, true⟩ = some (some child) ∧
      child.Valid ∧ child.content UInt8.ofNat = [2, 0x10, 0x11, 0x12, 0x13, 0x20]) ∧
    (∃ nbuf, netbufTrim splitBuf 4 true = some (nbuf, 4) ∧ nbuf.Valid ∧
      nbuf.content UInt8.ofNat = [0x11, 0x12, 0x13, 0x20, 0x21]) ∧
    netbufCopy UInt8.ofNat splitBuf 2 20 0x5000 =
      some (7, storeBytes UInt8.ofNat 0x5000 [2, 0x10, 0x11, 0x12, 0x13, 0x20, 0x21]) ∧
    netbufQueCopy UInt8.ofNat ⟨[splitBuf, sampleBuf], 17⟩ 6 5 0x5000 =
      some (5, storeBytes UInt8.ofNat 0x5000 [0x13, 0x20, 0x21, 0, 1]) ∧
    ∃ nbuf m, netbufFromBufList UInt8.ofNat [splitBuf, sampleBuf] 4 5 true ⟨some 0x5000, true⟩ =
      some (some (nbuf, m)) ∧ nbuf.Valid ∧
        nbuf.content m = [0, 1, 2, 0x10, 0x11, 0x12, 0x13, 0x20, 0x21, 0, 1, 2, 3, 4, 5, 6, 7] := by
  obtain ⟨hfragment, htrim, hcopy, hque, hjoin⟩ := netbuf_algebra
  have hc : splitBuf.content UInt8.ofNat = [0, 1, 2, 0x10, 0x11, 0x12, 0x13, 0x20, 0x21] := by
    decide +kernel
  have hs : contentsOf UInt8.ofNat [splitBuf, sampleBuf] =
      [0, 1, 2, 0x10, 0x11, 0x12, 0x13, 0x20, 0x21, 0, 1, 2, 3, 4, 5, 6, 7] := by decide +kernel
  refine ⟨?_, ?_, ?_, ?_, ?_⟩
  · obtain ⟨child, he, hv, hb⟩ := (hfragment splitBuf 2 6 16 ⟨some 0x2000, true⟩ splitBuf_valid rfl
      fun _ => rfl).1 (by decide) (by decide)
    exact ⟨child, he, hv, by rw [hb, hc]; rfl⟩
  · obtain ⟨nbuf, he, hv, hb⟩ := htrim splitBuf 4 true splitBuf_valid
    exact ⟨nbuf, he, hv, by rw [hb, hc]; rfl⟩
  · obtain ⟨m, he, hm, -⟩ := hcopy UInt8.ofNat splitBuf 2 20 0x5000 splitBuf_valid
      (by unfold Apart; decide)
    rw [he, hm, hc]
    rfl
  · obtain ⟨m, he, hm, -⟩ := hque UInt8.ofNat ⟨[splitBuf, sampleBuf], 17⟩ 6 5 0x5000
      ⟨sample_valid, rfl, by decide⟩ (by unfold Apart; decide)
    rw [he, hm, hs]
    rfl
  · obtain ⟨nbuf, m, he, hv, hb, -⟩ := hjoin UInt8.ofNat [splitBuf, sampleBuf] 4 5
      ⟨some 0x5000, true⟩ sample_valid (by decide) (by decide) (by decide) (by decide) rfl
      fun _ => ⟨0x5000, rfl, by unfold Apart; decide⟩
    exact ⟨nbuf, m, he, hv, hb.trans hs⟩

/-- **An empty slice is not answered by an empty buffer**, but by `NULL`: the length zero is
refused. And a length that wraps, from an offset inside the buffer, is not refused: the buffer that
comes back has a `TotalSize` that is not the length of its content. -/
theorem not_netbuf_algebra :
    (sampleBuf.Valid ∧ 4 + 0 ≤ sampleBuf.totalSize ∧
      netbufGetFragment sampleBuf 4 0 0 ⟨none, true⟩ = some none) ∧
    (sampleBuf.totalSize < 4 + (2 ^ 32 - 2) ∧
      ∃ child, netbufGetFragment sampleBuf 4 (2 ^ 32 - 2) 0 ⟨none, true⟩ = some (some child) ∧
        ∀ m, (child.content m).length = 4 ∧ child.totalSize = 2 ^ 32 - 2) := by
  refine ⟨⟨sampleBuf_valid, by decide, by decide +kernel⟩, by decide,
    ⟨[netbufSetBlockOp 0x1004 4], 2 ^ 32 - 2⟩, by decide +kernel, fun m => ⟨?_, rfl⟩⟩
  exact length_bytesOf m [netbufSetBlockOp 0x1004 4]

end Edk2.Net
