import Edk2.Lib.Bytes
import Edk2.Lib.Word

/-!
# Net buffers

The net buffers of `NetBuffer.c`: a packet is an array of blocks that point into memory, and its
content is the concatenation of their bytes. `NetbufTrim` cuts bytes off one end,
`NetbufGetFragment` builds a buffer that shares the blocks of another one. Sizes and offsets are
32-bit values.

A result `none` stands for an access outside the array of blocks, or a failed `ASSERT`.

## Main results

* `netbufTrim_spec`: what is cut off and what is left
* `netbufGetFragment_spec`: the slice that a fragment is
-/

namespace Edk2.Net

open List Option

/-- `NET_BLOCK_OP`: where a block begins and ends, and the data in it. -/
structure NetBlockOp where
  blockHead : ℕ
  blockTail : ℕ
  head : ℕ
  tail : ℕ
  size : ℕ
  deriving DecidableEq

/-- `NET_BUF`: its blocks and `TotalSize`. -/
structure NetBuf where
  blockOp : List NetBlockOp
  totalSize : ℕ
  deriving DecidableEq

def NetBlockOp.bytes (m : Memory) (b : NetBlockOp) : List UInt8 := bytesAt m b.head b.size

def bytesOf (m : Memory) (bs : List NetBlockOp) : List UInt8 := bs.flatMap (NetBlockOp.bytes m)

/-- **The content of a net buffer.** -/
def NetBuf.content (m : Memory) (nbuf : NetBuf) : List UInt8 := bytesOf m nbuf.blockOp

def sizesOf (bs : List NetBlockOp) : ℕ := (bs.map NetBlockOp.size).sum

/-- **`TotalSize` is the length of the content**, and fits its type. -/
structure NetBuf.Valid (nbuf : NetBuf) : Prop where
  totalSize_eq : nbuf.totalSize = sizesOf nbuf.blockOp
  totalSize_lt : nbuf.totalSize < 2 ^ 32

def netbufSetBlockOp (bulk len : ℕ) : NetBlockOp := ⟨bulk, bulk + len, bulk, bulk + len, len⟩

/-! ## Trimming -/

def netblockTrim (b : NetBlockOp) (len : ℕ) (fromHead : Bool) : NetBlockOp :=
  { b with
    size := b.size - len
    head := if fromHead then b.head + len else b.head
    tail := if fromHead then b.tail else b.tail - len }

/-- The loop of `NetbufTrim` over the blocks in the order in which it visits them: the blocks behind
it and `Trimmed`. -/
def trimLoop (fromHead : Bool) : ℕ → List NetBlockOp → Option (List NetBlockOp × ℕ)
  | _, [] => none
  | len, b :: bs =>
    if b.size = 0 then (trimLoop fromHead len bs).map fun r => (b :: r.1, r.2)
    else if len > b.size then
      (trimLoop fromHead (len - b.size) bs).map fun r =>
        (netblockTrim b b.size fromHead :: r.1, b.size + r.2)
    else some (netblockTrim b len fromHead :: bs, len)

/-- `NetbufTrim`: the buffer and the length that was cut off. From the tail the blocks are visited
backward. -/
def netbufTrim (nbuf : NetBuf) (len : ℕ) (fromHead : Bool) : Option (NetBuf × ℕ) :=
  if len = 0 ∨ nbuf.totalSize = 0 then some (nbuf, 0)
  else
    let len := if len > nbuf.totalSize then nbuf.totalSize else len
    if fromHead then
      (trimLoop true len nbuf.blockOp).map fun r => (⟨r.1, nbuf.totalSize - len⟩, r.2)
    else
      (trimLoop false len nbuf.blockOp.reverse).map fun r =>
        (⟨r.1.reverse, nbuf.totalSize - len⟩, r.2)

/-! ## Fragments -/

/-- The results of the allocations of a call: the pool block for the head space, and the buffer
structure. -/
structure FragmentAlloc where
  firstBulk : Option ℕ
  struct : Bool

/-- The first search of `NetbufGetFragment`: `Index` and `Cur` at the first block that contains
`Offset`. -/
def seekFirst (offset : ℕ) : List NetBlockOp → ℕ → ℕ → ℕ × ℕ
  | [], index, cur => (index, cur)
  | b :: bs, index, cur =>
    if offset < add32 cur b.size then (index, cur)
    else seekFirst offset bs (index + 1) (add32 cur b.size)

/-- The second search, for the block that contains the last byte: `Last` and `LastLen`, which stay
zero when there is none. -/
def seekLast (offsetLen : ℕ) : List NetBlockOp → ℕ → ℕ → ℕ × ℕ
  | [], _, _ => (0, 0)
  | b :: bs, index, cur =>
    if offsetLen ≤ add32 cur b.size then (index, sub32 offsetLen cur)
    else seekLast offsetLen bs (index + 1) (add32 cur b.size)

/-- The block that `NetbufGetFragment` allocates for the head space: it holds no data. -/
def headSpaceBlock (bulk headSpace : ℕ) : NetBlockOp :=
  { netbufSetBlockOp bulk headSpace with head := bulk + headSpace, size := 0 }

/-- The blocks of the fragment: the rest of the first block, the blocks between, the start of the
last one. -/
def fragmentBlocks (blockOp : List NetBlockOp) (firstOp : NetBlockOp)
    (first firstSkip firstLen last lastLen : ℕ) : List NetBlockOp :=
  netbufSetBlockOp (firstOp.head + firstSkip) firstLen ::
    (((blockOp.drop (first + 1)).take (last - (first + 1))).map fun b =>
      netbufSetBlockOp b.head b.size) ++
    if first ≠ last then
      (blockOp[last]?.toList).map fun b => netbufSetBlockOp b.head lastLen
    else []

/-- The buffer structure around the blocks, and the block for the head space in front of them;
`NULL` if an allocation fails. -/
def allocFragment (headSpace len : ℕ) (alloc : FragmentAlloc) (blocks : List NetBlockOp) :
    Option NetBuf :=
  if headSpace ≠ 0 then
    match alloc.struct, alloc.firstBulk with
    | true, some bulk => some ⟨headSpaceBlock bulk headSpace :: blocks, len⟩
    | _, _ => none
  else if alloc.struct then some ⟨blocks, len⟩
  else none

/-- `NetbufGetFragment`: the inner `none` is `NULL`. -/
def netbufGetFragment (nbuf : NetBuf) (offset len headSpace : ℕ) (alloc : FragmentAlloc) :
    Option (Option NetBuf) :=
  if len = 0 ∨ nbuf.totalSize < add32 offset len then some none
  else
    let (first, cur) := seekFirst offset nbuf.blockOp 0 0
    match nbuf.blockOp[first]? with
    | none => none
    | some firstOp =>
      let firstSkip := sub32 offset cur
      let firstLen := sub32 firstOp.size firstSkip
      let (last, lastLen) :=
        if len > firstLen then
          seekLast (add32 offset len) (nbuf.blockOp.drop (first + 1)) (first + 1)
            (add32 cur firstOp.size)
        else (first, len)
      let firstLen := if len > firstLen then firstLen else len
      if last < first then none
      else
        some (allocFragment headSpace len alloc
          (fragmentBlocks nbuf.blockOp firstOp first firstSkip firstLen last lastLen))

/-! ## Blocks and their bytes -/

section Bytes

variable {m : Memory} {b : NetBlockOp} {bs cs : List NetBlockOp} {nbuf : NetBuf}

@[simp] theorem bytesOf_nil (m : Memory) : bytesOf m [] = [] := rfl

@[simp] theorem bytesOf_cons (m : Memory) (b : NetBlockOp) (bs : List NetBlockOp) :
    bytesOf m (b :: bs) = b.bytes m ++ bytesOf m bs := rfl

@[simp] theorem bytesOf_append (m : Memory) (bs cs : List NetBlockOp) :
    bytesOf m (bs ++ cs) = bytesOf m bs ++ bytesOf m cs := flatMap_append

@[simp] theorem length_bytes (m : Memory) (b : NetBlockOp) : (b.bytes m).length = b.size :=
  length_bytesAt _ _ _

@[simp] theorem sizesOf_nil : sizesOf [] = 0 := rfl

@[simp] theorem sizesOf_cons (b : NetBlockOp) (bs : List NetBlockOp) :
    sizesOf (b :: bs) = b.size + sizesOf bs := by
  rw [sizesOf, map_cons, sum_cons, sizesOf]

@[simp] theorem sizesOf_append (bs cs : List NetBlockOp) :
    sizesOf (bs ++ cs) = sizesOf bs + sizesOf cs := by
  rw [sizesOf, map_append, sum_append, sizesOf, sizesOf]

@[simp] theorem sizesOf_reverse (bs : List NetBlockOp) : sizesOf bs.reverse = sizesOf bs := by
  rw [sizesOf, map_reverse, sum_reverse, sizesOf]

@[simp] theorem length_bytesOf (m : Memory) (bs : List NetBlockOp) :
    (bytesOf m bs).length = sizesOf bs := by
  induction bs with
  | nil => rfl
  | cons b bs ih => rw [bytesOf_cons, length_append, ih, length_bytes, sizesOf_cons]

theorem NetBuf.Valid.length_content (h : nbuf.Valid) (m : Memory) :
    (nbuf.content m).length = nbuf.totalSize := by
  rw [NetBuf.content, length_bytesOf, h.totalSize_eq]

theorem bytes_of_size_zero (h : b.size = 0) : b.bytes m = [] :=
  length_eq_zero_iff.mp ((length_bytes m b).trans h)

@[simp] theorem bytes_netbufSetBlockOp (m : Memory) (bulk len : ℕ) :
    (netbufSetBlockOp bulk len).bytes m = bytesAt m bulk len := rfl

@[simp] theorem size_netbufSetBlockOp (bulk len : ℕ) : (netbufSetBlockOp bulk len).size = len := rfl

end Bytes

/-! ## What is left after a trim -/

section Trim

variable {m : Memory} {bs : List NetBlockOp} {len : ℕ} {nbuf : NetBuf}

theorem bytes_netblockTrim_head {b : NetBlockOp} (h : len ≤ b.size) :
    (netblockTrim b len true).bytes m = (b.bytes m).drop len :=
  (drop_bytesAt h).symm

theorem bytes_netblockTrim_tail (m : Memory) (b : NetBlockOp) (len : ℕ) :
    (netblockTrim b len false).bytes m = (b.bytes m).take (b.size - len) :=
  (take_bytesAt (Nat.sub_le _ _)).symm

theorem bytesOf_map_netblockTrim (m : Memory) (bs : List NetBlockOp) (fromHead : Bool) :
    bytesOf m (bs.map fun b => netblockTrim b b.size fromHead) = [] := by
  apply flatMap_eq_nil_iff.mpr
  intro b hb
  obtain ⟨a, -, rfl⟩ := mem_map.mp hb
  exact bytes_of_size_zero (Nat.sub_self _)

theorem trimLoop_spec (fromHead : Bool) (hpos : 0 < len) (hle : len ≤ sizesOf bs) :
    ∃ pre b post k, bs = pre ++ b :: post ∧ len = sizesOf pre + k ∧ k ≤ b.size ∧
      trimLoop fromHead len bs = some (pre.map (fun b => netblockTrim b b.size fromHead)
        ++ netblockTrim b k fromHead :: post, len) := by
  induction bs generalizing len with
  | nil =>
    rw [sizesOf_nil] at hle
    omega
  | cons b bs ih =>
    rw [sizesOf_cons] at hle
    rw [trimLoop]
    by_cases hm : len > b.size
    · obtain ⟨pre, c, post, k, rfl, hk, hc, hl⟩ := ih (show 0 < len - b.size by omega) (by omega)
      refine ⟨b :: pre, c, post, k, rfl, by rw [sizesOf_cons]; omega, hc, ?_⟩
      rw [map_cons, cons_append, if_pos hm, hl]
      split
      · -- nothing is cut off a block that is empty
        next hz =>
        rw [hz, Nat.sub_zero] at hl
        obtain ⟨_, _, _, _, _⟩ := b
        obtain rfl : _ = 0 := hz
        rw [hl]
        simp [netblockTrim]
      · rw [Option.map_some, Nat.add_sub_cancel' (Nat.le_of_lt hm)]
    · refine ⟨[], b, bs, len, rfl, (Nat.zero_add _).symm, by omega, ?_⟩
      rw [if_neg (by omega), if_neg hm]
      rfl

theorem trimLoop_head (hpos : 0 < len) (hle : len ≤ sizesOf bs) :
    ∃ bs', trimLoop true len bs = some (bs', len) ∧
      ∀ m, bytesOf m bs' = (bytesOf m bs).drop len := by
  obtain ⟨pre, b, post, k, rfl, rfl, hk, hl⟩ := trimLoop_spec true hpos hle
  refine ⟨_, hl, fun m => ?_⟩
  rw [← length_bytesOf m pre, bytesOf_append, bytesOf_append, bytesOf_map_netblockTrim,
    bytesOf_cons, bytesOf_cons, bytes_netblockTrim_head hk, drop_length_add_append,
    drop_append_of_le_length (by rwa [length_bytes]), nil_append]

theorem trimLoop_tail (hpos : 0 < len) (hle : len ≤ sizesOf bs) :
    ∃ bs', trimLoop false len bs = some (bs', len) ∧
      ∀ m, bytesOf m bs'.reverse = (bytesOf m bs.reverse).take (sizesOf bs - len) := by
  obtain ⟨pre, b, post, k, rfl, rfl, hk, hl⟩ := trimLoop_spec false hpos hle
  refine ⟨_, hl, fun m => ?_⟩
  have hn : sizesOf (pre ++ b :: post) - (sizesOf pre + k)
      = (bytesOf m post.reverse).length + (b.size - k) := by
    rw [sizesOf_append, sizesOf_cons, length_bytesOf, sizesOf_reverse]
    omega
  simp only [reverse_append, reverse_cons, append_assoc, bytesOf_append, bytesOf_cons,
    bytesOf_nil, append_nil, ← map_reverse, bytesOf_map_netblockTrim]
  rw [hn, take_length_add_append, bytes_netblockTrim_tail,
    take_append_of_le_length (by rw [length_bytes]; omega)]

theorem sizesOf_of_bytesOf {l : Memory → List UInt8}
    (h : ∀ m, bytesOf m bs = l m) (m : Memory) : sizesOf bs = (l m).length := by
  rw [← h m, length_bytesOf]

/-- **A trim cuts off the bytes it is asked to, or all of them**: the buffer behind it is valid, and
its content is the rest. -/
theorem netbufTrim_spec (h : nbuf.Valid) (len : ℕ) (fromHead : Bool) :
    ∃ nbuf', netbufTrim nbuf len fromHead = some (nbuf', min len nbuf.totalSize) ∧ nbuf'.Valid ∧
      ∀ m, nbuf'.content m = if fromHead then (nbuf.content m).drop len
        else (nbuf.content m).take (nbuf.totalSize - len) := by
  have hlen := h.length_content
  have ht := h.totalSize_eq
  have hlt := h.totalSize_lt
  unfold netbufTrim
  by_cases hnone : len = 0 ∨ nbuf.totalSize = 0
  · refine ⟨nbuf, ?_, h, fun m => ?_⟩
    · rw [if_pos hnone]
      congr 2
      omega
    · have ha := hlen m
      cases fromHead with
      | true =>
        rcases hnone with hz | hempty
        · rw [hz, if_pos rfl, drop_zero]
        · rw [if_pos rfl, length_eq_zero_iff.mp (ha.trans hempty), drop_nil]
      | false =>
        rw [if_neg Bool.false_ne_true, take_of_length_le (by omega)]
  · have hc : (if len > nbuf.totalSize then nbuf.totalSize else len) = min len nbuf.totalSize := by
      split <;> omega
    rw [if_neg hnone]
    rw [hc]
    cases fromHead with
    | true =>
      obtain ⟨bs', hl, hb⟩ := trimLoop_head (show 0 < min len nbuf.totalSize by omega)
        (show _ ≤ sizesOf nbuf.blockOp by omega)
      refine ⟨⟨bs', nbuf.totalSize - min len nbuf.totalSize⟩, by rw [if_pos rfl, hl]; rfl,
        ⟨?_, by show _ - _ < _; omega⟩, fun m => ?_⟩
      · have hs := sizesOf_of_bytesOf hb fun _ => 0
        rw [length_drop, length_bytesOf, ← ht] at hs
        exact hs.symm
      · have ha := hlen m
        rw [if_pos rfl]
        refine (hb m).trans ?_
        change (nbuf.content m).drop _ = _
        rcases Nat.le_total len nbuf.totalSize with hle | hle
        · rw [min_eq_left hle]
        · rw [min_eq_right hle, drop_eq_nil_of_le (le_of_eq ha),
            drop_eq_nil_of_le (by omega)]
    | false =>
      obtain ⟨bs', hl, hb⟩ := trimLoop_tail (show 0 < min len nbuf.totalSize by omega)
        (show _ ≤ sizesOf nbuf.blockOp.reverse by rw [sizesOf_reverse]; omega)
      rw [reverse_reverse, sizesOf_reverse] at hb
      refine ⟨⟨bs'.reverse, nbuf.totalSize - min len nbuf.totalSize⟩,
        by rw [if_neg Bool.false_ne_true, hl]; rfl, ⟨?_, by show _ - _ < _; omega⟩, fun m => ?_⟩
      · have hs := sizesOf_of_bytesOf hb fun _ => 0
        rw [length_take, length_bytesOf] at hs
        show _ - _ = sizesOf bs'.reverse
        omega
      · refine (hb m).trans ?_
        congr 1
        omega

end Trim

/-! ## The slice that a fragment is -/

section Fragment

variable {m : Memory} {bs : List NetBlockOp} {nbuf : NetBuf} {offset len cur : ℕ}

/-- The first search finds the block with the byte at `Offset`. -/
theorem seekFirst_spec (index : ℕ) (hs : cur + sizesOf bs < 2 ^ 32) (hc : cur ≤ offset)
    (ho : offset < cur + sizesOf bs) :
    ∃ pre b post, bs = pre ++ b :: post ∧
      seekFirst offset bs index cur = (index + pre.length, cur + sizesOf pre) ∧
      cur + sizesOf pre ≤ offset ∧ offset < cur + sizesOf pre + b.size := by
  induction bs generalizing cur index with
  | nil =>
    rw [sizesOf_nil] at ho
    omega
  | cons b bs ih =>
    rw [sizesOf_cons] at hs ho
    rw [seekFirst, add32_of_lt (by omega)]
    by_cases hh : offset < cur + b.size
    · refine ⟨[], b, bs, rfl, ?_, ?_, ?_⟩
      · rw [if_pos hh]
        rfl
      · exact hc
      · exact hh
    · obtain ⟨pre, b', post, rfl, hse, hle, hlt⟩ :=
        ih (index + 1) (show cur + b.size + _ < _ by omega) (by omega) (by omega)
      refine ⟨b :: pre, b', post, rfl, ?_, ?_, ?_⟩
      · rw [if_neg hh, hse, sizesOf_cons, length_cons, add_assoc, add_assoc,
          add_comm 1]
      · rwa [sizesOf_cons, ← add_assoc]
      · rwa [sizesOf_cons, ← add_assoc]

theorem seekLast_eq (index : ℕ) (hs : cur + sizesOf bs < 2 ^ 32) (hc : cur < len)
    (hl : len ≤ cur + sizesOf bs) :
    seekLast len bs index cur = (seekFirst (len - 1) bs index cur).map id (len - ·) := by
  induction bs generalizing cur index with
  | nil =>
    rw [sizesOf_nil] at hl
    omega
  | cons b bs ih =>
    rw [sizesOf_cons] at hs hl
    rw [seekLast, seekFirst, add32_of_lt (by omega)]
    by_cases hh : len ≤ cur + b.size
    · rw [if_pos hh, if_pos (by omega), sub32_of_le (by omega) (by omega)]
      rfl
    · rw [if_neg hh, if_neg (by omega), ih (index + 1) (by omega) (by omega) (by omega)]

theorem seekLast_spec (index : ℕ) (hs : cur + sizesOf bs < 2 ^ 32) (hc : cur < len)
    (hl : len ≤ cur + sizesOf bs) :
    ∃ mid c post, bs = mid ++ c :: post ∧
      seekLast len bs index cur = (index + mid.length, len - (cur + sizesOf mid)) ∧
      cur + sizesOf mid < len ∧ len ≤ cur + sizesOf mid + c.size := by
  obtain ⟨mid, c, post, rfl, hse, hle, hlt⟩ :=
    seekFirst_spec index hs (show cur ≤ len - 1 by omega) (by omega)
  refine ⟨mid, c, post, rfl, ?_, by omega, by omega⟩
  rw [seekLast_eq index hs hc hl, hse]
  rfl

theorem bytesOf_map_netbufSetBlockOp (m : Memory) (bs : List NetBlockOp) :
    bytesOf m (bs.map fun b => netbufSetBlockOp b.head b.size) = bytesOf m bs := by
  induction bs with
  | nil => rfl
  | cons b bs ih =>
    rw [map_cons, bytesOf_cons, ih]
    rfl

theorem take_parts {α : Type*} {A B C D : List α} {k : ℕ} (hk : k ≤ C.length) :
    (A ++ (B ++ (C ++ D))).take (A.length + (B.length + k)) = A ++ (B ++ C.take k) := by
  rw [take_length_add_append, take_length_add_append, take_append_of_le_length hk]

/-- A slice that starts in the block behind `pre`. -/
theorem drop_bytesOf {pre post : List NetBlockOp} {b : NetBlockOp} (hle : sizesOf pre ≤ offset)
    (hlt : offset < sizesOf pre + b.size) :
    (bytesOf m (pre ++ b :: post)).drop offset
      = bytesAt m (b.head + (offset - sizesOf pre)) (b.size - (offset - sizesOf pre))
        ++ bytesOf m post := by
  rw [bytesOf_append, bytesOf_cons, drop_append, length_bytesOf,
    drop_eq_nil_of_le (by rwa [length_bytesOf]), nil_append, drop_append,
    length_bytes, Nat.sub_eq_zero_of_le (by omega : offset - sizesOf pre ≤ b.size), drop_zero,
    NetBlockOp.bytes, drop_bytesAt (by omega)]

theorem netbufGetFragment_blocks (h : nbuf.Valid) (hpos : 0 < len)
    (hle : offset + len ≤ nbuf.totalSize) (he : ℕ) (alloc : FragmentAlloc) :
    ∃ blocks, netbufGetFragment nbuf offset len he alloc
        = some (allocFragment he len alloc blocks) ∧
      ∀ m, bytesOf m blocks = ((nbuf.content m).drop offset).take len := by
  have ht := h.totalSize_eq
  have hlt := h.totalSize_lt
  obtain ⟨pre, b, post, hsp, hse, hc, hin⟩ :=
    seekFirst_spec 0 (show 0 + sizesOf nbuf.blockOp < 2 ^ 32 by omega) (Nat.zero_le offset)
      (by omega)
  simp only [Nat.zero_add] at hse hc hin
  have hfi : nbuf.blockOp[pre.length]? = some b := by
    rw [hsp, List.getElem?_append_right (Nat.le_refl _), Nat.sub_self]
    rfl
  have hsi : sizesOf nbuf.blockOp = sizesOf pre + (b.size + sizesOf post) := by
    rw [hsp, sizesOf_append, sizesOf_cons]
  have hsk : sub32 offset (sizesOf pre) = offset - sizesOf pre := sub32_of_le (by omega) hc
  have hf : sub32 b.size (offset - sizesOf pre) = b.size - (offset - sizesOf pre) :=
    sub32_of_le (by omega) (by omega)
  have ha : add32 offset len = offset + len := add32_of_lt (by omega)
  have hco : ∀ m, (nbuf.content m).drop offset
      = bytesAt m (b.head + (offset - sizesOf pre)) (b.size - (offset - sizesOf pre))
        ++ bytesOf m post := by
    intro m
    rw [NetBuf.content, hsp]
    exact drop_bytesOf hc hin
  unfold netbufGetFragment
  rw [ha, if_neg (by omega), hse]
  dsimp only
  rw [hfi]
  dsimp only
  rw [hsk, hf]
  by_cases ho : len > b.size - (offset - sizesOf pre)
  · have hd : nbuf.blockOp.drop (pre.length + 1) = post := by
      rw [hsp, drop_append, drop_eq_nil_of_le (by omega), Nat.add_sub_cancel_left]
      rfl
    rw [if_pos ho, if_pos ho, hd, add32_of_lt (by omega)]
    obtain ⟨mid, c, post', rfl, hlast, hlt', hle'⟩ := seekLast_spec (pre.length + 1)
      (show sizesOf pre + b.size + sizesOf post < 2 ^ 32 by omega)
      (show sizesOf pre + b.size < offset + len by omega) (by omega)
    rw [hlast]
    rw [if_neg (by omega)]
    refine ⟨_, rfl, fun m => ?_⟩
    have hm : (nbuf.blockOp.drop (pre.length + 1)).take
        (pre.length + 1 + mid.length - (pre.length + 1)) = mid := by
      rw [hd, Nat.add_sub_cancel_left, take_left]
    have hl : nbuf.blockOp[pre.length + 1 + mid.length]? = some c := by
      rw [← List.getElem?_drop, hd, List.getElem?_append_right (Nat.le_refl _), Nat.sub_self]
      rfl
    -- the slice ends inside `c`: the blocks up to it are whole
    have hs := take_parts
      (A := bytesAt m (b.head + (offset - sizesOf pre)) (b.size - (offset - sizesOf pre)))
      (B := bytesOf m mid) (D := bytesOf m post')
      (show offset + len - (sizesOf pre + b.size + sizesOf mid) ≤ (c.bytes m).length by
        rw [length_bytes]; omega)
    rw [length_bytesAt, length_bytesOf, show b.size - (offset - sizesOf pre) +
      (sizesOf mid + (offset + len - (sizesOf pre + b.size + sizesOf mid))) = len by omega] at hs
    rw [hco, bytesOf_append, bytesOf_cons, hs, NetBlockOp.bytes, take_bytesAt (by omega),
      fragmentBlocks, hm, if_pos (by omega), hl]
    simp only [Option.toList_some, map_cons, map_nil, cons_append, bytesOf_cons,
      bytesOf_append, bytesOf_nil, append_nil, bytes_netbufSetBlockOp,
      bytesOf_map_netbufSetBlockOp]
  · rw [if_neg ho, if_neg ho]
    rw [if_neg (by omega)]
    refine ⟨_, rfl, fun m => ?_⟩
    rw [hco, fragmentBlocks, if_neg (by simp), Nat.sub_eq_zero_of_le (Nat.le_succ _),
      take_zero, map_nil, append_nil, bytesOf_cons, bytesOf_nil, append_nil,
      bytes_netbufSetBlockOp, take_append_of_le_length (by rw [length_bytesAt]; omega),
      take_bytesAt (by omega)]

/-- **A fragment is the slice it is asked for**, with any head space in front of it. -/
theorem netbufGetFragment_spec (h : nbuf.Valid) (hpos : 0 < len)
    (hle : offset + len ≤ nbuf.totalSize) {he : ℕ} {alloc : FragmentAlloc}
    (hst : alloc.struct = true) (hb : he ≠ 0 → alloc.firstBulk.isSome = true) :
    ∃ child, netbufGetFragment nbuf offset len he alloc = some (some child) ∧ child.Valid ∧
      ∀ m, child.content m = ((nbuf.content m).drop offset).take len := by
  obtain ⟨blocks, hbl, hby⟩ := netbufGetFragment_blocks h hpos hle he alloc
  have hlt := h.totalSize_lt
  have hsi : sizesOf blocks = len := by
    have := sizesOf_of_bytesOf hby fun _ => 0
    rw [length_take, length_drop, h.length_content] at this
    omega
  rw [hbl]
  unfold allocFragment
  by_cases hs : he ≠ 0
  · obtain ⟨bulk, hso⟩ := isSome_iff_exists.mp (hb hs)
    refine ⟨⟨headSpaceBlock bulk he :: blocks, len⟩, ?_, ⟨?_, ?_⟩, fun m => ?_⟩
    · rw [if_pos hs, hst, hso]
    · rw [sizesOf_cons, hsi]
      exact (zero_add len).symm
    · show len < 2 ^ 32
      omega
    · show bytesOf m (_ :: blocks) = _
      rw [bytesOf_cons, hby, bytes_of_size_zero rfl, nil_append]
  · refine ⟨⟨blocks, len⟩, ?_, ⟨hsi.symm, show len < 2 ^ 32 by omega⟩, hby⟩
    rw [if_neg hs, hst, if_pos rfl]

end Fragment

end Edk2.Net
