import Edk2.Base
import Edk2.Lib.Bytes

/-!
# Base64

`Base64Encode` and `Base64Decode` of `String.c`, over a memory: both read an array and write another
one. The decoder takes one character at a time and keeps the bits of the current quantum that no
octet has taken yet; white space may stand anywhere, and the octets are counted whether they are
stored or not.

## Main results

* `base64Encode_text`: the encoder writes the text of its source and a terminator
* `decodeChar_decoded`, `decodeRun_decoded`: one character, and any number of them, keep `Decoded`
* `decodeRun_text`: the text of a byte string is taken to its end
* `base64Decode_cases`: what the decoder returns and writes, for any arguments
-/

namespace Edk2.Base64

open List Option

/-! ## The text of a byte string -/

def encodingTable : List UInt8 :=
  "ABCDEFGHIJKLMNOPQRSTUVWXYZabcdefghijklmnopqrstuvwxyz0123456789+/".toList.map
    fun c => UInt8.ofNat c.toNat

/-- `EncodingTable[Index]`. -/
def encodingChar (index : ℕ) : UInt8 := encodingTable.getD index 0

def padChar : UInt8 := 0x3D

/-- **The text of a byte string**: four characters for each three bytes, the last quantum padded and
its unused bits zero. -/
def base64Text : List UInt8 → List UInt8
  | [] => []
  | [a] => [encodingChar (a.toNat / 4), encodingChar (a.toNat % 4 * 16), padChar, padChar]
  | [a, b] =>
    [encodingChar (a.toNat / 4), encodingChar (a.toNat % 4 * 16 + b.toNat / 16),
      encodingChar (b.toNat % 16 * 4), padChar]
  | a :: b :: c :: rest =>
    encodingChar (a.toNat / 4) :: encodingChar (a.toNat % 4 * 16 + b.toNat / 16) ::
      encodingChar (b.toNat % 16 * 4 + c.toNat / 64) :: encodingChar (c.toNat % 64) ::
      base64Text rest

theorem length_base64Text (bs : List UInt8) : (base64Text bs).length = (bs.length + 2) / 3 * 4 := by
  fun_induction base64Text bs with
  | case1 => rfl
  | case2 => simp
  | case3 => simp
  | case4 a b c rest ih =>
    simp only [length_cons, ih]
    omega

theorem base64Text_append {q : List UInt8} (hq : q.length % 3 = 0) (bs : List UInt8) :
    base64Text (q ++ bs) = base64Text q ++ base64Text bs := by
  fun_induction base64Text q with
  | case1 => rfl
  | case2 => simp at hq
  | case3 => simp at hq
  | case4 a b c rest ih =>
    have hr : rest.length % 3 = 0 := by
      simp only [length_cons] at hq
      omega
    simp only [cons_append, base64Text, ih hr]

/-! ## The alphabet -/

/-- The six bits of a character of the alphabet. A `CHAR8` may be signed; the characters from `0x80`
on are then negative, and outside the alphabet just the same. -/
def base64Value (c : UInt8) : Option ℕ :=
  if 0x41 ≤ c ∧ c ≤ 0x5A then some (c.toNat - 0x41)
  else if 0x61 ≤ c ∧ c ≤ 0x7A then some (26 + (c.toNat - 0x61))
  else if 0x30 ≤ c ∧ c ≤ 0x39 then some (52 + (c.toNat - 0x30))
  else if c = 0x2B then some 62
  else if c = 0x2F then some 63
  else none

/-- The characters the decoder skips. -/
def isWhitespace (c : UInt8) : Bool :=
  c == 0x09 || c == 0x0A || c == 0x0B || c == 0x0C || c == 0x0D || c == 0x20

/-- The characters the decoder looks at. -/
def withoutWhitespace (cs : List UInt8) : List UInt8 := cs.filter fun c => !isWhitespace c

theorem base64Value_encodingChar {v : ℕ} (hv : v < 64) : base64Value (encodingChar v) = some v := by
  have h : ∀ v : Fin 64, base64Value (encodingChar v) = some v.val := by decide +kernel
  exact h ⟨v, hv⟩

theorem isWhitespace_encodingChar {v : ℕ} (hv : v < 64) : isWhitespace (encodingChar v) = false := by
  have h : ∀ v : Fin 64, isWhitespace (encodingChar v) = false := by decide +kernel
  exact h ⟨v, hv⟩

theorem encodingChar_of_base64Value {c : UInt8} {v : ℕ} (h : base64Value c = some v) :
    v < 64 ∧ c = encodingChar v := by
  have ha : ∀ b : Fin 256, ∀ v ∈ base64Value (UInt8.ofNat b), v < 64 ∧
      UInt8.ofNat b = encodingChar v := by decide +kernel
  have := ha ⟨c.toNat, c.toNat_lt⟩ v
  simp only [UInt8.ofNat_toNat] at this
  exact this h

/-! ## The encoder -/

/-- What a call returns: the status, the memory and `*DestinationSize`. -/
structure Base64Result where
  status : EfiStatus
  memory : Memory
  destinationSize : Option ℕ

def maxAddress : ℕ := 2 ^ 64 - 1

/-- `*Destination++ = Value`: the memory and the pointer. -/
def put (o : Memory × ℕ) (value : UInt8) : Memory × ℕ := (Function.update o.1 o.2 value, o.2 + 1)

/-- `(Source[0] & 0xfc) >> 2`. -/
def index0 (b0 : UInt8) : ℕ := (b0.toNat &&& 0xfc) >>> 2

/-- `((Source[0] & 0x03) << 4) + ((Source[1] & 0xf0) >> 4)`. -/
def index1 (b0 b1 : UInt8) : ℕ := ((b0.toNat &&& 0x03) <<< 4) + ((b1.toNat &&& 0xf0) >>> 4)

/-- `((Source[1] & 0x0f) << 2) + ((Source[2] & 0xc0) >> 6)`. -/
def index2 (b1 b2 : UInt8) : ℕ := ((b1.toNat &&& 0x0f) <<< 2) + ((b2.toNat &&& 0xc0) >>> 6)

/-- `Source[2] & 0x3f`. -/
def index3 (b2 : UInt8) : ℕ := b2.toNat &&& 0x3f

/-- One round of the loop: three bytes, four characters. -/
def encodeQuantum (o : Memory × ℕ) (source : ℕ) : Memory × ℕ :=
  let o := put o (encodingChar (index0 (o.1 source)))
  let o := put o (encodingChar (index1 (o.1 source) (o.1 (source + 1))))
  let o := put o (encodingChar (index2 (o.1 (source + 1)) (o.1 (source + 2))))
  put o (encodingChar (index3 (o.1 (source + 2))))

/-- The loop and the remainder: one byte is followed by two padding characters, two by one. -/
def encodeLoop (o : Memory × ℕ) (source : ℕ) : ℕ → Memory × ℕ
  | 0 => o
  | 1 =>
    let o := put o (encodingChar (index0 (o.1 source)))
    let o := put o (encodingChar (((o.1 source).toNat &&& 0x03) <<< 4))
    put (put o padChar) padChar
  | 2 =>
    let o := put o (encodingChar (index0 (o.1 source)))
    let o := put o (encodingChar (index1 (o.1 source) (o.1 (source + 1))))
    let o := put o (encodingChar (((o.1 (source + 1)).toNat &&& 0x0f) <<< 2))
    put o padChar
  | left + 3 => encodeLoop (encodeQuantum o source) (source + 3) left

/-- `RequiredSize`, in 64-bit arithmetic. -/
def requiredSize (sourceLength : ℕ) : ℕ := add64 (add64 sourceLength 2 / 3 * 4 % 2 ^ 64) 1

/-- `Base64Encode`. A pointer is its address, `NULL` is zero; `destinationSize` is `none` for a
`NULL` pointer and else the value it points to. -/
def base64Encode (m : Memory) (source sourceLength destination : ℕ)
    (destinationSize : Option ℕ) : Base64Result :=
  match destinationSize with
  | none => ⟨.invalidParameter, m, none⟩
  | some size =>
    if source = 0 then ⟨.invalidParameter, m, some size⟩
    else if sourceLength = 0 then
      if size < 1 then ⟨.bufferTooSmall, m, some 1⟩
      else ⟨.success, Function.update m destination 0, some 1⟩
    else if maxAddress - source ≤ sourceLength ∨ maxAddress - destination ≤ size then
      ⟨.invalidParameter, m, some size⟩
    else if destination = 0 ∨ size < requiredSize sourceLength then
      ⟨.bufferTooSmall, m, some (requiredSize sourceLength)⟩
    else
      let o := encodeLoop (m, destination) source sourceLength
      ⟨.success, Function.update o.1 o.2 0, some size⟩

theorem index0_eq (b : UInt8) : index0 b = b.toNat / 4 := by
  have h : ∀ b : Fin 256, index0 (UInt8.ofNat b) = b.val / 4 := by decide +kernel
  simpa using h ⟨b.toNat, b.toNat_lt⟩

theorem and_three_shiftLeft (b : UInt8) : (b.toNat &&& 0x03) <<< 4 = b.toNat % 4 * 16 := by
  rw [Nat.shiftLeft_eq, Nat.and_two_pow_sub_one_eq_mod b.toNat 2]

theorem and_fifteen_shiftLeft (b : UInt8) : (b.toNat &&& 0x0f) <<< 2 = b.toNat % 16 * 4 := by
  rw [Nat.shiftLeft_eq, Nat.and_two_pow_sub_one_eq_mod b.toNat 4]

theorem index1_eq (b0 b1 : UInt8) : index1 b0 b1 = b0.toNat % 4 * 16 + b1.toNat / 16 := by
  have h : ∀ b : Fin 256, (b.val &&& 0xf0) >>> 4 = b.val / 16 := by decide +kernel
  rw [index1, and_three_shiftLeft, h ⟨b1.toNat, b1.toNat_lt⟩]

theorem index2_eq (b1 b2 : UInt8) : index2 b1 b2 = b1.toNat % 16 * 4 + b2.toNat / 64 := by
  have h : ∀ b : Fin 256, (b.val &&& 0xc0) >>> 6 = b.val / 64 := by decide +kernel
  rw [index2, and_fifteen_shiftLeft, h ⟨b2.toNat, b2.toNat_lt⟩]

theorem index3_eq (b : UInt8) : index3 b = b.toNat % 64 :=
  Nat.and_two_pow_sub_one_eq_mod b.toNat 6

theorem put_storeBytes (m : Memory) (a : ℕ) (bs : List UInt8) (v : UInt8) :
    put (storeBytes m a bs, a + bs.length) v
      = (storeBytes m a (bs ++ [v]), a + (bs ++ [v]).length) := by
  rw [put, update_storeBytes, length_append, length_singleton, add_assoc]

variable {bs : List UInt8} {a n source : ℕ}

section Encode

variable {m : Memory} {destination : ℕ}

theorem storeBytes_of_outside {x : ℕ} (h : x < a ∨ a + n ≤ x)
    (hn : bs.length ≤ n) : storeBytes m a bs x = m x := by
  rcases h with h | h
  · exact storeBytes_of_lt h
  · exact storeBytes_of_le (by omega)

theorem encodeLoop_text : ∀ (left source : ℕ) (bs : List UInt8),
    (∀ i < left, source + i < destination ∨ destination + n ≤ source + i) →
    bs.length + (left + 2) / 3 * 4 ≤ n →
    encodeLoop (storeBytes m destination bs, destination + bs.length) source left
      = (storeBytes m destination (bs ++ base64Text (bytesAt m source left)),
        destination + (bs ++ base64Text (bytesAt m source left)).length)
  | 0, source, bs, _, _ => by simp [encodeLoop, bytesAt, base64Text]
  | 1, source, bs, hout, hn => by
    have h0 l (h : l.length ≤ n) : storeBytes m destination l source = m source :=
      storeBytes_of_outside (hout 0 (by omega)) h
    simp only [encodeLoop, put_storeBytes]
    rw [h0 _ (by omega), h0 _ (by simp; omega), index0_eq, and_three_shiftLeft]
    simp [bytesAt, base64Text]
  | 2, source, bs, hout, hn => by
    have h0 l (h : l.length ≤ n) : storeBytes m destination l source = m source :=
      storeBytes_of_outside (hout 0 (by omega)) h
    have h1 l (h : l.length ≤ n) : storeBytes m destination l (source + 1) = m (source + 1) :=
      storeBytes_of_outside (hout 1 (by omega)) h
    simp only [encodeLoop, put_storeBytes]
    rw [h0 _ (by omega), h0 _ (by simp; omega), h1 _ (by simp; omega), h1 _ (by simp; omega),
      index0_eq, index1_eq, and_fifteen_shiftLeft]
    simp [bytesAt, base64Text]
  | left + 3, source, bs, hout, hn => by
    have h0 l (h : l.length ≤ n) : storeBytes m destination l source = m source :=
      storeBytes_of_outside (hout 0 (by omega)) h
    have h1 l (h : l.length ≤ n) : storeBytes m destination l (source + 1) = m (source + 1) :=
      storeBytes_of_outside (hout 1 (by omega)) h
    have h2 l (h : l.length ≤ n) : storeBytes m destination l (source + 2) = m (source + 2) :=
      storeBytes_of_outside (hout 2 (by omega)) h
    rw [encodeLoop]
    simp only [encodeQuantum, put_storeBytes]
    rw [h0 _ (by omega), h0 _ (by simp; omega), h1 _ (by simp; omega), h1 _ (by simp; omega),
      h2 _ (by simp; omega), h2 _ (by simp; omega), index0_eq, index1_eq, index2_eq, index3_eq]
    have hr := encodeLoop_text left (source + 3)
      (bs ++ [encodingChar ((m source).toNat / 4)]
        ++ [encodingChar ((m source).toNat % 4 * 16 + (m (source + 1)).toNat / 16)]
        ++ [encodingChar ((m (source + 1)).toNat % 16 * 4 + (m (source + 2)).toNat / 64)]
        ++ [encodingChar ((m (source + 2)).toNat % 64)])
      (fun i hi => by
        have := hout (i + 3) (by omega)
        rwa [add_comm i 3, ← add_assoc] at this)
      (by simp; omega)
    rw [hr]
    simp [bytesAt, base64Text, add_assoc]

/-- **The encoder writes the text of its source and a terminator**, if the text has room and the two
arrays are apart. -/
theorem base64Encode_text {sourceLength size : ℕ} (hs : source ≠ 0)
    (hse : source + sourceLength < maxAddress) (hd : destination ≠ 0)
    (hde : destination + size < maxAddress)
    (hr : (base64Text (bytesAt m source sourceLength)).length + 1 ≤ size)
    (hapart : source + sourceLength ≤ destination ∨ destination + size ≤ source) :
    base64Encode m source sourceLength destination (some size)
      = ⟨.success, storeBytes m destination (base64Text (bytesAt m source sourceLength) ++ [0]),
        some (if sourceLength = 0 then 1 else size)⟩ := by
  rw [length_base64Text, length_bytesAt] at hr
  unfold base64Encode
  dsimp only
  rw [if_neg hs]
  have ht := update_storeBytes m destination (base64Text (bytesAt m source sourceLength)) 0
  by_cases hz : sourceLength = 0
  · subst hz
    rw [if_pos rfl, if_neg (by omega)]
    simp only [bytesAt, base64Text, storeBytes_nil, length_nil, add_zero] at ht
    rw [ht]
    rfl
  · have hre : requiredSize sourceLength = (sourceLength + 2) / 3 * 4 + 1 := by
      unfold maxAddress at hde
      have ha : add64 sourceLength 2 = sourceLength + 2 := add64_of_lt (by omega)
      rw [requiredSize, ha, Nat.mod_eq_of_lt (by omega), add64_of_lt (by omega)]
    have hl : encodeLoop (storeBytes m destination [], destination + [].length) source
        sourceLength = _ :=
      encodeLoop_text (n := size) sourceLength source [] (fun i hi => by omega) (by simp; omega)
    simp only [storeBytes_nil, length_nil, add_zero, nil_append] at hl
    rw [if_neg hz, if_neg (by omega), if_neg (by omega), if_neg hz, hl, ht]

end Encode

/-! ## The decoder -/

/-- The variables of the decoding loop. -/
structure DecodeState where
  paddingMode : Bool
  sixBitGroupsConsumed : ℕ
  accumulator : ℕ
  destinationSize : ℕ
  memory : Memory

/-- An octet is stored if there is room left, and counted in any case. -/
def spill (destination originalDestinationSize : ℕ) (s : DecodeState) (octet : UInt8) :
    DecodeState :=
  { s with
    memory :=
      if s.destinationSize < originalDestinationSize then
        Function.update s.memory (destination + s.destinationSize) octet
      else s.memory
    destinationSize := s.destinationSize + 1 }

/-- A character of the alphabet: its six bits go to the accumulator, and an octet is spilled. -/
def feed (destination originalDestinationSize : ℕ) (s : DecodeState) (base64Value : ℕ) :
    DecodeState :=
  let accumulator := (s.accumulator <<< 6) % 2 ^ 32 ||| base64Value
  match s.sixBitGroupsConsumed + 1 with
  | 1 => { s with accumulator := accumulator, sixBitGroupsConsumed := 1 }
  | 2 =>
    spill destination originalDestinationSize
      { s with accumulator := accumulator &&& 0xF, sixBitGroupsConsumed := 2 }
      (UInt8.ofNat (accumulator >>> 4))
  | 3 =>
    spill destination originalDestinationSize
      { s with accumulator := accumulator &&& 0x3, sixBitGroupsConsumed := 3 }
      (UInt8.ofNat (accumulator >>> 2))
  | _ =>
    spill destination originalDestinationSize
      { s with accumulator := 0, sixBitGroupsConsumed := 0 } (UInt8.ofNat accumulator)

/-- The first padding character of a quantum: the groups that count as consumed behind it, if it may
stand there. -/
def padGroups : ℕ → Option ℕ
  | 2 => some 3
  | 3 => some 0
  | _ => none

/-- One character. An error is `RETURN_INVALID_PARAMETER`, with the variables at that point. -/
def decodeChar (destination originalDestinationSize : ℕ) (s : DecodeState) (sourceChar : UInt8) :
    Except DecodeState DecodeState :=
  if isWhitespace sourceChar then .ok s
  else if s.paddingMode then
    if sourceChar = padChar ∧ s.sixBitGroupsConsumed = 3 then
      .ok { s with sixBitGroupsConsumed := 0 }
    else .error s
  else
    match base64Value sourceChar with
    | some value => .ok (feed destination originalDestinationSize s value)
    | none =>
      if sourceChar = padChar then
        match padGroups s.sixBitGroupsConsumed with
        | none => .error s
        | some groups =>
          if s.accumulator ≠ 0 then .error s
          else .ok { s with paddingMode := true, sixBitGroupsConsumed := groups }
      else .error s

/-- The decoding loop, over the characters from index 0 on. -/
def decodeLoop (source destination originalDestinationSize sourceSize : ℕ) (s : DecodeState) :
    Except DecodeState DecodeState :=
  (List.range sourceSize).foldlM
    (fun s sourceIndex =>
      decodeChar destination originalDestinationSize s (s.memory (source + sourceIndex))) s

def sourceValid (source sourceSize : ℕ) : Bool :=
  if source = 0 then sourceSize = 0 else sourceSize ≤ maxAddress - source

def destinationValid (destination destinationSize : ℕ) : Bool :=
  if destination = 0 then destinationSize = 0 else destinationSize ≤ maxAddress - destination

/-- Whether two arrays that are given overlap. -/
def overlap (source sourceSize destination destinationSize : ℕ) : Bool :=
  source ≠ 0 ∧ destination ≠ 0 ∧ ¬ source + sourceSize ≤ destination ∧
    ¬ destination + destinationSize ≤ source

def base64Decode (m : Memory) (source sourceSize destination : ℕ)
    (destinationSize : Option ℕ) : Base64Result :=
  match destinationSize with
  | none => ⟨.invalidParameter, m, none⟩
  | some size =>
    if ¬ sourceValid source sourceSize then ⟨.invalidParameter, m, some size⟩
    else if ¬ destinationValid destination size then ⟨.invalidParameter, m, some size⟩
    else if overlap source sourceSize destination size then ⟨.invalidParameter, m, some size⟩
    else
      match decodeLoop source destination size sourceSize ⟨false, 0, 0, 0, m⟩ with
      | .error s => ⟨.invalidParameter, s.memory, some s.destinationSize⟩
      | .ok s =>
        if s.sixBitGroupsConsumed ≠ 0 then ⟨.invalidParameter, s.memory, some s.destinationSize⟩
        else if s.destinationSize ≤ size then ⟨.success, s.memory, some s.destinationSize⟩
        else ⟨.bufferTooSmall, s.memory, some s.destinationSize⟩

/-- What the decoder's variables say about the characters `w` it has looked at and the octets `out`
it has spilled: whole quanta, and the groups of the current one. -/
inductive Quantum : List UInt8 → List UInt8 → Bool → ℕ → ℕ → Prop
  | whole {q : List UInt8} (hq : q.length % 3 = 0) : Quantum (base64Text q) q false 0 0
  | one {q : List UInt8} (hq : q.length % 3 = 0) {v : ℕ} (hv : v < 64) :
      Quantum (base64Text q ++ [encodingChar v]) q false 1 v
  | two {q : List UInt8} (hq : q.length % 3 = 0) (a : UInt8) {r : ℕ} (hr : r < 16) :
      Quantum (base64Text q ++ [encodingChar (a.toNat / 4), encodingChar (a.toNat % 4 * 16 + r)])
        (q ++ [a]) false 2 r
  | three {q : List UInt8} (hq : q.length % 3 = 0) (a b : UInt8) {r : ℕ} (hr : r < 4) :
      Quantum (base64Text q ++ [encodingChar (a.toNat / 4),
        encodingChar (a.toNat % 4 * 16 + b.toNat / 16), encodingChar (b.toNat % 16 * 4 + r)])
        (q ++ [a, b]) false 3 r
  | padding {q : List UInt8} (hq : q.length % 3 = 0) (a : UInt8) :
      Quantum (base64Text q ++ [encodingChar (a.toNat / 4), encodingChar (a.toNat % 4 * 16),
        padChar]) (q ++ [a]) true 3 0
  | closed (out : List UInt8) : Quantum (base64Text out) out true 0 0

/-- **What the decoding loop maintains**: the quantum, the count, and the octets that fit. -/
structure Decoded (m : Memory) (destination originalDestinationSize : ℕ) (w out : List UInt8)
    (s : DecodeState) : Prop where
  quantum : Quantum w out s.paddingMode s.sixBitGroupsConsumed s.accumulator
  destinationSize_eq : s.destinationSize = out.length
  memory_eq : s.memory = storeBytes m destination (out.take originalDestinationSize)

section Decode

variable {m : Memory} {destination size : ℕ} {s s' : DecodeState} {w out : List UInt8} {c : UInt8}

theorem accumulate {v : ℕ} (ha : a < 64) (hv : v < 64) : (a <<< 6) % 2 ^ 32 ||| v = a * 64 + v := by
  rw [Nat.shiftLeft_eq, Nat.mod_eq_of_lt (by omega), mul_comm a]
  exact (Nat.two_pow_add_eq_or_of_lt hv a).symm

/-- The variables of the loop when the octets `out` were spilled. -/
abbrev spilled (m : Memory) (destination size : ℕ) (pad : Bool) (groups r : ℕ) (out : List UInt8) :
    DecodeState :=
  ⟨pad, groups, r, out.length, storeBytes m destination (out.take size)⟩

variable {groups sourceSize : ℕ}

theorem spill_spilled {pad : Bool} {r : ℕ} (octet : UInt8) :
    spill destination size (spilled m destination size pad groups r out) octet
      = spilled m destination size pad groups r (out ++ [octet]) := by
  simp only [spill, spilled, length_append, length_singleton]
  by_cases hlt : out.length < size
  · rw [if_pos hlt, take_of_length_le hlt.le, update_storeBytes,
      take_of_length_le (by rw [length_append, length_singleton]; omega)]
  · rw [if_neg hlt, take_append_of_le_length (by omega)]

/-! The groups of a quantum, one after the other. -/

section Groups

variable {r v : ℕ}

theorem feed_zero (hv : v < 64) :
    feed destination size (spilled m destination size false 0 0 out) v
      = spilled m destination size false 1 v out := by
  have ha := accumulate (a := 0) (by omega) hv
  rw [zero_mul, zero_add] at ha
  simp only [feed, ha]

theorem feed_one (hr : r < 64) (hv : v < 64) :
    feed destination size (spilled m destination size false 1 r out) v
      = spilled m destination size false 2 (v % 16) (out ++ [UInt8.ofNat (r * 4 + v / 16)]) := by
  have hs : (r * 64 + v) >>> 4 = r * 4 + v / 16 := by
    omega
  have hl : r * 64 + v &&& 0xF = v % 16 := by
    rw [Nat.and_two_pow_sub_one_eq_mod _ 4]
    omega
  simp only [feed, accumulate hr hv, hs, hl]
  exact spill_spilled _

theorem feed_two (hr : r < 16) (hv : v < 64) :
    feed destination size (spilled m destination size false 2 r out) v
      = spilled m destination size false 3 (v % 4) (out ++ [UInt8.ofNat (r * 16 + v / 4)]) := by
  have hs : (r * 64 + v) >>> 2 = r * 16 + v / 4 := by
    omega
  have hl : r * 64 + v &&& 0x3 = v % 4 := by
    rw [Nat.and_two_pow_sub_one_eq_mod _ 2]
    omega
  simp only [feed, accumulate (show r < 64 by omega) hv, hs, hl]
  exact spill_spilled _

theorem feed_three (hr : r < 4) (hv : v < 64) :
    feed destination size (spilled m destination size false 3 r out) v
      = spilled m destination size false 0 0 (out ++ [UInt8.ofNat (r * 64 + v)]) := by
  simp only [feed, accumulate (show r < 64 by omega) hv]
  exact spill_spilled _

end Groups

theorem feed_decoded {v : ℕ} (h : Decoded m destination size w out s) (hp : s.paddingMode = false)
    (hv : v < 64) :
    ∃ out', Decoded m destination size (w ++ [encodingChar v]) out' (feed destination size s v) := by
  obtain ⟨hqu, hs, hmem⟩ := h
  obtain ⟨paddingMode, groups, r, count, memory⟩ := s
  dsimp only at hqu hs hmem hp
  subst hs hmem
  cases hqu with
  | whole hq =>
    rw [feed_zero hv]
    exact ⟨_, .one hq hv, rfl, rfl⟩
  | one hq hr =>
    have ho : (UInt8.ofNat (r * 4 + v / 16)).toNat = r * 4 + v / 16 :=
      UInt8.toNat_ofNat_of_lt' (by show _ < 256; omega)
    rw [feed_one hr hv]
    refine ⟨_, ?_, rfl, rfl⟩
    have hnext := Quantum.two hq (UInt8.ofNat (r * 4 + v / 16)) (Nat.mod_lt v (by omega))
    rw [ho, show (r * 4 + v / 16) / 4 = r by omega,
      show (r * 4 + v / 16) % 4 * 16 + v % 16 = v by omega] at hnext
    simpa only [append_assoc, singleton_append] using hnext
  | two hq a hr =>
    have ho : (UInt8.ofNat (r * 16 + v / 4)).toNat = r * 16 + v / 4 :=
      UInt8.toNat_ofNat_of_lt' (by show _ < 256; omega)
    rw [feed_two hr hv]
    refine ⟨_, ?_, rfl, rfl⟩
    have hnext := Quantum.three hq a (UInt8.ofNat (r * 16 + v / 4)) (Nat.mod_lt v (by omega))
    rw [ho, show (r * 16 + v / 4) / 16 = r by omega,
      show (r * 16 + v / 4) % 16 * 4 + v % 4 = v by omega] at hnext
    simpa only [append_assoc, cons_append, nil_append] using hnext
  | three hq a b hr =>
    rename_i q
    have ho : (UInt8.ofNat (r * 64 + v)).toNat = r * 64 + v :=
      UInt8.toNat_ofNat_of_lt' (by show _ < 256; omega)
    rw [feed_three hr hv]
    refine ⟨_, ?_, rfl, rfl⟩
    have hl : (q ++ [a, b, UInt8.ofNat (r * 64 + v)]).length % 3 = 0 := by
      rw [length_append, length_cons, length_cons, length_singleton]
      omega
    have hnext := Quantum.whole hl
    rw [base64Text_append hq, base64Text, base64Text, ho,
      show (r * 64 + v) / 64 = r by omega, show (r * 64 + v) % 64 = v by omega] at hnext
    simpa only [append_assoc, cons_append, nil_append] using hnext
  | padding => cases hp
  | closed => cases hp

/-- The padding character that opens the padding of a quantum keeps the invariant: the bits it
stands for are zero. -/
theorem openPadding_decoded (h : Decoded m destination size w out s)
    (hg : padGroups s.sixBitGroupsConsumed = some groups) (hz : s.accumulator = 0)
    (hp : s.paddingMode = false) :
    Decoded m destination size (w ++ [padChar]) out
      { s with paddingMode := true, sixBitGroupsConsumed := groups } := by
  obtain ⟨hqu, hs, hmem⟩ := h
  refine ⟨?_, hs, hmem⟩
  obtain ⟨paddingMode, consumed, accumulator, count, memory⟩ := s
  cases hqu with
  | whole => cases hg
  | one => cases hg
  | two hq a =>
    cases hg
    subst hz
    simpa using Quantum.padding hq a
  | three hq a b =>
    cases hg
    subst hz
    rename_i q _
    have hnext := Quantum.closed (q ++ [a, b])
    rw [base64Text_append hq, base64Text] at hnext
    simpa using hnext
  | padding => cases hp
  | closed => cases hp

theorem closePadding_decoded (h : Decoded m destination size w out s) (hp : s.paddingMode = true)
    (hg : s.sixBitGroupsConsumed = 3) :
    Decoded m destination size (w ++ [padChar]) out { s with sixBitGroupsConsumed := 0 } := by
  obtain ⟨hqu, hs, hmem⟩ := h
  refine ⟨?_, hs, hmem⟩
  obtain ⟨paddingMode, consumed, accumulator, count, memory⟩ := s
  cases hqu with
  | padding hq a =>
    rename_i q
    have hnext := Quantum.closed (q ++ [a])
    rw [base64Text_append hq, base64Text] at hnext
    simpa using hnext
  | closed => cases hg
  | whole | one | two | three => cases hp

/-- **One character** keeps the invariant, or is refused and changes nothing. -/
theorem decodeChar_decoded (h : Decoded m destination size w out s) (c : UInt8) :
    decodeChar destination size s c = .error s ∨
      ∃ s' out', decodeChar destination size s c = .ok s' ∧
        Decoded m destination size (w ++ withoutWhitespace [c]) out' s' := by
  unfold decodeChar
  by_cases hw : isWhitespace c = true
  · rw [if_pos hw, show withoutWhitespace [c] = [] by simp [withoutWhitespace, hw], append_nil]
    exact .inr ⟨s, out, rfl, h⟩
  rw [if_neg hw, show withoutWhitespace [c] = [c] by simp [withoutWhitespace, hw]]
  by_cases hp : s.paddingMode = true
  · rw [if_pos hp]
    split
    · rename_i hc
      rw [hc.1]
      exact .inr ⟨_, out, rfl, closePadding_decoded h hp hc.2⟩
    · exact .inl rfl
  rw [if_neg hp]
  have hp : s.paddingMode = false := by simpa using hp
  split
  · rename_i v hv
    obtain ⟨hlt, rfl⟩ := encodingChar_of_base64Value hv
    obtain ⟨out', h'⟩ := feed_decoded h hp hlt
    exact .inr ⟨_, out', rfl, h'⟩
  · split
    · rename_i hch
      split
      · exact .inl rfl
      · rename_i groups hg
        split
        · exact .inl rfl
        · rename_i hz
          rw [hch]
          exact .inr ⟨_, out, rfl, openPadding_decoded h hg (not_not.mp hz) hp⟩
    · exact .inl rfl

/-- The characters `cs`, one after the other. -/
def decodeRun (destination size : ℕ) (cs : List UInt8) (s : DecodeState) :
    Except DecodeState DecodeState :=
  cs.foldlM (decodeChar destination size) s

theorem decodeRun_cons (cs : List UInt8) :
    decodeRun destination size (c :: cs) s
      = (decodeChar destination size s c).bind (decodeRun destination size cs) := rfl

/-- **Any number of characters keep the invariant**, up to the one that is refused. -/
theorem decodeRun_decoded (cs : List UInt8) (h : Decoded m destination size w out s) :
    (∃ s' out', decodeRun destination size cs s = .ok s' ∧
        Decoded m destination size (w ++ withoutWhitespace cs) out' s') ∨
      ∃ s' w' out', decodeRun destination size cs s = .error s' ∧
        Decoded m destination size w' out' s' := by
  induction cs generalizing s w out with
  | nil => exact .inl ⟨s, out, rfl, by rwa [withoutWhitespace, filter_nil, append_nil]⟩
  | cons c cs ih =>
    rw [decodeRun_cons]
    rcases decodeChar_decoded h c with he | ⟨s₁, out₁, he, h₁⟩
    · rw [he]
      exact .inr ⟨s, w, out, rfl, h⟩
    · rw [he]
      have hr := ih h₁
      rwa [append_assoc, withoutWhitespace, withoutWhitespace, ← filter_append] at hr

theorem decoded_start (m : Memory) (destination size : ℕ) :
    Decoded m destination size [] [] ⟨false, 0, 0, 0, m⟩ :=
  ⟨.whole (q := []) rfl, rfl, by rw [take_nil, storeBytes_nil]⟩

theorem decodeRun_encodingChar {v : ℕ} {cs : List UInt8} (hp : s.paddingMode = false)
    (hv : v < 64) :
    decodeRun destination size (encodingChar v :: cs) s
      = decodeRun destination size cs (feed destination size s v) := by
  rw [decodeRun_cons]
  simp [decodeChar, isWhitespace_encodingChar hv, hp, base64Value_encodingChar hv, Except.bind]

section Quanta

variable {r : ℕ} {cs : List UInt8}

theorem decodeRun_two (a : UInt8) (hr : r < 16) :
    decodeRun destination size
        (encodingChar (a.toNat / 4) :: encodingChar (a.toNat % 4 * 16 + r) :: cs)
        (spilled m destination size false 0 0 out)
      = decodeRun destination size cs (spilled m destination size false 2 r (out ++ [a])) := by
  have ha := a.toNat_lt
  rw [decodeRun_encodingChar rfl (by omega), feed_zero (by omega),
    decodeRun_encodingChar rfl (by omega), feed_one (by omega) (by omega),
    show (a.toNat % 4 * 16 + r) % 16 = r by omega,
    show a.toNat / 4 * 4 + (a.toNat % 4 * 16 + r) / 16 = a.toNat by omega, UInt8.ofNat_toNat]

theorem decodeRun_three (a b : UInt8) (hr : r < 4) :
    decodeRun destination size
        (encodingChar (a.toNat / 4) :: encodingChar (a.toNat % 4 * 16 + b.toNat / 16) ::
          encodingChar (b.toNat % 16 * 4 + r) :: cs) (spilled m destination size false 0 0 out)
      = decodeRun destination size cs
        (spilled m destination size false 3 r (out ++ [a] ++ [b])) := by
  have hb := b.toNat_lt
  rw [decodeRun_two a (by omega), decodeRun_encodingChar rfl (by omega),
    feed_two (by omega) (by omega), show (b.toNat % 16 * 4 + r) % 4 = r by omega,
    show b.toNat / 16 * 16 + (b.toNat % 16 * 4 + r) / 4 = b.toNat by omega, UInt8.ofNat_toNat]

end Quanta

/-- **The text of a byte string is taken to its end**, and its octets are spilled. -/
theorem decodeRun_text (bs : List UInt8) :
    ∃ pad, decodeRun destination size (base64Text bs) (spilled m destination size false 0 0 out)
      = .ok (spilled m destination size pad 0 0 (out ++ bs)) := by
  fun_induction base64Text bs generalizing out with
  | case1 =>
    rw [append_nil]
    exact ⟨false, rfl⟩
  | case2 a =>
    have hr := @decodeRun_two m destination size out 0 [padChar, padChar] a (by omega)
    rw [add_zero] at hr
    exact ⟨true, hr⟩
  | case3 a b =>
    have hr := @decodeRun_three m destination size out 0 [padChar] a b (by omega)
    rw [add_zero, append_assoc] at hr
    exact ⟨true, hr⟩
  | case4 a b c rest ih =>
    have hc := c.toNat_lt
    rw [decodeRun_three a b (by omega), decodeRun_encodingChar rfl (by omega),
      feed_three (by omega) (by omega),
      show c.toNat / 64 * 64 + c.toNat % 64 = c.toNat by omega, UInt8.ofNat_toNat]
    have hr := @ih (out ++ [a] ++ [b] ++ [c])
    simpa only [append_assoc, cons_append, nil_append] using hr

theorem decodeLoop_eq
    (hapart : ∀ i < n, source + i < destination ∨ destination + size ≤ source + i) :
    decodeLoop source destination size n ⟨false, 0, 0, 0, m⟩
      = decodeRun destination size (bytesAt m source n) ⟨false, 0, 0, 0, m⟩ := by
  induction n with
  | zero => rfl
  | succ n ih =>
    have hp := ih fun i hi => hapart i (by omega)
    unfold decodeLoop decodeRun at hp ⊢
    rw [range_succ, foldlM_append, hp, bytesAt_add, foldlM_append]
    rcases decodeRun_decoded (bytesAt m source n) (decoded_start m destination size) with
      ⟨s, out, hr, hs⟩ | ⟨s, w, out, hr, -⟩
    · rw [decodeRun] at hr
      have hre : s.memory (source + n) = m (source + n) := by
        rw [hs.memory_eq]
        exact storeBytes_of_outside (hapart n (by omega)) (length_take_le _ _)
      rw [hr]
      show (decodeChar destination size s (s.memory (source + n))).bind _
        = (decodeChar destination size s (m (source + n))).bind _
      rw [hre]
      rfl
    · rw [decodeRun] at hr
      rw [hr]
      rfl

theorem apart_of_checks (hs : sourceValid source sourceSize = true)
    (hd : destinationValid destination size = true)
    (ho : overlap source sourceSize destination size = false) :
    ∀ i < sourceSize, source + i < destination ∨ destination + size ≤ source + i := by
  unfold sourceValid at hs
  unfold destinationValid at hd
  unfold overlap at ho
  rw [decide_eq_false_iff_not] at ho
  by_cases hz : source = 0
  · rw [if_pos hz, decide_eq_true_eq] at hs
    omega
  · by_cases hn : destination = 0
    · rw [if_pos hn, decide_eq_true_eq] at hd
      omega
    · omega

theorem Decoded.text (h : Decoded m destination size w out s) (hg : s.sixBitGroupsConsumed = 0) :
    w = base64Text out := by
  obtain ⟨hq, -, -⟩ := h
  obtain ⟨paddingMode, groups, accumulator, count, memory⟩ := s
  subst hg
  cases hq with
  | whole => rfl
  | closed => rfl

/-- **What the decoder returns**, for any arguments: either it refuses, having written inside its
destination only, or its source is the text of a byte string, whose length it reports and of which
it has written what fits. -/
theorem base64Decode_cases (m : Memory) (source sourceSize destination size : ℕ) :
    ((base64Decode m source sourceSize destination (some size)).status = .invalidParameter ∧
      ∃ out, (base64Decode m source sourceSize destination (some size)).memory
        = storeBytes m destination (List.take size out)) ∨
    ∃ bs, withoutWhitespace (bytesAt m source sourceSize) = base64Text bs ∧
      base64Decode m source sourceSize destination (some size)
        = ⟨if bs.length ≤ size then .success else .bufferTooSmall,
          storeBytes m destination (bs.take size), some bs.length⟩ := by
  have hnone : ∃ out, m = storeBytes m destination (List.take size out) :=
    ⟨[], by rw [take_nil, storeBytes_nil]⟩
  unfold base64Decode
  dsimp only
  by_cases hsr : sourceValid source sourceSize = true
  case neg => exact .inl (by rw [if_pos hsr]; exact ⟨rfl, hnone⟩)
  by_cases hd : destinationValid destination size = true
  case neg => exact .inl (by rw [if_neg (not_not.mpr hsr), if_pos hd]; exact ⟨rfl, hnone⟩)
  rw [if_neg (not_not.mpr hsr), if_neg (not_not.mpr hd)]
  cases ho : overlap source sourceSize destination size with
  | true => exact .inl ⟨rfl, hnone⟩
  | false =>
    rw [if_neg Bool.false_ne_true, decodeLoop_eq (apart_of_checks hsr hd ho)]
    rcases decodeRun_decoded (bytesAt m source sourceSize) (decoded_start m destination size) with
      ⟨s, out, hr, hs⟩ | ⟨s, w, out, hr, hs⟩
    · rw [hr]
      dsimp only
      by_cases hg : s.sixBitGroupsConsumed = 0
      · refine .inr ⟨out, hs.text hg, ?_⟩
        rw [if_neg (not_not.mpr hg), hs.destinationSize_eq, hs.memory_eq]
        split <;> rfl
      · exact .inl (by rw [if_pos hg]; exact ⟨rfl, out, hs.memory_eq⟩)
    · rw [hr]
      exact .inl ⟨rfl, out, hs.memory_eq⟩

/-- **A text is decoded**, into any destination that is apart from it. -/
theorem base64Decode_text
    (ht : bytesAt m source sourceSize = base64Text bs)
    (hs : sourceValid source sourceSize = true)
    (hd : destinationValid destination size = true)
    (ho : overlap source sourceSize destination size = false) :
    base64Decode m source sourceSize destination (some size)
      = ⟨if bs.length ≤ size then .success else .bufferTooSmall,
        storeBytes m destination (bs.take size), some bs.length⟩ := by
  obtain ⟨pad, hr⟩ := @decodeRun_text m destination size [] bs
  simp only [spilled, take_nil, storeBytes_nil, length_nil] at hr
  unfold base64Decode
  dsimp only
  rw [if_neg (not_not.mpr hs), if_neg (not_not.mpr hd), ho,
    if_neg Bool.false_ne_true, decodeLoop_eq (apart_of_checks hs hd ho), ht, hr]
  dsimp only
  rw [if_neg (not_not.mpr rfl), nil_append]
  split <;> rfl

end Decode

/-! ## Both together -/

/-- **Base64 is inverted, and decoded only from its canonical text.** The encoder writes the text of
its source where there is room, and the decoder reads it back into any array that is apart from it.
Whatever the decoder is called with, it returns success or reports a short buffer only for the text
of a byte string with white space added; it reports the length of that string, and writes the string
itself on success, nothing behind it, and never anything outside its destination. -/
theorem base64_inverse_and_canonical :
    (∀ (m : Memory) (source destination size : ℕ) (bs : List UInt8),
      bytesAt m source bs.length = bs → source ≠ 0 → source + bs.length < maxAddress →
      destination ≠ 0 → destination + size < maxAddress → (base64Text bs).length + 1 ≤ size →
      (source + bs.length ≤ destination ∨ destination + size ≤ source) →
      ∃ m' reported, base64Encode m source bs.length destination (some size)
          = ⟨.success, m', reported⟩ ∧
        bytesAt m' destination ((base64Text bs).length + 1) = base64Text bs ++ [0] ∧
        ∀ destination' size', destinationValid destination' size' = true →
          overlap destination (base64Text bs).length destination' size' = false →
          ∃ m'', base64Decode m' destination (base64Text bs).length destination' (some size')
              = ⟨if bs.length ≤ size' then .success else .bufferTooSmall, m'', some bs.length⟩ ∧
            (bs.length ≤ size' → bytesAt m'' destination' bs.length = bs)) ∧
    (∀ (m : Memory) (source sourceSize destination size : ℕ) (r : Base64Result),
      base64Decode m source sourceSize destination (some size) = r →
      (r.status = .success ∨ r.status = .bufferTooSmall →
        ∃ bs, withoutWhitespace (bytesAt m source sourceSize) = base64Text bs ∧
          r.destinationSize = some bs.length ∧ (r.status = .success ↔ bs.length ≤ size) ∧
          (r.status = .success → bytesAt r.memory destination bs.length = bs) ∧
          ∀ x, x < destination ∨ destination + bs.length ≤ x → r.memory x = m x) ∧
      ∀ x, x < destination ∨ destination + size ≤ x → r.memory x = m x) := by
  constructor
  · intro m source destination size bs hbs hsr hse hd hde hro
      hapart
    have he := base64Encode_text hsr hse hd hde
      (by rwa [hbs]) hapart
    rw [hbs] at he
    have hw := bytesAt_storeBytes m destination (base64Text bs ++ [0])
    rw [length_append] at hw
    refine ⟨_, _, he, hw, ?_⟩
    intro destination' size' hv ho
    have ht : bytesAt (storeBytes m destination (base64Text bs ++ [0])) destination
        (base64Text bs).length = base64Text bs := by
      rw [bytesAt_add] at hw
      exact (append_inj hw (length_bytesAt _ _ _)).1
    have hsv : sourceValid destination (base64Text bs).length = true := by
      rw [sourceValid, if_neg hd, decide_eq_true_eq]
      omega
    refine ⟨_, base64Decode_text ht hsv hv ho, ?_⟩
    intro hf
    rw [take_of_length_le hf]
    exact bytesAt_storeBytes _ _ _
  · rintro m source sourceSize destination size r rfl
    rcases base64Decode_cases m source sourceSize destination size with
      ⟨hs, out, hmem⟩ | ⟨bs, ht, hr⟩
    · refine ⟨?_, ?_⟩
      · intro h
        rw [hs] at h
        rcases h with h | h <;> cases h
      · intro x hx
        rw [hmem]
        exact storeBytes_of_outside hx (length_take_le _ _)
    · rw [hr]
      refine ⟨fun _ => ⟨bs, ht, rfl, ?_, ?_, ?_⟩, ?_⟩
      · by_cases hf : bs.length ≤ size <;> simp [hf]
      · intro h
        have hf : bs.length ≤ size := by
          by_contra hl
          rw [if_neg hl] at h
          cases h
        rw [take_of_length_le hf]
        exact bytesAt_storeBytes _ _ _
      · intro x hx
        exact storeBytes_of_outside hx (length_take_le' _ _)
      · intro x hx
        exact storeBytes_of_outside hx (length_take_le _ _)

/-- The bytes `Ma` at `0x1000`, encoded at `0x2000` and decoded again at `0x3000`. -/
theorem base64_inverse_and_canonical_two_bytes :
    ∃ m' reported, base64Encode (storeBytes (fun _ => 0) 0x1000 [0x4D, 0x61]) 0x1000 2 0x2000
        (some 5) = ⟨.success, m', reported⟩ ∧
      bytesAt m' 0x2000 5 = [0x54, 0x57, 0x45, 0x3D, 0] ∧
      ∃ m'', base64Decode m' 0x2000 4 0x3000 (some 2) = ⟨.success, m'', some 2⟩ ∧
        bytesAt m'' 0x3000 2 = [0x4D, 0x61] := by
  obtain ⟨m', reported, he, ht, hd⟩ := base64_inverse_and_canonical.1
    (storeBytes (fun _ => 0) 0x1000 [0x4D, 0x61]) 0x1000 0x2000 5 [0x4D, 0x61]
    (bytesAt_storeBytes _ _ _) (by decide) (by decide) (by decide) (by decide) (by decide)
    (by decide)
  obtain ⟨m'', hok, hr⟩ := hd 0x3000 2 (by decide) (by decide)
  exact ⟨m', reported, he, ht, m'', hok, hr (by decide)⟩

end Edk2.Base64
