import Edk2.Http.Body
import Edk2.Lib.Stream
import Mathlib.Data.List.TakeWhile

/-!
# What a message body says

The meaning of the bytes of a message body, by its headers: the chunks of a chunked body, the bytes
that `Content-Length` counts, or all bytes up to the end of the connection. `decodeBody` reads the
whole byte string at once; the parser takes it in pieces, and is here seen as a machine that takes
it byte by byte.

## Main results

* `feedAll_chunks`: the machine and `decodeBody` agree on every chunked byte string
* `feedAll_identity`: the same of the bytes that `Content-Length` counts
-/

namespace Edk2.Http

open List Option Outcome

/-! ## The meaning of a byte string -/

/-- How a message ends in a byte string: behind it, before the bytes `rest`, or not at all, for the
bytes are not those of a message. -/
inductive Ending
  | more
  | complete (rest : List UInt8)
  | malformed
  deriving DecidableEq, Repr

/-- What a byte string says: the data, and how the message ends. -/
structure Decoded where
  data : List UInt8
  ending : Ending
  deriving DecidableEq, Repr

/-- A part of a byte string, read: its value and the bytes behind it. -/
inductive Part (α : Type)
  | more
  | malformed
  | read (value : α) (rest : List UInt8)

def endOfLine {α : Type} (value : α) : List UInt8 → Part α
  | [] => .more
  | [c] => if c = cr then .more else .malformed
  | c :: d :: rest => if c = cr ∧ d = lf then .read value rest else .malformed

/-- The number with the hexadecimal digits `digits` behind those of `value`. -/
def hexValue (value : ℕ) (digits : List UInt8) : ℕ :=
  digits.foldl (fun n c => n * 16 + httpIoHexCharToUintn c) value

/-- The line in front of a chunk: its size, an extension that is not read, and the end of line. The
parser refuses sizes of `2 ^ 64 - 16` and more. -/
def sizeLine (bytes : List UInt8) : Part ℕ :=
  let size := hexValue 0 (bytes.takeWhile isHexChar)
  if 2 ^ 64 - 16 ≤ size then .malformed
  else
    match bytes.dropWhile isHexChar with
    | [] => .more
    | c :: rest =>
      if c = semicolon then endOfLine size (rest.dropWhile (· ≠ cr))
      else endOfLine size (c :: rest)

/-- The lines behind the last chunk, up to the empty one that ends the message. -/
def trailers : ℕ → List UInt8 → Ending
  | 0, _ => .more
  | _ + 1, [] => .more
  | fuel + 1, c :: rest =>
    if c = cr then
      match rest with
      | [] => .more
      | d :: rest => if d = lf then .complete rest else .malformed
    else
      match endOfLine () ((c :: rest).dropWhile (· ≠ cr)) with
      | .more => .more
      | .malformed => .malformed
      | .read _ rest => trailers fuel rest

/-- The chunks of a byte string, at most `fuel` of them. -/
def decodeChunks : ℕ → List UInt8 → Decoded
  | 0, _ => ⟨[], .more⟩
  | fuel + 1, bytes =>
    match sizeLine bytes with
    | .more => ⟨[], .more⟩
    | .malformed => ⟨[], .malformed⟩
    | .read size rest =>
      if size = 0 then ⟨[], trailers (fuel + 1) rest⟩
      else if rest.length < size then ⟨rest, .more⟩
      else
        match endOfLine () (rest.drop size) with
        | .more => ⟨rest.take size, .more⟩
        | .malformed => ⟨rest.take size, .malformed⟩
        | .read _ rest' =>
          let later := decodeChunks fuel rest'
          ⟨rest.take size ++ later.data, later.ending⟩

/-- The number with the decimal digits `digits` behind those of `value`. -/
def decimalValue (value : ℕ) (digits : List UInt8) : ℕ :=
  digits.foldl (fun n c => n * 10 + (c.toNat - 48)) value

/-- What `Content-Length` says: the number behind the blanks, of any size. A text of more than
`PcdMaximumAsciiStringLength` characters is not read. -/
def declaredLength (headers : List HttpHeader) : Option ℕ :=
  match httpFindHeader headers (ascii "Content-Length") with
  | none => none
  | some header =>
    if asciiRsizeMax < header.fieldValue.length then none
    else
      some (decimalValue 0
        ((header.fieldValue.dropWhile fun c => c = 32 ∨ c = 9).takeWhile isDecimalDigit))

/-- What the bytes received say, by the headers. Without chunks and without a length the message ends
with the connection. -/
def decodeBody (headers : List HttpHeader) (bytes : List UInt8) : Decoded :=
  if httpIoIsChunked headers then decodeChunks (bytes.length + 1) bytes
  else
    match declaredLength headers with
    | none => ⟨bytes, .complete []⟩
    | some n =>
      if bytes.length < n then ⟨bytes, .more⟩ else ⟨bytes.take n, .complete (bytes.drop n)⟩

/-! ## The parser, byte by byte -/

section Feed

/-- `BodyParserChunkSize` at a byte. -/
def feedSize (p : BodyParser) (c : UInt8) : Fed BodyParser EfiStatus UInt8 :=
  if !isHexChar c then
    if c = semicolon then .next { p with state := .chunkExtStart } []
    else if c = cr then .next { p with state := .chunkSizeEndCR } []
    else .failed .aborted
  else if (maxUintn - 16) / 16 < p.currentChunkSize then .failed .invalidParameter
  else .next { p with currentChunkSize := p.currentChunkSize * 16 + httpIoHexCharToUintn c } []

/-- `BodyParserTrailer` and `BodyParserChunkExtStart` at a byte: the rest of a line is not read. -/
def feedSkip (p : BodyParser) (c : UInt8) : Fed BodyParser EfiStatus UInt8 :=
  if c = cr then .next { p with state := .chunkSizeEndCR } [] else .next p []

/-- One more byte of a chunk. -/
def feedData (p : BodyParser) : BodyParser :=
  { p with
    contentLength := add64 p.contentLength 1
    currentChunkParsedSize := p.currentChunkParsedSize + 1
    state := if p.currentChunkParsedSize + 1 = p.currentChunkSize then .chunkDataEnd else p.state }

/-- The parser at a byte, in the states in which it waits for one. -/
def feed (p : BodyParser) (c : UInt8) : Fed BodyParser EfiStatus UInt8 :=
  match p.state with
  | .bodyIdentity =>
    let p := { p with parsedBodyLength := p.parsedBodyLength + 1 }
    if p.parsedBodyLength = p.contentLength then .done { p with state := .complete } [c]
    else .next p [c]
  | .chunkSizeStart => feedSize { p with currentChunkSize := 0, state := .chunkSize } c
  | .chunkSize => feedSize p c
  | .chunkExtStart => feedSkip p c
  | .chunkSizeEndCR =>
    if c ≠ lf then .failed .aborted
    else if p.currentChunkSize = 0 then
      .next { p with contentLengthIsValid := true, state := .lastCRLF } []
    else .next { p with state := .chunkDataStart, currentChunkParsedSize := 0 } []
  | .lastCRLF =>
    if c = cr then .next { p with state := .lastCRLFEnd } []
    else feedSkip { p with state := .trailer } c
  | .lastCRLFEnd =>
    if c = lf then .done { p with state := .complete } [] else .failed .aborted
  | .trailer => feedSkip p c
  | .chunkDataStart => .next (feedData p) [c]
  | .chunkDataEnd =>
    if c = cr then .next { p with state := .chunkDataEndCR } [] else .failed .aborted
  | .chunkDataEndCR =>
    if c = lf then .next { p with state := .chunkSizeStart } [] else .failed .aborted
  | .bodyStart | .complete | .stateMax => .failed .aborted

end Feed

variable {p p' : BodyParser} {c : UInt8} {bytes rest data : List UInt8} {n k : ℕ}

/-! ### Lines -/

theorem length_endOfLine {α : Type} {value v : α} (h : endOfLine value bytes = .read v rest) :
    rest.length + 2 = bytes.length := by
  match bytes with
  | [] => cases h
  | [c] =>
    rw [endOfLine] at h
    split at h <;> cases h
  | c :: d :: tail =>
    rw [endOfLine] at h
    split at h
    · cases h
      rfl
    · cases h

/-- Behind the line: the data of a chunk, or what follows the last chunk. -/
def afterLine (p : BodyParser) : BodyParser :=
  if p.currentChunkSize = 0 then { p with contentLengthIsValid := true, state := .lastCRLF }
  else { p with state := .chunkDataStart, currentChunkParsedSize := 0 }

/-- The machine reads a line as `line` says, and is at `q` behind it. -/
def ReadsLine {α : Type} (value : α) (line : Part α)
    (o : Outcome BodyParser EfiStatus UInt8 UInt8) (q : BodyParser) : Prop :=
  (line = .more ∧ ∃ p', o = .more p' []) ∨ (line = .malformed ∧ o = .failed .aborted []) ∨
    ∃ rest, line = .read value rest ∧ o = feedAll feed q rest

theorem feedAll_endOfLine {α : Type} (value : α) {q q' : BodyParser}
    (hcr : feed p cr = .next q []) (hlf : feed q lf = .next q' [])
    (ho : ∀ c ≠ lf, feed q c = .failed .aborted)
    (hh : ∀ c ∈ bytes.head?, c ≠ cr → feed p c = .failed .aborted) :
    ReadsLine value (endOfLine value bytes) (feedAll feed p bytes) q' := by
  match bytes with
  | [] => exact .inl ⟨rfl, p, rfl⟩
  | [c] =>
    by_cases hc : c = cr
    · subst hc
      refine .inl ⟨rfl, q, ?_⟩
      rw [feedAll_next hcr]
      rfl
    · exact .inr (.inl ⟨if_neg hc, feedAll_failed (hh c rfl hc)⟩)
  | c :: d :: rest =>
    by_cases hc : c = cr
    · subst hc
      rw [feedAll_next hcr, prepend_nil]
      by_cases hd : d = lf
      · subst hd
        refine .inr (.inr ⟨rest, rfl, ?_⟩)
        rw [feedAll_next hlf, prepend_nil]
      · exact .inr (.inl ⟨if_neg fun h => hd h.2, feedAll_failed (ho d hd)⟩)
    · exact .inr (.inl ⟨if_neg fun h => hc h.1, feedAll_failed (hh c rfl hc)⟩)

theorem feedAll_lineEnd {α : Type} (value : α) (bytes : List UInt8)
    (hcr : feed p cr = .next { p with state := .chunkSizeEndCR } [])
    (hh : ∀ c ∈ bytes.head?, c ≠ cr → feed p c = .failed .aborted) :
    ReadsLine value (endOfLine value bytes) (feedAll feed p bytes) (afterLine p) := by
  refine feedAll_endOfLine value hcr ?_ ?_ hh
  · rw [afterLine]
    simp only [feed, ne_eq, not_true_eq_false, if_false]
    split <;> rfl
  · intro c hc
    simp only [feed, ne_eq, hc, not_false_eq_true, if_true]

theorem head?_dropWhile_ne_cr (bytes : List UInt8) :
    ∀ c ∈ (bytes.dropWhile (· ≠ cr)).head?, c = cr := by
  intro c hc
  have := List.head?_dropWhile_not (fun c => decide (c ≠ cr)) bytes
  rw [hc] at this
  simpa using this

theorem feedAll_skipLine {α : Type} (value : α) (bytes : List UInt8)
    (hs : ∀ c, feed p c = feedSkip p c) :
    ReadsLine value (endOfLine value (bytes.dropWhile (· ≠ cr))) (feedAll feed p bytes)
      (afterLine p) := by
  have hsp : feedAll feed p bytes = feedAll feed p (bytes.dropWhile (· ≠ cr)) := by
    conv_lhs => rw [← takeWhile_append_dropWhile (p := fun c => decide (c ≠ cr)) (l := bytes)]
    refine feedAll_skip fun c hc => ?_
    have hne : c ≠ cr := by simpa using mem_takeWhile_imp hc
    rw [hs, feedSkip, if_neg hne]
  rw [hsp]
  refine feedAll_lineEnd value _ ?_ fun c hc hne => absurd (head?_dropWhile_ne_cr bytes c hc) hne
  rw [hs, feedSkip, if_pos rfl]

/-! ### Sizes -/

theorem httpIoHexCharToUintn_lt (h : isHexChar c = true) : httpIoHexCharToUintn c < 16 := by
  have ha : ∀ b : Fin 256, isHexChar (UInt8.ofNat b) = true →
      httpIoHexCharToUintn (UInt8.ofNat b) < 16 := by decide +kernel
  have := ha ⟨c.toNat, c.toNat_lt⟩
  rw [UInt8.ofNat_toNat] at this
  exact this h

theorem le_hexValue (value : ℕ) (digits : List UInt8) : value ≤ hexValue value digits := by
  induction digits generalizing value with
  | nil => exact le_refl value
  | cons c digits ih =>
    have hle : value ≤ value * 16 + httpIoHexCharToUintn c := by omega
    exact hle.trans (ih _)

/-- The digits of a size: they are taken while the number stays below the limit. -/
theorem feedAll_digits (rest : List UInt8) (hp : p.state = .chunkSize) {digits : List UInt8}
    (hd : ∀ c ∈ digits, isHexChar c = true) (hlt : p.currentChunkSize < 2 ^ 64 - 16) :
    feedAll feed p (digits ++ rest) =
      if 2 ^ 64 - 16 ≤ hexValue p.currentChunkSize digits then .failed .invalidParameter []
      else feedAll feed { p with currentChunkSize := hexValue p.currentChunkSize digits } rest := by
  induction digits generalizing p with
  | nil => exact (if_neg (not_le.mpr hlt)).symm
  | cons c digits ih =>
    obtain ⟨hc, hd⟩ := forall_mem_cons.mp hd
    have hs := httpIoHexCharToUintn_lt hc
    have hf : feed p c = if (maxUintn - 16) / 16 < p.currentChunkSize
        then .failed .invalidParameter
        else .next { p with
          currentChunkSize := p.currentChunkSize * 16 + httpIoHexCharToUintn c } [] := by
      simp only [feed, hp, feedSize, hc, Bool.not_true, Bool.false_eq_true, if_false]
    have hv : hexValue p.currentChunkSize (c :: digits) =
        hexValue (p.currentChunkSize * 16 + httpIoHexCharToUintn c) digits := rfl
    rw [cons_append]
    by_cases hb : (maxUintn - 16) / 16 < p.currentChunkSize
    · rw [if_pos hb] at hf
      have hle := le_hexValue (p.currentChunkSize * 16 + httpIoHexCharToUintn c) digits
      unfold maxUintn at hb
      rw [feedAll_failed hf, if_pos (by omega)]
    · rw [if_neg hb] at hf
      unfold maxUintn at hb
      rw [feedAll_next hf, prepend_nil]
      exact ih hp hd (by simp only; omega)

/-- **The line in front of a chunk.** -/
theorem feedAll_sizeLine (bytes : List UInt8) (hp : p.state = .chunkSizeStart) :
    (sizeLine bytes = .more ∧ ∃ p', feedAll feed p bytes = .more p' []) ∨
      (sizeLine bytes = .malformed ∧
        ∃ e : EfiStatus, e.isError = true ∧ feedAll feed p bytes = .failed e []) ∨
      ∃ size rest, sizeLine bytes = .read size rest ∧ size < 2 ^ 64 ∧
        feedAll feed p bytes =
          feedAll feed (afterLine { p with currentChunkSize := size }) rest := by
  have hst : bytes ≠ [] → feedAll feed p bytes =
      feedAll feed { p with currentChunkSize := 0, state := .chunkSize } bytes := by
    intro hne
    obtain ⟨c, tail, rfl⟩ := exists_cons_of_ne_nil hne
    simp only [feedAll, feed, hp]
  by_cases hnil : bytes = []
  · subst hnil
    exact .inl ⟨rfl, p, rfl⟩
  rw [hst hnil]
  have hsp := takeWhile_append_dropWhile (p := isHexChar) (l := bytes)
  have hh := feedAll_digits (p := { p with currentChunkSize := 0, state := .chunkSize })
    (bytes.dropWhile isHexChar) rfl
    (fun c hc => mem_takeWhile_imp (l := bytes) hc)
    (Nat.sub_pos_of_lt (by decide))
  rw [hsp] at hh
  have hn : ∀ c ∈ (bytes.dropWhile isHexChar).head?, isHexChar c = false := by
    intro c hc
    have := List.head?_dropWhile_not isHexChar bytes
    rw [hc] at this
    simpa using this
  rw [hh, sizeLine]
  generalize hexValue 0 (bytes.takeWhile isHexChar) = size
  split
  · exact .inr (.inl ⟨rfl, _, rfl, rfl⟩)
  cases ha : bytes.dropWhile isHexChar with
  | nil => exact .inl ⟨rfl, _, rfl⟩
  | cons c rest =>
    have hc : isHexChar c = false := hn c (by rw [ha]; rfl)
    simp only
    -- an extension, which is skipped, or the end of the line at once
    split
    · rename_i hs
      subst hs
      have hfe : feed { p with currentChunkSize := size, state := .chunkSize } semicolon =
          .next { p with currentChunkSize := size, state := .chunkExtStart } [] := rfl
      rw [feedAll_next hfe, prepend_nil]
      rcases feedAll_skipLine (p := { p with currentChunkSize := size, state := .chunkExtStart })
        size rest fun _ => rfl with ⟨he, hm⟩ | ⟨he, hf⟩ | ⟨rest', he, hgo⟩
      · exact .inl ⟨he, hm⟩
      · exact .inr (.inl ⟨he, _, rfl, hf⟩)
      · exact .inr (.inr ⟨size, rest', he, by omega, hgo⟩)
    · rename_i hs
      have hhe : ∀ d ∈ (c :: rest).head?, d ≠ cr →
          feed { p with currentChunkSize := size, state := .chunkSize } d = .failed .aborted := by
        intro d hd hne
        obtain rfl := some.inj hd
        simp [feed, feedSize, hc, hs, hne]
      rcases feedAll_lineEnd
        size (c :: rest) rfl hhe with ⟨he, hm⟩ | ⟨he, hf⟩ | ⟨rest', he, hgo⟩
      · exact .inl ⟨he, hm⟩
      · exact .inr (.inl ⟨he, _, rfl, hf⟩)
      · exact .inr (.inr ⟨size, rest', he, by omega, hgo⟩)

theorem length_sizeLine {size : ℕ} (h : sizeLine bytes = .read size rest) :
    rest.length < bytes.length := by
  have hd := (dropWhile_suffix isHexChar (l := bytes)).length_le
  rw [sizeLine] at h
  split at h
  · cases h
  split at h
  · cases h
  rename_i c tail ha
  rw [ha] at hd
  split at h
  · have hs := (dropWhile_suffix (fun c => decide (c ≠ cr)) (l := tail)).length_le
    have hl := length_endOfLine h
    rw [length_cons] at hd
    omega
  · have hl := length_endOfLine h
    omega

/-! ### Chunks -/

/-- The parser `k` bytes further in a chunk. -/
def advance (p : BodyParser) (k : ℕ) : BodyParser :=
  { p with
    contentLength := add64 p.contentLength k
    currentChunkParsedSize := p.currentChunkParsedSize + k
    state := if p.currentChunkParsedSize + k = p.currentChunkSize then .chunkDataEnd
      else .chunkDataStart }

/-- **The bytes of a chunk are its data.** -/
theorem feedAll_data (hp : p.state = .chunkDataStart)
    (hk : p.currentChunkParsedSize + (k + 1) ≤ p.currentChunkSize) (hl : k + 1 ≤ bytes.length) :
    feedAll feed p bytes =
      (feedAll feed (advance p (k + 1)) (bytes.drop (k + 1))).prepend (bytes.take (k + 1)) := by
  induction k generalizing p bytes with
  | zero =>
    obtain ⟨c, rest, rfl⟩ := exists_cons_of_length_pos hl
    have hf : feed p c = .next (advance p 1) [c] := by
      simp only [feed, hp, feedData, advance]
    rw [feedAll_next hf]
    rfl
  | succ k ih =>
    obtain ⟨c, rest, rfl⟩ := exists_cons_of_length_pos (by omega : 0 < bytes.length)
    have hf : feed p c = .next (advance p 1) [c] := by
      simp only [feed, hp, feedData, advance]
    have hst : (advance p 1).state = .chunkDataStart := if_neg (by omega)
    have ha : advance (advance p 1) (k + 1) = advance p (k + 1 + 1) := by
      have hs : p.currentChunkParsedSize + 1 + (k + 1) =
          p.currentChunkParsedSize + (k + 1 + 1) := by
        omega
      simp only [advance, add64_add64, hs, Nat.add_comm 1 (k + 1)]
    rw [length_cons] at hl
    rw [feedAll_next hf, ih hst (by simp only [advance]; omega) (by omega), ha,
      prepend_prepend]
    rfl

/-- The outcome of the machine is what the bytes say; `start` is the content length before them. -/
inductive Agrees (start : ℕ) : Outcome BodyParser EfiStatus UInt8 UInt8 → Decoded → Prop
  | more (p : BodyParser) (data : List UInt8) : Agrees start (.more p data) ⟨data, .more⟩
  | done (p : BodyParser) (data rest : List UInt8)
      (hlength : p.contentLength = add64 start data.length)
      (hvalid : p.contentLengthIsValid = true) :
      Agrees start (.done p data rest) ⟨data, .complete rest⟩
  | failed (e : EfiStatus) (data : List UInt8) (he : e.isError = true) :
      Agrees start (.failed e data) ⟨data, .malformed⟩

theorem Agrees.prepend {start : ℕ} {o : Outcome BodyParser EfiStatus UInt8 UInt8} {d : Decoded}
    (h : Agrees (add64 start data.length) o d) :
    Agrees start (o.prepend data) ⟨data ++ d.data, d.ending⟩ := by
  cases h with
  | more p out => exact .more p _
  | done p out rest hl hv =>
    refine .done p _ rest ?_ hv
    rw [hl, add64_add64, length_append]
  | failed e out he => exact .failed e _ he

/-- **What follows the last chunk.** -/
theorem feedAll_trailers {fuel : ℕ} (hp : p.state = .lastCRLF) (hz : p.currentChunkSize = 0)
    (hv : p.contentLengthIsValid = true) (hlt : p.contentLength < 2 ^ 64)
    (hf : bytes.length < fuel) :
    Agrees p.contentLength (feedAll feed p bytes) ⟨[], trailers fuel bytes⟩ := by
  induction fuel generalizing p bytes with
  | zero => exact absurd hf (Nat.not_lt_zero _)
  | succ fuel ih =>
    match bytes with
    | [] => exact .more p []
    | c :: rest =>
      simp only [trailers]
      split
      · -- the empty line
        rename_i hc
        have hcr : feed p c = .next { p with state := .lastCRLFEnd } [] := by
          simp only [feed, hp, if_pos hc]
        rw [feedAll_next hcr]
        match rest with
        | [] => exact .more _ []
        | d :: rest =>
          simp only
          split
          · rename_i hd
            have hlf : feed { p with state := .lastCRLFEnd } d =
                .done { p with state := .complete } [] := if_pos hd
            rw [feedAll_done hlf]
            have hsa : add64 p.contentLength 0 = p.contentLength := add64_of_lt hlt
            exact .done _ [] rest hsa.symm hv
          · rename_i hd
            have hno : feed { p with state := .lastCRLFEnd } d = .failed .aborted := if_neg hd
            rw [feedAll_failed hno]
            exact .failed _ [] rfl
      · -- a trailer
        rename_i hc
        have hs : feedAll feed p (c :: rest) =
            feedAll feed { p with state := .trailer } (c :: rest) := by
          simp only [feedAll, feed, hp, if_neg hc]
        rw [hs]
        rcases feedAll_skipLine (p := { p with state := .trailer }) () (c :: rest) fun _ => rfl with
          ⟨he, p', hm⟩ | ⟨he, hfa⟩ | ⟨rest', he, hgo⟩
        · rw [he, hm]
          exact .more p' []
        · rw [he, hfa]
          exact .failed _ [] rfl
        · rw [he, hgo]
          have hsu :=
            (dropWhile_suffix (fun c => decide (c ≠ cr)) (l := c :: rest)).length_le
          have hl := length_endOfLine he
          have ha : afterLine { p with state := .trailer } =
              { p with contentLengthIsValid := true, state := .lastCRLF } := if_pos hz
          rw [ha]
          exact ih (p := { p with contentLengthIsValid := true, state := .lastCRLF })
            rfl hz rfl hlt (by rw [length_cons] at *; omega)

theorem feedAll_dataEnd (hp : p.state = .chunkDataEnd) (bytes : List UInt8) :
    ReadsLine () (endOfLine () bytes) (feedAll feed p bytes)
      { p with state := .chunkSizeStart } := by
  refine feedAll_endOfLine () (q := { p with state := .chunkDataEndCR }) ?_ rfl ?_ ?_
  · simp only [feed, hp, if_true]
  · intro c hc
    simp only [feed, if_neg hc]
  · intro c _ hc
    simp only [feed, hp, if_neg hc]

/-- **The machine and the meaning of the bytes agree**, on every byte string. -/
theorem feedAll_chunks {fuel : ℕ} (hp : p.state = .chunkSizeStart) (hlt : p.contentLength < 2 ^ 64)
    (hf : bytes.length < fuel) :
    Agrees p.contentLength (feedAll feed p bytes) (decodeChunks fuel bytes) := by
  induction fuel generalizing p bytes with
  | zero => exact absurd hf (Nat.not_lt_zero _)
  | succ fuel ih =>
    rw [decodeChunks]
    rcases feedAll_sizeLine bytes hp with
      ⟨hl, p', hm⟩ | ⟨hl, e, he, hfa⟩ | ⟨size, rest, hl, hsi, hgo⟩
    · rw [hl, hm]
      exact .more p' []
    · rw [hl, hfa]
      exact .failed e [] he
    · have hr := length_sizeLine hl
      rw [hl, hgo]
      simp only
      by_cases hz : size = 0
      · -- the last chunk
        rw [if_pos hz]
        have ha : afterLine { p with currentChunkSize := size } = { p with
            currentChunkSize := size, contentLengthIsValid := true, state := .lastCRLF } :=
          if_pos hz
        rw [ha]
        exact feedAll_trailers (p := { p with
          currentChunkSize := size, contentLengthIsValid := true, state := .lastCRLF })
          rfl hz rfl hlt (by omega)
      · rw [if_neg hz]
        have ha : afterLine { p with currentChunkSize := size } = { p with
            currentChunkSize := size, state := .chunkDataStart, currentChunkParsedSize := 0 } :=
          if_neg hz
        rw [ha]
        generalize hq : ({ p with
          currentChunkSize := size, state := .chunkDataStart, currentChunkParsedSize := 0 } :
          BodyParser) = q
        have hs : q.state = .chunkDataStart := by rw [← hq]
        have hpa : q.currentChunkParsedSize = 0 := by rw [← hq]
        have hc : q.currentChunkSize = size := by rw [← hq]
        have hle : q.contentLength = p.contentLength := by rw [← hq]
        split
        · -- the chunk goes on behind the bytes received
          rcases Nat.eq_zero_or_eq_succ_pred rest.length with hnil | hpos
          · rw [length_eq_zero_iff.mp hnil]
            exact .more q []
          · generalize rest.length.pred = k at hpos
            rw [feedAll_data (k := k) hs (by omega) (by omega), ← Nat.succ_eq_add_one, ← hpos,
              drop_length, take_length]
            simp only [feedAll, prepend, append_nil]
            exact .more _ rest
        · obtain ⟨k, rfl⟩ := Nat.exists_eq_succ_of_ne_zero hz
          rw [feedAll_data (k := k) hs (by omega) (by omega)]
          have hen : (advance q k.succ).state = .chunkDataEnd := if_pos (by omega)
          have ht : (rest.take k.succ).length = k.succ := by
            rw [length_take]
            omega
          rcases feedAll_dataEnd hen (rest.drop k.succ) with
            ⟨hl', p', hm⟩ | ⟨hl', hfa⟩ | ⟨rest', hl', hgo'⟩
          · rw [hl', hm]
            simp only [prepend, append_nil]
            exact .more _ _
          · rw [hl', hfa]
            simp only [prepend, append_nil]
            exact .failed _ _ rfl
          · rw [hl', hgo']
            have hlen := length_endOfLine hl'
            rw [length_drop] at hlen
            have had : (advance q k.succ).contentLength =
                add64 p.contentLength (rest.take k.succ).length := by
              rw [ht, ← hle]
              rfl
            have hla := ih (p := { advance q k.succ with state := .chunkSizeStart })
              rfl (add64_lt _ _) (show rest'.length < fuel by omega)
            refine Agrees.prepend ?_
            rw [← had]
            exact hla

/-! ### Bytes that are counted -/

/-- **Bytes that are counted**: the machine is done at the one with the number it waits for. -/
theorem feedAll_identity (bytes : List UInt8) (hp : p.state = .bodyIdentity)
    (hlt : p.parsedBodyLength < p.contentLength) :
    (bytes.length < p.contentLength - p.parsedBodyLength ∧
      feedAll feed p bytes =
        .more { p with parsedBodyLength := p.parsedBodyLength + bytes.length } bytes) ∨
    (p.contentLength - p.parsedBodyLength ≤ bytes.length ∧
      feedAll feed p bytes =
        .done { p with parsedBodyLength := p.contentLength, state := .complete }
          (bytes.take (p.contentLength - p.parsedBodyLength))
          (bytes.drop (p.contentLength - p.parsedBodyLength))) := by
  induction bytes generalizing p with
  | nil =>
    refine .inl ⟨?_, rfl⟩
    rw [length_nil]
    omega
  | cons c bytes ih =>
    by_cases hlast : p.parsedBodyLength + 1 = p.contentLength
    · have hf : feed p c = .done { p with
          parsedBodyLength := p.contentLength, state := .complete } [c] := by
        simp only [feed, hp, hlast, if_true]
      have ho : p.contentLength - p.parsedBodyLength = 1 := by omega
      rw [feedAll_done hf, ho, length_cons]
      exact .inr ⟨by omega, rfl⟩
    · have hf : feed p c = .next { p with
          parsedBodyLength := p.parsedBodyLength + 1 } [c] := by
        simp only [feed, hp, if_neg hlast]
      have hs : p.contentLength - p.parsedBodyLength =
          p.contentLength - (p.parsedBodyLength + 1) + 1 := by omega
      rw [feedAll_next hf, hs, length_cons]
      rcases ih (p := { p with parsedBodyLength := p.parsedBodyLength + 1 }) hp
        (by simp only; omega) with ⟨hshort, hm⟩ | ⟨hl, hd⟩
      · refine .inl ⟨by simp only at hshort; omega, ?_⟩
        rw [hm, Nat.add_comm bytes.length 1, ← Nat.add_assoc]
        rfl
      · refine .inr ⟨by simp only at hl; omega, ?_⟩
        rw [hd]
        rfl

/-! ## What the parser knows of the length -/

theorem le_decimalValue (value : ℕ) (digits : List UInt8) : value ≤ decimalValue value digits := by
  induction digits generalizing value with
  | nil => exact le_refl value
  | cons c digits ih =>
    have hle : value ≤ value * 10 + (c.toNat - 48) := by omega
    exact hle.trans (ih _)

theorem toNat_of_isDecimalDigit (h : isDecimalDigit c = true) : c.toNat - 48 < 10 := by
  simp only [isDecimalDigit, decide_eq_true_eq, UInt8.le_iff_toNat_le] at h
  have : c.toNat ≤ 57 := h.2
  omega

theorem decimalLoop_eq (text : List UInt8) {value : ℕ} (hlt : value < 2 ^ 64) :
    decimalLoop text value =
      if decimalValue value (text.takeWhile isDecimalDigit) < 2 ^ 64
      then (.success, decimalValue value (text.takeWhile isDecimalDigit))
      else (.unsupported, maxUintn) := by
  induction text generalizing value with
  | nil =>
    exact (if_pos hlt).symm
  | cons c text ih =>
    rw [decimalLoop]
    by_cases hc : isDecimalDigit c
    · have ht := toNat_of_isDecimalDigit hc
      have hv : decimalValue value (c :: text.takeWhile isDecimalDigit) =
          decimalValue (value * 10 + (c.toNat - 48)) (text.takeWhile isDecimalDigit) := rfl
      rw [if_pos hc, takeWhile_cons_of_pos hc]
      have hle := le_decimalValue (value * 10 + (c.toNat - 48)) (text.takeWhile isDecimalDigit)
      by_cases hb : (maxUintn - (c.toNat - 48)) / 10 < value
      · rw [if_pos hb]
        unfold maxUintn at hb
        rw [if_neg (by omega)]
      · rw [if_neg hb]
        unfold maxUintn at hb
        exact ih (by omega)
    · rw [if_neg hc, takeWhile_cons_of_neg hc]
      exact (if_pos hlt).symm

theorem decimalValue_dropWhile (text : List UInt8) :
    decimalValue 0 ((text.dropWhile (· = 48)).takeWhile isDecimalDigit) =
      decimalValue 0 (text.takeWhile isDecimalDigit) := by
  induction text with
  | nil => rfl
  | cons c text ih =>
    by_cases hc : c = 48
    · subst hc
      rw [dropWhile_cons_of_pos (by decide), ih]
      rfl
    · rw [dropWhile_cons_of_neg (by simpa using hc)]

theorem httpIoParseContentLengthHeader_eq (headers : List HttpHeader) :
    (declaredLength headers = none ∧ (httpIoParseContentLengthHeader headers).1.isError = true ∧
      (httpIoParseContentLengthHeader headers).2.getD 0 = 0) ∨
    (∃ n, declaredLength headers = some n ∧ n < 2 ^ 64 ∧
      httpIoParseContentLengthHeader headers = (.success, some n)) ∨
    ∃ n, declaredLength headers = some n ∧ 2 ^ 64 ≤ n ∧
      httpIoParseContentLengthHeader headers = (.unsupported, some maxUintn) := by
  rw [declaredLength, httpIoParseContentLengthHeader]
  cases httpFindHeader headers (ascii "Content-Length") with
  | none => exact .inl ⟨rfl, rfl, rfl⟩
  | some header =>
    simp only [asciiStrDecimalToUintnS]
    by_cases hl : asciiRsizeMax < header.fieldValue.length
    · simp only [if_pos hl]
      exact .inl ⟨trivial, rfl, rfl⟩
    · simp only [if_neg hl, decimalLoop_eq _ (Nat.two_pow_pos 64), decimalValue_dropWhile]
      right
      split
      · rename_i hlt
        exact .inl ⟨_, rfl, hlt, rfl⟩
      · rename_i hge
        exact .inr ⟨_, rfl, not_lt.mp hge, rfl⟩

end Edk2.Http
