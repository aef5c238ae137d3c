import Edk2.Base
import Edk2.Lib.Loop

/-!
# The HTTP message-body parser

`HttpInitMsgParser`, `HttpParseMessageBody` and `HttpGetEntityLength` of
`NetworkPkg/Library/DxeHttpLib/DxeHttpLib.c`. The parser is resumed at each call: the bytes of a
message come in pieces, cut where the network cuts them. A call reports data and the end of the
message through a callback, which is taken to succeed; the calls are made until one returns an
error.
-/

namespace Edk2.Http

/-- `EFI_HTTP_METHOD`. -/
inductive HttpMethod
  | get
  | post
  | connect
  | patch
  | options
  | head
  | put
  | delete
  | trace
  deriving DecidableEq, Repr

/-- `EFI_HTTP_STATUS_CODE`, with the codes that `HttpIoNoMessageBody` asks for. -/
inductive HttpStatusCode
  | continue100
  | switchingProtocols101
  | noContent204
  | notModified304
  | other (code : ℕ)
  deriving DecidableEq, Repr

/-- `EFI_HTTP_HEADER`: the characters of two strings, without the terminators. -/
structure HttpHeader where
  fieldName : List UInt8
  fieldValue : List UInt8
  deriving DecidableEq, Repr

def ascii (s : String) : List UInt8 := s.toList.map fun c => UInt8.ofNat c.toNat

/-! ## Headers -/

def asciiCharToUpper (c : UInt8) : UInt8 := if 97 ≤ c ∧ c ≤ 122 then c - 32 else c

/-- `AsciiStriCmp (a, b) == 0`. -/
def AsciiStriEq (a b : List UInt8) : Prop := a.map asciiCharToUpper = b.map asciiCharToUpper

instance (a b : List UInt8) : Decidable (AsciiStriEq a b) := inferInstanceAs (Decidable (_ = _))

def httpFindHeader (headers : List HttpHeader) (fieldName : List UInt8) : Option HttpHeader :=
  headers.find? fun header => AsciiStriEq header.fieldName fieldName

/-- `InternalAsciiIsDecimalDigitCharacter`. -/
def isDecimalDigit (c : UInt8) : Bool := 48 ≤ c ∧ c ≤ 57

/-- `PcdMaximumAsciiStringLength`. -/
def asciiRsizeMax : ℕ := 1000000

def maxUintn : ℕ := 0xFFFFFFFFFFFFFFFF

/-- The loop of `AsciiStrDecimalToUintnS` over the digits. -/
def decimalLoop : List UInt8 → ℕ → EfiStatus × ℕ
  | [], data => (.success, data)
  | c :: cs, data =>
    if isDecimalDigit c then
      if (maxUintn - (c.toNat - 48)) / 10 < data then (.unsupported, maxUintn)
      else decimalLoop cs (data * 10 + (c.toNat - 48))
    else (.success, data)

/-- `AsciiStrDecimalToUintnS`: the status, and what it stores unless it refuses the string. -/
def asciiStrDecimalToUintnS (string : List UInt8) : EfiStatus × Option ℕ :=
  if asciiRsizeMax < string.length then (.invalidParameter, none)
  else
    let digits := (string.dropWhile fun c => c = 32 ∨ c = 9).dropWhile (· = 48)
    let (status, data) := decimalLoop digits 0
    (status, some data)

def httpIoParseContentLengthHeader (headers : List HttpHeader) : EfiStatus × Option ℕ :=
  match httpFindHeader headers (ascii "Content-Length") with
  | none => (.notFound, none)
  | some header => asciiStrDecimalToUintnS header.fieldValue

def httpIoIsChunked (headers : List HttpHeader) : Bool :=
  match httpFindHeader headers (ascii "Transfer-Encoding") with
  | none => false
  | some header => ¬ AsciiStriEq header.fieldValue (ascii "identity")

def httpIoNoMessageBody (method : HttpMethod) (statusCode : HttpStatusCode) : Bool :=
  if method = .head then true
  else statusCode = .continue100 ∨ statusCode = .switchingProtocols101 ∨
    statusCode = .noContent204 ∨ statusCode = .notModified304

/-! ## The parser -/

/-- `HTTP_BODY_PARSE_STATE`. -/
inductive BodyParserState
  | bodyStart
  | bodyIdentity
  | chunkSizeStart
  | chunkSize
  | chunkSizeEndCR
  | chunkExtStart
  | chunkDataStart
  | chunkDataEnd
  | chunkDataEndCR
  | trailer
  | lastCRLF
  | lastCRLFEnd
  | complete
  | stateMax
  deriving DecidableEq, Repr

/-- `HTTP_BODY_PARSER`; `callback` says that there is a callback. -/
structure BodyParser where
  ignoreBody : Bool
  isChunked : Bool
  contentLengthIsValid : Bool
  contentLength : ℕ
  callback : Bool
  parsedBodyLength : ℕ
  state : BodyParserState
  currentChunkSize : ℕ
  currentChunkParsedSize : ℕ
  deriving DecidableEq, Repr

/-- What the callback is told: `BodyParseEventOnData` with the bytes it may read and their number,
`BodyParseEventOnComplete` with the place of its pointer in the bytes parsed. -/
inductive BodyEvent
  | onData (data : List UInt8) (length : ℕ)
  | onComplete (offset : ℕ)
  deriving DecidableEq, Repr

/-- `HttpInitMsgParser`, with memory for the parser. -/
def httpInitMsgParser (method : HttpMethod) (statusCode : HttpStatusCode)
    (headers : List HttpHeader) (callback : Bool) : BodyParser :=
  let ignoreBody := httpIoNoMessageBody method statusCode
  let (status, contentLength) := httpIoParseContentLengthHeader headers
  { ignoreBody
    isChunked := httpIoIsChunked headers
    contentLengthIsValid := !status.isError
    contentLength := contentLength.getD 0
    callback := !ignoreBody && callback
    parsedBodyLength := 0
    state := if ignoreBody then .complete else .bodyStart
    currentChunkSize := 0
    currentChunkParsedSize := 0 }

/-- `NET_IS_HEX_CHAR`. -/
def isHexChar (c : UInt8) : Bool := (48 ≤ c ∧ c ≤ 57) ∨ (65 ≤ c ∧ c ≤ 70) ∨ (97 ≤ c ∧ c ≤ 102)

def httpIoHexCharToUintn (c : UInt8) : ℕ :=
  if 48 ≤ c ∧ c ≤ 57 then c.toNat - 48 else 10 + (asciiCharToUpper c).toNat - 65

/-- `\r`. -/
def cr : UInt8 := 13

/-- `\n`. -/
def lf : UInt8 := 10

/-- `;`. -/
def semicolon : UInt8 := 59

/-- The callback is told, when there is one. -/
def notify (p : BodyParser) (events : List BodyEvent) (event : BodyEvent) : List BodyEvent :=
  if p.callback then events ++ [event] else events

/-- The parser, `Char` as an offset in `Body`, and what the callback was told in this call. -/
abbrev ParseState := BodyParser × ℕ × List BodyEvent

abbrev ParseResult := EfiStatus × BodyParser × List BodyEvent

section Cases

variable (body : List UInt8) (p : BodyParser) (char : ℕ) (events : List BodyEvent)

/-- `BodyParserBodyIdentity`. -/
def identityCase : ParseState :=
  let portionLength := min body.length (sub64 p.contentLength p.parsedBodyLength)
  let (portionLength, p) :=
    if portionLength = 0 then (body.length, { p with contentLength := body.length })
    else (portionLength, p)
  let events := notify p events (.onData ((body.drop char).take portionLength) portionLength)
  let char := char + portionLength
  let p := { p with parsedBodyLength := add64 p.parsedBodyLength portionLength }
  if p.parsedBodyLength = p.contentLength then
    ({ p with state := .complete }, char, notify p events (.onComplete char))
  else (p, char, events)

/-- `BodyParserChunkSize`, and what `BodyParserChunkSizeStart` falls through to. -/
def chunkSizeCase (c : UInt8) : ParseState ⊕ ParseResult :=
  if !isHexChar c then
    if c = semicolon then .inl ({ p with state := .chunkExtStart }, char + 1, events)
    else if c = cr then .inl ({ p with state := .chunkSizeEndCR }, char + 1, events)
    else .inl ({ p with state := .stateMax }, char, events)
  else if (maxUintn - 16) / 16 < p.currentChunkSize then .inr (.invalidParameter, p, events)
  else
    .inl ({ p with currentChunkSize := p.currentChunkSize * 16 + httpIoHexCharToUintn c },
      char + 1, events)

/-- `BodyParserChunkSizeEndCR`. -/
def chunkSizeEndCase (c : UInt8) : ParseState :=
  if c ≠ lf then ({ p with state := .stateMax }, char, events)
  else if p.currentChunkSize = 0 then
    ({ p with contentLengthIsValid := true, state := .lastCRLF }, char + 1, events)
  else ({ p with state := .chunkDataStart, currentChunkParsedSize := 0 }, char + 1, events)

/-- `BodyParserChunkDataStart`. -/
def chunkDataCase : ParseState :=
  let remainderLengthInThis := body.length - char
  let lengthForCallback :=
    min (sub64 p.currentChunkSize p.currentChunkParsedSize) remainderLengthInThis
  let events :=
    notify p events (.onData ((body.drop char).take lengthForCallback) lengthForCallback)
  let p := { p with
    contentLength := add64 p.contentLength lengthForCallback
    currentChunkParsedSize := add64 p.currentChunkParsedSize lengthForCallback }
  if p.currentChunkParsedSize = p.currentChunkSize then
    ({ p with state := .chunkDataEnd }, char + lengthForCallback, events)
  else (p, char + lengthForCallback, events)

/-- The `switch` of `HttpParseMessageBody` at the byte `c`. -/
def parseCase (c : UInt8) : ParseState ⊕ ParseResult :=
  match p.state with
  | .stateMax => .inr (.aborted, p, events)
  | .bodyIdentity => .inl (identityCase body p char events)
  | .chunkSizeStart =>
    chunkSizeCase { p with currentChunkSize := 0, state := .chunkSize } char events c
  | .chunkSize => chunkSizeCase p char events c
  | .chunkExtStart =>
    if c = cr then .inl ({ p with state := .chunkSizeEndCR }, char + 1, events)
    else .inl (p, char + 1, events)
  | .chunkSizeEndCR => .inl (chunkSizeEndCase p char events c)
  | .lastCRLF =>
    if c = cr then .inl ({ p with state := .lastCRLFEnd }, char + 1, events)
    else .inl ({ p with state := .trailer }, char, events)
  | .lastCRLFEnd =>
    if c = lf then
      .inl ({ p with state := .complete }, char + 1, notify p events (.onComplete (char + 1)))
    else .inl ({ p with state := .stateMax }, char, events)
  | .trailer =>
    if c = cr then .inl ({ p with state := .chunkSizeEndCR }, char + 1, events)
    else .inl (p, char + 1, events)
  | .chunkDataStart => .inl (chunkDataCase body p char events)
  | .chunkDataEnd =>
    if c = cr then .inl ({ p with state := .chunkDataEndCR }, char + 1, events)
    else .inl ({ p with state := .stateMax }, char + 1, events)
  | .chunkDataEndCR =>
    if c ≠ lf then .inl ({ p with state := .stateMax }, char, events)
    else .inl ({ p with state := .chunkSizeStart }, char + 1, events)
  -- the `default` case leaves everything as it is, `Char` included
  | .bodyStart => .inl (p, char, events)
  | .complete => .inl (p, char, events)

end Cases

/-- One round of the loop of `HttpParseMessageBody`. -/
def parseStep (body : List UInt8) : ParseState → ParseState ⊕ ParseResult
  | (p, char, events) =>
    match body[char]? with
    | some c => parseCase body p char events c
    | none => .inr (if p.state = .stateMax then .aborted else .success, p, events)

/-- The parser at its first call. -/
def startBody (p : BodyParser) : BodyParser :=
  if p.state = .bodyStart then
    { p with
      parsedBodyLength := 0
      state := if p.isChunked then .chunkSizeStart else .bodyIdentity }
  else p

def httpParseMessageBody (fuel : ℕ) (p : BodyParser) (body : List UInt8) : Option ParseResult :=
  if body = [] then some (.invalidParameter, p, [])
  else if p.ignoreBody then
    let p := { p with state := .complete }
    some (.success, p, notify p [] (.onComplete 0))
  else loop (parseStep body) fuel (startBody p, 0, [])

def httpGetEntityLength (p : BodyParser) : EfiStatus × Option ℕ :=
  if p.contentLengthIsValid then (.success, some p.contentLength) else (.notReady, none)

/-- The event, with the place counted from the start of the message. -/
def BodyEvent.shift (before : ℕ) : BodyEvent → BodyEvent
  | onData data length => onData data length
  | onComplete offset => onComplete (before + offset)

/-- Calls of `HttpParseMessageBody`, one for each piece of the bytes received, until one returns an
error: what the callback was told in all of them. -/
def parseCalls (fuel : ℕ) : BodyParser → List (List UInt8) → Option ParseResult
  | p, [] => some (.success, p, [])
  | p, body :: rest => do
    let (status, p, events) ← httpParseMessageBody fuel p body
    if status.isError then return (status, p, events)
    else
      let (status, p, later) ← parseCalls fuel p rest
      return (status, p, events ++ later.map (.shift body.length))

end Edk2.Http
