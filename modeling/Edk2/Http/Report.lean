import Edk2.Http.Parse

/-!
# What is reported of a message body

`HttpParseMessageBody` reports what the bytes of a message say, however they are cut, as long as no
byte behind the end of the message is handed to it, the message is chunked without `Content-Length`,
or is counted by a `Content-Length` that is not zero. Behind the end of the message it never
returns; `Content-Length: 0` is taken for no `Content-Length`; and without one, the first piece is
taken for the whole message.

## Main results

* `reports_iff`: calls report what the bytes say exactly on the byte strings that are `Parsable`
-/

namespace Edk2.Http

open List Option

variable {p p' : BodyParser} {bytes body data : List UInt8} {headers : List HttpHeader} {n : ℕ}
  {cuts : List (List UInt8)} {events : List BodyEvent} {status : EfiStatus}

/-- A way of cutting the bytes received into the pieces of the calls. -/
structure CutOf (bytes : List UInt8) (cuts : List (List UInt8)) : Prop where
  flatten : cuts.flatten = bytes
  ne_nil : ∀ body ∈ cuts, body ≠ []
  length_lt : ∀ body ∈ cuts, body.length < 2 ^ 64

/-- Where the end of the message is, in a byte string of length `total`. -/
def Ending.places (total : ℕ) : Ending → List ℕ
  | .more => []
  | .complete rest => [total - rest.length]
  | .malformed => []

/-- The calls ended with `status` and the parser `p`, and the callback was told `events`: a report
of what the bytes say. It gives the data, and the end of the message once, where it is; the length
of the entity is then that of the data; and there is an error when the bytes are not those of a
message. -/
structure Report (headers : List HttpHeader) (bytes : List UInt8) (status : EfiStatus)
    (p : BodyParser) (events : List BodyEvent) : Prop where
  told : Told events (decodeBody headers bytes).data
    ((decodeBody headers bytes).ending.places bytes.length)
  status : status = .success ↔ (decodeBody headers bytes).ending ≠ .malformed
  entity : ∀ rest, (decodeBody headers bytes).ending = .complete rest →
    httpGetEntityLength p = (.success, some (decodeBody headers bytes).data.length)

/-- The calls all return, and report what the bytes say. -/
def Reports (headers : List HttpHeader) (bytes : List UInt8) (p : BodyParser)
    (cuts : List (List UInt8)) : Prop :=
  ∃ status p' events, Yields (fun fuel => parseCalls fuel p cuts) (status, p', events) ∧
    Report headers bytes status p' events

/-- The byte strings that are reported however they are cut. -/
def Parsable (headers : List HttpHeader) (bytes : List UInt8) : Prop :=
  if httpIoIsChunked headers then
    ∀ rest, (decodeBody headers bytes).ending = .complete rest →
      rest = [] ∧ (∀ n ∈ declaredLength headers, n = 0) ∧
        (decodeBody headers bytes).data.length < 2 ^ 64
  else
    ∃ n, declaredLength headers = some n ∧ 0 < n ∧ bytes.length ≤ n ∧
      (2 ^ 64 ≤ n → bytes.length < 2 ^ 64 - 1)

/-! ## The calls from the start -/

/-- A parser as `HttpInitMsgParser` sets it up for a message with a body. -/
structure Initial (headers : List HttpHeader) (p : BodyParser) : Prop where
  ignoreBody : p.ignoreBody = false
  callback : p.callback = true
  isChunked : p.isChunked = httpIoIsChunked headers
  state : p.state = .bodyStart
  currentChunkSize : p.currentChunkSize = 0
  contentLength : (declaredLength headers = none ∧ p.contentLengthIsValid = false ∧
      p.contentLength = 0) ∨
    (∃ n, declaredLength headers = some n ∧ n < 2 ^ 64 ∧ p.contentLengthIsValid = true ∧
      p.contentLength = n) ∨
    ∃ n, declaredLength headers = some n ∧ 2 ^ 64 ≤ n ∧ p.contentLengthIsValid = false ∧
      p.contentLength = maxUintn

theorem initial_httpInitMsgParser {method : HttpMethod} {statusCode : HttpStatusCode}
    (h : httpIoNoMessageBody method statusCode = false) (headers : List HttpHeader) :
    Initial headers (httpInitMsgParser method statusCode headers true) := by
  refine ⟨h, ?_, rfl, ?_, rfl, ?_⟩
  · simp only [httpInitMsgParser, h]
    rfl
  · simp only [httpInitMsgParser, h]
    rfl
  · simp only [httpInitMsgParser]
    rcases httpIoParseContentLengthHeader_eq headers with
      ⟨hnone, he, hz⟩ | ⟨n, hs, hlt, heq⟩ | ⟨n, hs, hge, heq⟩
    · exact .inl ⟨hnone, by rw [he]; rfl, hz⟩
    · rw [heq]
      exact .inr (.inl ⟨n, hs, hlt, rfl, rfl⟩)
    · rw [heq]
      exact .inr (.inr ⟨n, hs, hge, rfl, rfl⟩)

theorem Initial.contentLength_lt (h : Initial headers p) : p.contentLength < 2 ^ 64 := by
  rcases h.contentLength with ⟨-, -, hz⟩ | ⟨n, -, hlt, -, heq⟩ | ⟨n, -, -, -, heq⟩
  · omega
  · omega
  · unfold maxUintn at heq
    omega

theorem Initial.declared (h : Initial headers p) (hn : declaredLength headers = some n) :
    n < 2 ^ 64 ∧ p.contentLengthIsValid = true ∧ p.contentLength = n ∨
      2 ^ 64 ≤ n ∧ p.contentLength = 2 ^ 64 - 1 := by
  rcases h.contentLength with ⟨hnone, -⟩ | ⟨m, hm, hlt, hv, heq⟩ | ⟨m, hm, hge, -, heq⟩
  · cases hn.symm.trans hnone
  · cases hn.symm.trans hm
    exact .inl ⟨hlt, hv, heq⟩
  · cases hn.symm.trans hm
    exact .inr ⟨hge, heq⟩

theorem parseCalls_startBody (h : Initial headers p) (fuel : ℕ) (body : List UInt8)
    (cuts : List (List UInt8)) (hb : body ≠ []) :
    parseCalls fuel p (body :: cuts) = parseCalls fuel (startBody p) (body :: cuts) := by
  have hs : startBody (startBody p) = startBody p := by
    refine startBody_of_ne ?_
    rw [startBody, if_pos h.state]
    split <;> simp
  have hc : httpParseMessageBody fuel p body = httpParseMessageBody fuel (startBody p) body := by
    have hig : (startBody p).ignoreBody = false := by
      rw [startBody, if_pos h.state]
      exact h.ignoreBody
    simp only [httpParseMessageBody, if_neg hb, h.ignoreBody, hig, hs,
      Bool.false_eq_true, if_false]
  rw [parseCalls, parseCalls, hc]

theorem cutOf_single (bytes : List UInt8) : CutOf bytes (bytes.map ([·])) := by
  refine ⟨?_, ?_, ?_⟩
  · exact flatMap_singleton' bytes
  · intro body hb
    obtain ⟨c, -, rfl⟩ := mem_map.mp hb
    exact cons_ne_nil c []
  · intro body hb
    obtain ⟨c, -, rfl⟩ := mem_map.mp hb
    exact Nat.one_lt_two_pow (by decide)

theorem live_chunks (h : Initial headers p) (hc : httpIoIsChunked headers = true) :
    Live (startBody p) ∧ (startBody p).state = .chunkSizeStart ∧
      (startBody p).contentLength = p.contentLength := by
  have hs : startBody p = { p with parsedBodyLength := 0, state := .chunkSizeStart } := by
    rw [startBody, if_pos h.state, h.isChunked, hc]
    rfl
  rw [hs]
  refine ⟨⟨h.callback, h.ignoreBody, ?_, ?_, ?_, ?_⟩, rfl, rfl⟩
  · rw [h.currentChunkSize]
    exact Nat.two_pow_pos 64
  all_goals simp

theorem live_identity (h : Initial headers p) (hc : httpIoIsChunked headers = false) :
    startBody p = { p with parsedBodyLength := 0, state := .bodyIdentity } ∧
      (0 < p.contentLength → Live (startBody p)) := by
  have hs : startBody p = { p with parsedBodyLength := 0, state := .bodyIdentity } := by
    rw [startBody, if_pos h.state, h.isChunked, hc]
    rfl
  refine ⟨hs, fun hpos => ?_⟩
  rw [hs]
  refine ⟨h.callback, h.ignoreBody, ?_, by simp, fun _ => ⟨hpos, h.contentLength_lt⟩, by simp⟩
  rw [h.currentChunkSize]
  exact Nat.two_pow_pos 64

theorem callsSpec_initial (h : Initial headers p) (hl : Live (startBody p)) (hne : bytes ≠ [])
    (hc : CutOf bytes cuts) : CallsSpec (startBody p) cuts (feedAll feed (startBody p) bytes) ∧
      ∀ fuel, parseCalls fuel p cuts = parseCalls fuel (startBody p) cuts := by
  refine ⟨?_, fun fuel => ?_⟩
  · rw [← hc.flatten]
    exact callsSpec hl hc.ne_nil
  · cases cuts with
    | nil => exact absurd hc.flatten.symm hne
    | cons body cuts =>
      exact parseCalls_startBody h fuel body cuts (hc.ne_nil body mem_cons_self)

theorem report_more (hd : decodeBody headers bytes = ⟨data, .more⟩) (ht : Told events data []) :
    Report headers bytes .success p events := by
  refine ⟨by rwa [hd], by simp [hd], fun rest hr => ?_⟩
  rw [hd] at hr
  cases hr

theorem reports_nil (hd : decodeBody headers [] = ⟨[], .more⟩) (hc : CutOf [] cuts) :
    Reports headers [] p cuts := by
  have hnil : cuts = [] := by
    refine eq_nil_iff_forall_not_mem.mpr fun body hb => hc.ne_nil body hb ?_
    exact flatten_eq_nil_iff.mp hc.flatten body hb
  subst hnil
  exact ⟨.success, p, [], ⟨0, rfl⟩, report_more hd told_nil⟩

/-! ## Chunked messages -/

theorem agrees_initial (h : Initial headers p) (hc : httpIoIsChunked headers = true)
    (bytes : List UInt8) :
    Agrees p.contentLength (feedAll feed (startBody p) bytes) (decodeBody headers bytes) := by
  obtain ⟨-, hs, hl⟩ := live_chunks h hc
  have ha := feedAll_chunks hs (hl ▸ h.contentLength_lt)
    (Nat.lt_succ_self bytes.length)
  rw [decodeBody, if_pos hc, ← hl]
  exact ha

theorem reports_chunks (h : Initial headers p) (hc : httpIoIsChunked headers = true)
    (hp : Parsable headers bytes) (hcu : CutOf bytes cuts) :
    Reports headers bytes p cuts := by
  obtain ⟨hl, hst, hlen⟩ := live_chunks h hc
  rw [Parsable, if_pos hc] at hp
  by_cases hne : bytes = []
  · subst hne
    refine reports_nil ?_ hcu
    rw [decodeBody, if_pos hc]
    rfl
  obtain ⟨hca, hsa⟩ := callsSpec_initial h hl hne hcu
  have ha := agrees_initial h hc bytes
  simp only [Reports, hsa]
  generalize hd : decodeBody headers bytes = d at ha hp
  generalize feedAll feed (startBody p) bytes = o at hca ha
  cases ha with
  | more p' data =>
    cases hca with
    | more _ events _ hr ht => exact ⟨_, p', events, hr, report_more hd ht⟩
  | done p' data rest hle hv =>
    obtain ⟨hre, hz, hlt⟩ := hp rest rfl
    cases hca with
    | done _ events _ hr ht =>
      refine ⟨_, p', events, hr, ?_, ?_, ?_⟩
      · rw [hcu.flatten] at ht
        rwa [hd]
      · simp [hd]
      · intro _ _
        have hs : p.contentLength = 0 := by
          rcases h.contentLength with ⟨-, -, h0⟩ | ⟨n, hn, -, -, heq⟩ | ⟨n, hn, hge, -, -⟩
          · exact h0
          · rw [heq]
            exact hz n hn
          · have := hz n hn
            omega
        have hen : p'.contentLength = data.length := by
          rw [hle, hs, add64_of_lt (by simpa using hlt), Nat.zero_add]
        rw [httpGetEntityLength, if_pos hv, hen, hd]
    | stuck _ _ _ hne' _ => exact absurd hre hne'
  | failed e data he =>
    cases hca with
    | failed _ p' events _ hr ht _ =>
      refine ⟨_, p', events, hr, ?_, ?_, ?_⟩
      · rwa [hd]
      · have hne' := EfiStatus.isError_eq_true.mp he
        simp [hd, hne']
      · intro rest hre
        rw [hd] at hre
        cases hre

theorem parsable_chunks (h : Initial headers p) (hc : httpIoIsChunked headers = true)
    (hre : ∀ cuts, CutOf bytes cuts → Reports headers bytes p cuts) :
    Parsable headers bytes := by
  obtain ⟨hl, hst, hlen⟩ := live_chunks h hc
  rw [Parsable, if_pos hc]
  intro rest hen
  have hne : bytes ≠ [] := by
    rintro rfl
    rw [decodeBody, if_pos hc] at hen
    cases hen
  obtain ⟨hca, hs⟩ := callsSpec_initial h hl hne (cutOf_single bytes)
  obtain ⟨status, p₁, events, hr, hrep⟩ := hre _ (cutOf_single bytes)
  simp only [hs] at hr
  have hent := hrep.entity rest hen
  have ha := agrees_initial h hc bytes
  have hlt := h.contentLength_lt
  generalize hd : decodeBody headers bytes = d at ha hen hent
  generalize feedAll feed (startBody p) bytes = o at hca ha
  cases ha with
  | more p' data => cases hen
  | failed e data he => cases hen
  | done p' data rest' hle hv =>
    cases hen
    cases hca with
    | stuck _ _ _ hne' hno => exact absurd ⟨_, hr⟩ hno
    | done _ events' _ hr' ht =>
      cases Yields.unique (steady_parseCalls _ _) hr hr'
      rw [httpGetEntityLength, if_pos hv] at hent
      have heq : _ = data.length := some.inj (congrArg Prod.snd hent)
      -- the length the parser started with can only be zero
      have had := add64_lt p.contentLength data.length
      rw [hle] at heq
      have hsta : p.contentLength = 0 := by
        unfold add64 at heq
        omega
      refine ⟨rfl, fun n hn => ?_, heq ▸ had⟩
      have := h.declared hn
      omega

/-! ## Counted messages -/

theorem decodeBody_some (hc : httpIoIsChunked headers = false)
    (hd : declaredLength headers = some n) (bytes : List UInt8) :
    decodeBody headers bytes =
      if bytes.length < n then ⟨bytes, .more⟩ else ⟨bytes.take n, .complete (bytes.drop n)⟩ := by
  simp only [decodeBody, hc, Bool.false_eq_true, if_false, hd]

theorem feedAll_initial (h : Initial headers p) (hc : httpIoIsChunked headers = false)
    (hpos : 0 < p.contentLength) (bytes : List UInt8) :
    (bytes.length < p.contentLength ∧ ∃ p', feedAll feed (startBody p) bytes = .more p' bytes) ∨
    (p.contentLength ≤ bytes.length ∧
      feedAll feed (startBody p) bytes =
        .done { p with parsedBodyLength := p.contentLength, state := .complete }
          (bytes.take p.contentLength) (bytes.drop p.contentLength)) := by
  obtain ⟨hs, -⟩ := live_identity h hc
  rw [hs]
  rcases feedAll_identity (p := { p with parsedBodyLength := 0, state := .bodyIdentity }) bytes rfl
    hpos with ⟨hshort, hm⟩ | ⟨hl, hd⟩
  · exact .inl ⟨hshort, _, hm⟩
  · exact .inr ⟨hl, hd⟩

theorem reports_identity (h : Initial headers p) (hch : httpIoIsChunked headers = false)
    (hp : Parsable headers bytes) (hcu : CutOf bytes cuts) :
    Reports headers bytes p cuts := by
  rw [Parsable, if_neg (by simp [hch])] at hp
  obtain ⟨n, hde, hpos, hle, hb⟩ := hp
  have hdec := decodeBody_some hch hde bytes
  by_cases hne : bytes = []
  · subst hne
    rw [length_nil, if_pos hpos] at hdec
    exact reports_nil hdec hcu
  have hlen : 0 < p.contentLength ∧ (bytes.length < p.contentLength ∧ bytes.length < n ∨
      p.contentLength = n ∧ bytes.length = n ∧ p.contentLengthIsValid = true) := by
    rcases h.declared hde with ⟨-, hv, heq⟩ | ⟨hge, heq⟩
    · have hca := lt_or_eq_of_le hle
      refine ⟨by omega, hca.imp (fun hlt => by omega) fun heq' => ⟨heq, heq', hv⟩⟩
    · exact ⟨by omega, .inl (by omega)⟩
  obtain ⟨hl, hca⟩ := hlen
  obtain ⟨hc, hs⟩ := callsSpec_initial h ((live_identity h hch).2 hl) hne hcu
  simp only [Reports, hs]
  rcases hca with ⟨hshort, hs'⟩ | ⟨heq, heq', hv⟩
  · rw [if_pos hs'] at hdec
    rcases feedAll_initial h hch hl bytes with ⟨-, p', hm⟩ | ⟨hlo, -⟩
    · rw [hm] at hc
      cases hc with
      | more _ events _ hr ht => exact ⟨_, p', events, hr, report_more hdec ht⟩
    · omega
  · rw [if_neg (by omega), ← heq', take_length, drop_length] at hdec
    rcases feedAll_initial h hch hl bytes with ⟨hshort, -⟩ | ⟨-, hd⟩
    · omega
    · rw [heq, ← heq', take_length, drop_length] at hd
      rw [hd] at hc
      cases hc with
      | done _ events _ hr ht =>
        rw [hcu.flatten] at ht
        refine ⟨_, _, events, hr, ?_, ?_, ?_⟩
        · rwa [hdec]
        · simp [hdec]
        · intro rest _
          rw [httpGetEntityLength, if_pos hv, hdec]
      | stuck _ _ _ hne' _ => exact absurd rfl hne'

/-- The parser that has taken a piece for the whole message. -/
def wholeMessage (p : BodyParser) (body : List UInt8) : BodyParser :=
  { p with
    contentLength := body.length
    parsedBodyLength := body.length
    state := .complete }

/-- **Without a length, or with the length zero, the first piece is taken for the message.** -/
theorem callSpec_zero (h : Initial headers p) (hc : httpIoIsChunked headers = false)
    (hz : p.contentLength = 0) (hb : body ≠ []) (hlt : body.length < 2 ^ 64) :
    Yields (fun fuel => httpParseMessageBody fuel p body)
      (.success, wholeMessage p body, [.onData body body.length, .onComplete body.length]) := by
  obtain ⟨hsta, -⟩ := live_identity h hc
  have hpos := length_pos_iff.mpr hb
  rw [yields_httpParseMessageBody h.ignoreBody hb, hsta]
  have hs : sub64 0 0 = 0 := sub64_of_le (Nat.two_pow_pos 64) (Nat.le_refl 0)
  have ha : add64 0 body.length = body.length := by
    rw [add64_of_lt (by simpa using hlt), Nat.zero_add]
  have hst : parseStep body
      ({ p with parsedBodyLength := 0, state := .bodyIdentity }, 0, []) =
      .inl (wholeMessage p body, body.length,
        [.onData body body.length, .onComplete body.length]) := by
    rw [parseStep_some [] (List.getElem?_eq_getElem hpos), parseCase]
    simp only [identityCase, hz, hs, Nat.min_zero, if_true, ha, drop_zero,
      take_length, Nat.zero_add, notify, h.callback, nil_append, singleton_append,
      wholeMessage]
  refine (returns_inl_iff hst).mpr (returns_of_inr ?_)
  rw [parseStep_none (Nat.le_refl _)]
  rfl

theorem not_reports_zero (bytes : List UInt8) (h : Initial headers p)
    (hc : httpIoIsChunked headers = false)
    (hd : ∀ n ∈ declaredLength headers, n = 0) :
    ∃ cuts, CutOf bytes cuts ∧ ¬ Reports headers bytes p cuts := by
  refine ⟨_, cutOf_single bytes, ?_⟩
  rintro ⟨status, p₁, events, hre, hrep⟩
  have hz : p.contentLength = 0 ∧ ∃ rest, (decodeBody headers bytes).ending = .complete rest ∧
      ((decodeBody headers bytes).data = [] ∨
        (rest = [] ∧ p.contentLengthIsValid = false)) := by
    rcases h.contentLength with ⟨hnone, hv, h0⟩ | ⟨n, hn, -, -, heq⟩ | ⟨n, hn, hge, -, -⟩
    · refine ⟨h0, [], ?_, .inr ⟨rfl, hv⟩⟩
      simp only [decodeBody, hc, hnone, Bool.false_eq_true, if_false]
    · have hn0 := hd n hn
      subst hn0
      rw [decodeBody_some hc hn]
      exact ⟨heq, _, rfl, .inl rfl⟩
    · have := hd n hn
      omega
  obtain ⟨hl, rest, hen, hcas⟩ := hz
  cases bytes with
  | nil =>
    -- no call is made, and the end of the message is not reported
    cases hre.unique (steady_parseCalls p []) ⟨0, rfl⟩
    have hp := hrep.told.completions
    rw [hen] at hp
    cases hp
  | cons c bytes =>
    have hca := callSpec_zero h hc hl (cons_ne_nil c [])
      (Nat.one_lt_two_pow (by decide))
    cases bytes with
    | nil =>
      have hnone : Yields (fun fuel => parseCalls fuel (wholeMessage p [c]) [])
          (.success, wholeMessage p [c], []) := ⟨0, rfl⟩
      have hnil := yields_cons hca hnone
      cases hre.unique (steady_parseCalls p [[c]]) hnil
      rcases hcas with hda | ⟨-, hv⟩
      · have hr := hrep.told.reported
        rw [hda] at hr
        cases hr
      · have he := hrep.entity rest hen
        simp [httpGetEntityLength, wholeMessage, hv] at he
    | cons d bytes =>
      obtain ⟨status', p₂, events', hf, ht⟩ := Terminates.of_cons ⟨_, hre⟩
      cases hf.unique (steady_httpParseMessageBody p [c]) hca
      have ho : Over (wholeMessage p [c]) := ⟨rfl, h.ignoreBody⟩
      exact not_terminates_over ho (cons_ne_nil d []) (ht rfl)

theorem parsable_identity (h : Initial headers p) (hch : httpIoIsChunked headers = false)
    (hre : ∀ cuts, CutOf bytes cuts → Reports headers bytes p cuts) :
    Parsable headers bytes := by
  rw [Parsable, if_neg (by simp [hch])]
  by_cases hd : ∀ n ∈ declaredLength headers, n = 0
  · obtain ⟨cuts, hcu, hno⟩ := not_reports_zero bytes h hch hd
    exact absurd (hre cuts hcu) hno
  push Not at hd
  obtain ⟨n, hn, hpos⟩ := hd
  refine ⟨n, hn, Nat.pos_of_ne_zero hpos, ?_⟩
  by_contra hlo
  have hlength : 0 < p.contentLength ∧ p.contentLength ≤ bytes.length ∧
      (p.contentLength < bytes.length ∨ bytes.length < n) := by
    have := h.declared hn
    omega
  obtain ⟨hl, hle, hca⟩ := hlength
  have hne : bytes ≠ [] := by
    rintro rfl
    rw [length_nil] at hle
    omega
  obtain ⟨hc, hs⟩ :=
    callsSpec_initial h ((live_identity h hch).2 hl) hne (cutOf_single bytes)
  obtain ⟨status, p₁, events, hr, hrep⟩ := hre _ (cutOf_single bytes)
  simp only [hs] at hr
  rcases feedAll_initial h hch hl bytes with ⟨hshort, -⟩ | ⟨-, hdo⟩
  · omega
  rw [hdo] at hc
  generalize hres : bytes.drop p.contentLength = rest at hc
  cases hc with
  | stuck _ _ _ _ hno => exact hno ⟨_, hr⟩
  | done _ events' _ hr' ht =>
    -- the end is reported before it is there
    cases hr.unique (steady_parseCalls _ _) hr'
    have hlen := congrArg List.length hres
    rw [length_drop, length_nil] at hlen
    have hp := hrep.told.completions
    rw [decodeBody_some hch hn, if_pos (by omega), ht.completions] at hp
    cases hp

/-- **When calls report what the bytes say.** Of a message with a body, the calls of
`HttpParseMessageBody` report what the bytes say, however they are cut, exactly when nothing behind
the end of the message is among the bytes and the message is chunked without a length, or has a
length that is not zero. -/
theorem reports_iff (method : HttpMethod) (statusCode : HttpStatusCode) (headers : List HttpHeader)
    (bytes : List UInt8) (hbody : httpIoNoMessageBody method statusCode = false) :
    (∀ cuts, CutOf bytes cuts →
      Reports headers bytes (httpInitMsgParser method statusCode headers true) cuts) ↔
    Parsable headers bytes := by
  have h := initial_httpInitMsgParser hbody headers
  cases hc : httpIoIsChunked headers with
  | false =>
    exact ⟨parsable_identity h hc, fun hp cuts hcu => reports_identity h hc hp hcu⟩
  | true =>
    exact ⟨parsable_chunks h hc, fun hp cuts hcu => reports_chunks h hc hp hcu⟩

def contentLengthHeader (value : String) : HttpHeader where
  fieldName := ascii "Content-Length"
  fieldValue := ascii value

/-- Two bytes of two, in one call or in two. -/
theorem reports_iff_two : httpIoNoMessageBody .get (.other 200) = false ∧
    ∀ cuts, CutOf (ascii "ab") cuts →
      Reports [contentLengthHeader "2"] (ascii "ab")
        (httpInitMsgParser .get (.other 200) [contentLengthHeader "2"] true) cuts := by
  have hc : httpIoIsChunked [contentLengthHeader "2"] = false := by decide +kernel
  have hp : Parsable [contentLengthHeader "2"] (ascii "ab") := by
    exact ⟨2, by decide +kernel, by decide, by decide, by decide⟩
  exact ⟨rfl, (reports_iff .get (.other 200) _ _ rfl).mpr hp⟩

/-- Two bytes of one, in one call: the call does not return. -/
theorem not_reports_beyond : CutOf (ascii "ab") [ascii "ab"] ∧
    ¬ Terminates (fun fuel => parseCalls fuel
      (httpInitMsgParser .get (.other 200) [contentLengthHeader "1"] true) [ascii "ab"]) := by
  have hcu : CutOf (ascii "ab") [ascii "ab"] := by
    refine ⟨by decide, ?_, ?_⟩
    · intro body hb
      rw [mem_singleton.mp hb]
      decide
    · intro body hb
      rw [mem_singleton.mp hb]
      decide
  refine ⟨hcu, ?_⟩
  have h : Initial [contentLengthHeader "1"]
      (httpInitMsgParser .get (.other 200) [contentLengthHeader "1"] true) :=
    initial_httpInitMsgParser rfl _
  have hch : httpIoIsChunked [contentLengthHeader "1"] = false := by decide +kernel
  have ho : (httpInitMsgParser .get (.other 200) [contentLengthHeader "1"] true).contentLength
      = 1 := by decide +kernel
  generalize httpInitMsgParser .get (.other 200) [contentLengthHeader "1"] true = p at h ho
  have hpos : 0 < p.contentLength := by omega
  obtain ⟨hc, hs⟩ :=
    callsSpec_initial h ((live_identity h hch).2 hpos) (by decide) hcu
  simp only [hs]
  rcases feedAll_initial h hch hpos (ascii "ab") with ⟨hshort, -⟩ | ⟨-, hd⟩
  · rw [ho] at hshort
    exact absurd hshort (by decide)
  · have hr : (ascii "ab").drop p.contentLength ≠ [] := by
      rw [ho]
      decide
    rw [hd] at hc
    generalize (ascii "ab").drop p.contentLength = rest at hc hr
    cases hc with
    | done => exact absurd rfl hr
    | stuck _ _ _ _ hno => exact hno

end Edk2.Http
