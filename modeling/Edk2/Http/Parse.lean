import Edk2.Http.Decode

/-!
# Calls of the message-body parser

A call of `HttpParseMessageBody` is the machine of `feed` run over its piece of the bytes, with one
difference: behind the end of the message the machine is done, while the loop of the function stays
where it is for ever. So a sequence of calls does not depend on how the bytes are cut.

## Main results

* `callSpec`: one call is the machine on its piece
* `callsSpec`: a sequence of calls is the machine on the bytes together
-/

namespace Edk2.Http

open List Option

variable {p p' : BodyParser} {c : UInt8} {body bytes data : List UInt8} {char k n : ℕ}
  {events new : List BodyEvent} {ends : List ℕ} {e : EfiStatus}

/-! ## What the callback is told -/

def reported (events : List BodyEvent) : List UInt8 :=
  events.flatMap fun
    | .onData data _ => data
    | .onComplete _ => []

def completions (events : List BodyEvent) : List ℕ :=
  events.flatMap fun
    | .onData _ _ => []
    | .onComplete offset => [offset]

/-- The callback was given `data`, as many bytes at a time as it was told, and told the end of the
message at the places `ends`. -/
structure Told (events : List BodyEvent) (data : List UInt8) (ends : List ℕ) : Prop where
  reported : reported events = data
  completions : completions events = ends
  exact : ∀ part length, .onData part length ∈ events → part.length = length

theorem told_nil : Told [] [] [] := ⟨rfl, rfl, fun _ _ h => absurd h not_mem_nil⟩

theorem told_onData (h : data.length = k) : Told [.onData data k] data [] := by
  refine ⟨flatMap_singleton .., rfl, fun part length hmem => ?_⟩
  cases mem_singleton.mp hmem
  exact h

theorem told_onComplete (offset : ℕ) : Told [.onComplete offset] [] [offset] := by
  refine ⟨rfl, rfl, fun part length hmem => ?_⟩
  cases mem_singleton.mp hmem

theorem Told.append {later : List BodyEvent} {data' : List UInt8} {ends' : List ℕ}
    (h : Told events data ends) (h' : Told later data' ends') :
    Told (events ++ later) (data ++ data') (ends ++ ends') := by
  refine ⟨?_, ?_, fun part length hmem => ?_⟩
  · rw [← h.reported, ← h'.reported]
    exact flatMap_append
  · rw [← h.completions, ← h'.completions]
    exact flatMap_append
  · rcases mem_append.mp hmem with hmem | hmem
    · exact h.exact part length hmem
    · exact h'.exact part length hmem

theorem Told.shift (h : Told events data ends) (k : ℕ) :
    Told (events.map (.shift k)) data (ends.map (k + ·)) := by
  refine ⟨?_, ?_, fun part length hmem => ?_⟩
  · rw [← h.reported, Http.reported, flatMap_map]
    refine flatMap_congr fun event _ => ?_
    cases event <;> rfl
  · rw [← h.completions, Http.completions, Http.completions, flatMap_map, map_flatMap]
    refine flatMap_congr fun event _ => ?_
    cases event <;> rfl
  · obtain ⟨event, he, heq⟩ := mem_map.mp hmem
    cases event with
    | onData part' length' =>
      cases heq
      exact h.exact part length he
    | onComplete offset => cases heq

/-! ## One call -/

/-- A parser that waits for a byte of the body. -/
structure Live (p : BodyParser) : Prop where
  callback : p.callback = true
  ignoreBody : p.ignoreBody = false
  currentChunkSize_lt : p.currentChunkSize < 2 ^ 64
  state : p.state ≠ .bodyStart ∧ p.state ≠ .complete ∧ p.state ≠ .stateMax
  counted : p.state = .bodyIdentity →
    p.parsedBodyLength < p.contentLength ∧ p.contentLength < 2 ^ 64
  inChunk : p.state = .chunkDataStart → p.currentChunkParsedSize < p.currentChunkSize

def Over (p : BodyParser) : Prop := p.state = .complete ∧ p.ignoreBody = false

theorem notify_eq (h : p.callback = true) (events : List BodyEvent) (event : BodyEvent) :
    notify p events event = events ++ [event] := if_pos h

theorem parseStep_some (events : List BodyEvent) (h : body[char]? = some c) :
    parseStep body (p, char, events) = parseCase body p char events c := by
  simp only [parseStep, h]

theorem parseStep_none (h : body.length ≤ char) : parseStep body (p, char, events) =
    .inr (if p.state = .stateMax then .aborted else .success, p, events) := by
  simp only [parseStep, List.getElem?_eq_none h]

theorem returns_stateMax (hp : p.state = .stateMax) :
    Returns (parseStep body) (p, char, events) (.aborted, p, events) := by
  refine returns_of_inr ?_
  cases h : body[char]? with
  | none => simp only [parseStep, h, hp, if_true]
  | some c => rw [parseStep_some events h, parseCase, hp]

/-- Behind the end of the message the loop does not go on. -/
theorem not_returns_complete (hp : p.state = .complete) (hlt : char < body.length)
    (r : ParseResult) : ¬ Returns (parseStep body) (p, char, events) r := by
  refine not_returns ?_ rfl
  rintro _ rfl
  refine ⟨_, ?_, rfl⟩
  rw [parseStep_some events (List.getElem?_eq_getElem hlt), parseCase, hp]

/-- What the loop does at a byte: as the machine. -/
inductive ByteSpec (body : List UInt8) (p : BodyParser) (char : ℕ) (events : List BodyEvent) :
    Fed BodyParser EfiStatus UInt8 → Prop
  | next (p' : BodyParser)
      (hreach : Reaches (parseStep body) (p, char, events) (p', char + 1, events))
      (hlive : Live p') (hcounted : p'.state ≠ .bodyIdentity) :
      ByteSpec body p char events (.next p' [])
  | done (p' : BodyParser)
      (hreach : Reaches (parseStep body) (p, char, events)
        (p', char + 1, events ++ [.onComplete (char + 1)]))
      (hover : Over p') : ByteSpec body p char events (.done p' [])
  | failed (e : EfiStatus) (p' : BodyParser)
      (hret : Returns (parseStep body) (p, char, events) (e, p', events))
      (he : e.isError = true) : ByteSpec body p char events (.failed e)

section Bytes

theorem Live.withState (h : Live p) {state : BodyParserState}
    (hs : state ≠ .bodyStart ∧ state ≠ .complete ∧ state ≠ .stateMax)
    (hc : state ≠ .bodyIdentity) (hch : state ≠ .chunkDataStart) :
    Live { p with state } :=
  ⟨h.callback, h.ignoreBody, h.currentChunkSize_lt, hs, fun h' => absurd h' hc,
    fun h' => absurd h' hch⟩

variable {q : BodyParser}

theorem byteSpec_goto (hl : Live q) {state : BodyParserState}
    (hs : state ≠ .bodyStart ∧ state ≠ .complete ∧ state ≠ .stateMax)
    (hc : state ≠ .bodyIdentity) (hch : state ≠ .chunkDataStart)
    (h : parseStep body (p, char, events) = .inl ({ q with state }, char + 1, events)) :
    ByteSpec body p char events (.next { q with state } []) :=
  .next _ (.single h) (hl.withState hs hc hch) hc

theorem byteSpec_abort {char' : ℕ}
    (h : parseStep body (p, char, events) = .inl ({ q with state := .stateMax }, char', events)) :
    ByteSpec body p char events (.failed .aborted) :=
  .failed _ _ ((returns_inl_iff h).mpr (returns_stateMax rfl)) rfl

theorem ByteSpec.of_step {f : Fed BodyParser EfiStatus UInt8}
    (hs : parseStep body (p, char, events) = .inl (q, char, events))
    (h : ByteSpec body q char events f) : ByteSpec body p char events f := by
  cases h with
  | next p' hr hl hc => exact .next p' (.head hs hr) hl hc
  | done p' hr ho => exact .done p' (.head hs hr) ho
  | failed e p' hre he => exact .failed e p' ((returns_inl_iff hs).mpr hre) he

theorem byteSpec_size (hl : Live q) (hq : q.state = .chunkSize)
    (h : parseStep body (p, char, events) = chunkSizeCase q char events c) :
    ByteSpec body p char events (feedSize q c) := by
  rw [chunkSizeCase] at h
  rw [feedSize]
  by_cases hh : isHexChar c
  · have hlt := httpIoHexCharToUintn_lt hh
    simp only [hh, Bool.not_true, Bool.false_eq_true, if_false] at h ⊢
    split at h
    · rename_i hs
      rw [if_pos hs]
      exact .failed _ _ (returns_of_inr h) rfl
    · rename_i hs
      rw [if_neg hs]
      unfold maxUintn at hs
      refine .next _ (.single h) ⟨hl.callback, hl.ignoreBody, by simp only; omega,
        hl.state, fun hid => ?_, fun hd => ?_⟩ (by simp [hq])
      · rw [hq] at hid
        cases hid
      · rw [hq] at hd
        cases hd
  · rw [if_pos (by simpa using hh)] at h ⊢
    by_cases hse : c = semicolon
    · rw [if_pos hse] at h ⊢
      exact byteSpec_goto hl (by decide) (by decide) (by decide) h
    · rw [if_neg hse] at h ⊢
      by_cases hcr : c = cr
      · rw [if_pos hcr] at h ⊢
        exact byteSpec_goto hl (by decide) (by decide) (by decide) h
      · rw [if_neg hcr] at h ⊢
        exact byteSpec_abort h

theorem byteSpec_skip (hl : Live p) (hc : p.state ≠ .bodyIdentity)
    (h : parseStep body (p, char, events) =
      if c = cr then .inl ({ p with state := .chunkSizeEndCR }, char + 1, events)
      else .inl (p, char + 1, events)) :
    ByteSpec body p char events (feedSkip p c) := by
  rw [feedSkip]
  by_cases hcr : c = cr
  · rw [if_pos hcr] at h ⊢
    exact byteSpec_goto hl (by decide) (by decide) (by decide) h
  · rw [if_neg hcr] at h ⊢
    exact .next p (.single h) hl hc

theorem byteSpec_sizeEnd (hl : Live p)
    (h : parseStep body (p, char, events) = .inl (chunkSizeEndCase p char events c)) :
    ByteSpec body p char events
      (if c ≠ lf then .failed .aborted
      else if p.currentChunkSize = 0 then
        .next { p with contentLengthIsValid := true, state := .lastCRLF } []
      else .next { p with state := .chunkDataStart, currentChunkParsedSize := 0 } []) := by
  rw [chunkSizeEndCase] at h
  by_cases hlf : c ≠ lf
  · rw [if_pos hlf] at h ⊢
    exact byteSpec_abort h
  · rw [if_neg hlf] at h ⊢
    by_cases hz : p.currentChunkSize = 0
    · rw [if_pos hz] at h ⊢
      refine .next _ (.single h) ⟨hl.callback, hl.ignoreBody, hl.currentChunkSize_lt,
        ⟨?_, ?_, ?_⟩, ?_, ?_⟩ ?_ <;> simp
    · rw [if_neg hz] at h ⊢
      refine .next _ (.single h) ⟨hl.callback, hl.ignoreBody, hl.currentChunkSize_lt,
        ⟨?_, ?_, ?_⟩, ?_, fun _ => Nat.pos_of_ne_zero hz⟩ ?_ <;> simp

/-- **The loop at a byte**, outside of the data. -/
theorem byteSpec (hl : Live p) (hcn : p.state ≠ .bodyIdentity)
    (hch : p.state ≠ .chunkDataStart) (hc : body[char]? = some c) (events : List BodyEvent) :
    ByteSpec body p char events (feed p c) := by
  have hs := parseStep_some (p := p) events hc
  cases hp : p.state with
  | bodyStart => exact absurd hp hl.state.1
  | bodyIdentity => exact absurd hp hcn
  | chunkSizeStart =>
    simp only [parseCase, feed, hp] at hs ⊢
    refine byteSpec_size ⟨hl.callback, hl.ignoreBody, Nat.two_pow_pos 64, ⟨?_, ?_, ?_⟩,
      ?_, ?_⟩ rfl hs <;> simp
  | chunkSize =>
    simp only [parseCase, feed, hp] at hs ⊢
    exact byteSpec_size hl hp hs
  | chunkSizeEndCR =>
    simp only [parseCase, feed, hp] at hs ⊢
    exact byteSpec_sizeEnd hl hs
  | chunkExtStart =>
    simp only [parseCase, feed, hp] at hs ⊢
    exact byteSpec_skip hl hcn hs
  | chunkDataStart => exact absurd hp hch
  | chunkDataEnd =>
    simp only [parseCase, feed, hp] at hs ⊢
    by_cases hcr : c = cr
    · rw [if_pos hcr] at hs ⊢
      exact byteSpec_goto hl (by decide) (by decide) (by decide) hs
    · rw [if_neg hcr] at hs ⊢
      exact byteSpec_abort hs
  | chunkDataEndCR =>
    simp only [parseCase, feed, hp] at hs ⊢
    by_cases hlf : c = lf
    · rw [if_neg (not_not.mpr hlf)] at hs
      rw [if_pos hlf]
      exact byteSpec_goto hl (by decide) (by decide) (by decide) hs
    · rw [if_pos hlf] at hs
      rw [if_neg hlf]
      exact byteSpec_abort hs
  | trailer =>
    simp only [parseCase, feed, hp] at hs ⊢
    exact byteSpec_skip hl hcn hs
  | lastCRLF =>
    simp only [parseCase, feed, hp] at hs ⊢
    by_cases hcr : c = cr
    · rw [if_pos hcr] at hs ⊢
      exact byteSpec_goto hl (by decide) (by decide) (by decide) hs
    · rw [if_neg hcr] at hs ⊢
      have hl' : Live { p with state := .trailer } :=
        hl.withState (by decide) (by decide) (by decide)
      refine .of_step hs (byteSpec_skip hl' (by simp) ?_)
      rw [parseStep_some events hc]
      rfl
  | lastCRLFEnd =>
    simp only [parseCase, feed, hp] at hs ⊢
    by_cases hlf : c = lf
    · rw [if_pos hlf] at hs ⊢
      rw [notify_eq hl.callback] at hs
      exact .done _ (.single hs) ⟨rfl, hl.ignoreBody⟩
    · rw [if_neg hlf] at hs ⊢
      exact byteSpec_abort hs
  | complete => exact absurd hp hl.state.2.1
  | stateMax => exact absurd hp hl.state.2.2

end Bytes

/-- How many bytes of the chunk are still to come, and how many there are in this call. -/
def portion (body : List UInt8) (p : BodyParser) (char : ℕ) : ℕ :=
  min (p.currentChunkSize - p.currentChunkParsedSize) (body.length - char)

/-- **The loop in the data of a chunk**: as much of it as there is in this call. -/
theorem parseStep_data (hl : Live p) (hp : p.state = .chunkDataStart) (hlt : char < body.length)
    (events : List BodyEvent) :
    parseStep body (p, char, events) = .inl (advance p (portion body p char),
      char + portion body p char,
      events ++ [.onData ((body.drop char).take (portion body p char)) (portion body p char)]) := by
  have hsi := hl.currentChunkSize_lt
  have hpa := hl.inChunk hp
  have hs : sub64 p.currentChunkSize p.currentChunkParsedSize =
      p.currentChunkSize - p.currentChunkParsedSize := sub64_of_le hsi hpa.le
  have ha : add64 p.currentChunkParsedSize (portion body p char) =
      p.currentChunkParsedSize + portion body p char :=
    add64_of_lt (by unfold portion; omega)
  rw [parseStep_some events (List.getElem?_eq_getElem hlt), parseCase, hp]
  simp only [chunkDataCase, hs, notify_eq hl.callback]
  simp only [← portion.eq_1, ha, advance]
  split
  · rfl
  · rw [← hp]

theorem Live.advance (hl : Live p)
    (hk : p.currentChunkParsedSize + k ≤ p.currentChunkSize) :
    Live (advance p k) ∧ (Http.advance p k).state ≠ .bodyIdentity := by
  have hs : (Http.advance p k).state = .chunkDataEnd ∨
      ((Http.advance p k).state = .chunkDataStart ∧
        (Http.advance p k).currentChunkParsedSize < (Http.advance p k).currentChunkSize) := by
    simp only [Http.advance]
    split
    · exact .inl rfl
    · exact .inr ⟨rfl, by omega⟩
  refine ⟨⟨hl.callback, hl.ignoreBody, hl.currentChunkSize_lt, ?_, ?_, ?_⟩, ?_⟩
  · rcases hs with h | ⟨h, -⟩ <;> simp [h]
  · rcases hs with h | ⟨h, -⟩ <;> simp [h]
  · rcases hs with h | ⟨-, hlt⟩
    · simp [h]
    · exact fun _ => hlt
  · rcases hs with h | ⟨h, -⟩ <;> simp [h]

/-- What a call does from `s` on, where the callback has been told `events`: as the machine on the
bytes that are left, up to the end of the message. -/
inductive CallSpec (body : List UInt8) (s : ParseState) (events : List BodyEvent) :
    Outcome BodyParser EfiStatus UInt8 UInt8 → Prop
  | more (p' : BodyParser) (new : List BodyEvent) (data : List UInt8)
      (hret : Returns (parseStep body) s (.success, p', events ++ new)) (htold : Told new data [])
      (hlive : Live p') : CallSpec body s events (.more p' data)
  | done (p' : BodyParser) (new : List BodyEvent) (data : List UInt8)
      (hret : Returns (parseStep body) s (.success, p', events ++ new))
      (htold : Told new data [body.length]) (hover : Over p') :
      CallSpec body s events (.done p' data [])
  | stuck (p' : BodyParser) (data rest : List UInt8) (hrest : rest ≠ [])
      (hno : ∀ r, ¬ Returns (parseStep body) s r) : CallSpec body s events (.done p' data rest)
  | failed (e : EfiStatus) (p' : BodyParser) (new : List BodyEvent) (data : List UInt8)
      (hret : Returns (parseStep body) s (e, p', events ++ new)) (htold : Told new data [])
      (he : e.isError = true) : CallSpec body s events (.failed e data)

theorem CallSpec.of_reaches {s s' : ParseState} {o : Outcome BodyParser EfiStatus UInt8 UInt8}
    (hrea : Reaches (parseStep body) s s') (ht : Told new data [])
    (h : CallSpec body s' (events ++ new) o) : CallSpec body s events (o.prepend data) := by
  cases h with
  | more p' new' data' hre ht' hl =>
    rw [append_assoc] at hre
    exact .more p' _ _ (hrea.returns_iff.mpr hre) (ht.append ht') hl
  | done p' new' data' hre ht' ho =>
    rw [append_assoc] at hre
    exact .done p' _ _ (hrea.returns_iff.mpr hre) (ht.append ht') ho
  | stuck p' data' rest hres hno =>
    exact .stuck p' _ rest hres fun r hr => hno r (hrea.returns_iff.mp hr)
  | failed e p' new' data' hre ht' he =>
    rw [append_assoc] at hre
    exact .failed e p' _ _ (hrea.returns_iff.mpr hre) (ht.append ht') he

theorem CallSpec.of_complete {s : ParseState} {events' : List BodyEvent} (ho : Over p)
    (hre : Reaches (parseStep body) s (p, char, events'))
    (he : events' = events ++ new) (ht : Told new data [char]) (hle : char ≤ body.length) :
    CallSpec body s events (.done p data (body.drop char)) := by
  subst he
  rcases lt_or_eq_of_le hle with hlt | rfl
  · refine .stuck p data _ ?_ fun r hr => ?_
    · rw [ne_eq, drop_eq_nil_iff]
      omega
    · exact not_returns_complete ho.1 hlt r (hre.returns_iff.mp hr)
  · rw [drop_length]
    refine .done p _ _ (hre.returns_iff.mpr (returns_of_inr ?_)) ht ho
    rw [parseStep_none (le_refl _), ho.1]
    rfl

theorem callSpec_chunks (hli : Live p) (hcn : p.state ≠ .bodyIdentity)
    (hle : char ≤ body.length) (events : List BodyEvent) :
    CallSpec body (p, char, events) events (feedAll feed p (body.drop char)) := by
  induction hm : body.length - char using Nat.strong_induction_on generalizing p char events with
  | _ m ih =>
    rcases lt_or_eq_of_le hle with hlt | rfl
    · by_cases hp : p.state = .chunkDataStart
      · -- the data of a chunk, all of it at once
        have hpa := hli.inChunk hp
        have hs := parseStep_data hli hp hlt events
        obtain ⟨k, hk⟩ : ∃ k, portion body p char = k + 1 :=
          Nat.exists_eq_succ_of_ne_zero (by unfold portion; omega)
        have hc : p.currentChunkParsedSize + (k + 1) ≤ p.currentChunkSize := by
          unfold portion at hk
          omega
        have hre : char + (k + 1) ≤ body.length := by
          unfold portion at hk
          omega
        have hl : (body.drop char).length = body.length - char := length_drop
        rw [hk] at hs
        rw [feedAll_data hp hc (by omega), drop_drop]
        obtain ⟨hl', hc'⟩ := hli.advance hc
        have ht : Told [.onData ((body.drop char).take (k + 1)) (k + 1)]
            ((body.drop char).take (k + 1)) [] := by
          refine told_onData ?_
          rw [length_take]
          omega
        exact .of_reaches (.single hs) ht (ih _ (by omega) hl' hc' hre _ rfl)
      · -- any other byte
        have hd := drop_eq_getElem_cons hlt
        have hb := byteSpec hli hcn hp (List.getElem?_eq_getElem hlt) events
        rw [hd]
        cases hf : feed p body[char] with
        | next p' out =>
          rw [hf] at hb
          cases hb with
          | next _ hr hl' hc' =>
            rw [feedAll_next hf]
            refine CallSpec.of_reaches hr told_nil ?_
            rw [append_nil]
            exact ih _ (by omega) hl' hc' hlt _ rfl
        | done p' out =>
          rw [hf] at hb
          cases hb with
          | done _ hr ho =>
            rw [feedAll_done hf]
            exact .of_complete ho hr rfl (told_onComplete _) hlt
        | failed e =>
          rw [hf] at hb
          cases hb with
          | failed _ p' hret he =>
            rw [feedAll_failed hf]
            refine .failed e p' [] [] ?_ told_nil he
            rwa [append_nil]
    · -- the end of the piece
      rw [drop_length]
      refine .more p [] [] (returns_of_inr ?_) told_nil hli
      rw [parseStep_none (le_refl _), if_neg hli.state.2.2, append_nil]

theorem callSpec_identity (hli : Live p) (hp : p.state = .bodyIdentity) (hb : body ≠ []) :
    CallSpec body (p, 0, []) [] (feedAll feed p body) := by
  obtain ⟨hpa, hl⟩ := hli.counted hp
  have hpos := length_pos_iff.mpr hb
  have hs : sub64 p.contentLength p.parsedBodyLength = p.contentLength - p.parsedBodyLength :=
    sub64_of_le hl hpa.le
  have hne : ¬ min body.length (p.contentLength - p.parsedBodyLength) = 0 := by omega
  have had : add64 p.parsedBodyLength (min body.length (p.contentLength - p.parsedBodyLength)) =
      p.parsedBodyLength + min body.length (p.contentLength - p.parsedBodyLength) :=
    add64_of_lt (by omega)
  have hst : parseStep body (p, 0, []) = .inl (identityCase body p 0 []) := by
    rw [parseStep_some [] (List.getElem?_eq_getElem hpos), parseCase, hp]
  simp only [identityCase, hs, if_neg hne, had, drop_zero, Nat.zero_add,
    notify_eq hli.callback, nil_append] at hst
  rcases feedAll_identity body hp hpa with ⟨hshort, hmo⟩ | ⟨hlo, hd⟩
  · have hm : min body.length (p.contentLength - p.parsedBodyLength) = body.length := by omega
    rw [hm, if_neg (by omega), take_length] at hst
    rw [hmo]
    refine .more _ _ _ ((returns_inl_iff hst).mpr (returns_of_inr ?_)) (told_onData rfl) ?_
    · rw [parseStep_none (Nat.le_refl _), if_neg hli.state.2.2]
      rfl
    · exact ⟨hli.callback, hli.ignoreBody, hli.currentChunkSize_lt, hli.state,
        fun _ => ⟨by simp only; omega, hl⟩, hli.inChunk⟩
  · have hm : min body.length (p.contentLength - p.parsedBodyLength) =
        p.contentLength - p.parsedBodyLength := by omega
    have ha : p.parsedBodyLength + (p.contentLength - p.parsedBodyLength) = p.contentLength := by
      omega
    rw [hm, ha, if_pos rfl,
      notify_eq (p := { p with parsedBodyLength := p.contentLength }) hli.callback] at hst
    rw [hd]
    have hta : (body.take (p.contentLength - p.parsedBodyLength)).length =
        p.contentLength - p.parsedBodyLength := by
      rw [length_take]
      omega
    have ht := (told_onData hta).append
      (told_onComplete (p.contentLength - p.parsedBodyLength))
    rw [append_nil] at ht
    exact .of_complete ⟨rfl, hli.ignoreBody⟩ (.single hst) rfl ht hlo

/-- **One call is the machine on its piece.** -/
theorem callSpec (hl : Live p) (hb : body ≠ []) :
    CallSpec body (p, 0, []) [] (feedAll feed p body) := by
  by_cases hp : p.state = .bodyIdentity
  · exact callSpec_identity hl hp hb
  · exact callSpec_chunks hl hp (Nat.zero_le _) []

/-! ## All calls -/

theorem steady_httpParseMessageBody (p : BodyParser) (body : List UInt8) :
    Steady fun fuel => httpParseMessageBody fuel p body := by
  simp only [httpParseMessageBody]
  split
  · exact steady_const _
  · split
    · exact steady_const _
    · exact steady_loop _ _

theorem steady_parseCalls (p : BodyParser) (cuts : List (List UInt8)) :
    Steady fun fuel => parseCalls fuel p cuts := by
  induction cuts generalizing p with
  | nil => exact steady_const _
  | cons body cuts ih =>
    refine (steady_httpParseMessageBody p body).bind fun r => ?_
    obtain ⟨status, p', events⟩ := r
    simp only
    split
    · exact steady_const _
    · exact (ih p').bind fun _ => steady_const _

theorem yields_httpParseMessageBody {r : ParseResult} (hig : p.ignoreBody = false)
    (hb : body ≠ []) : Yields (fun fuel => httpParseMessageBody fuel p body) r ↔
      Returns (parseStep body) (startBody p, 0, []) r := by
  simp only [httpParseMessageBody, if_neg hb, hig, Bool.false_eq_true, if_false]
  exact Iff.rfl

theorem startBody_of_ne (h : p.state ≠ .bodyStart) : startBody p = p := if_neg h

/-- What a sequence of calls reports: as the machine on the bytes together. -/
inductive CallsSpec (p : BodyParser) (cuts : List (List UInt8)) :
    Outcome BodyParser EfiStatus UInt8 UInt8 → Prop
  | more (p' : BodyParser) (events : List BodyEvent) (data : List UInt8)
      (hret : Yields (fun fuel => parseCalls fuel p cuts) (.success, p', events))
      (htold : Told events data []) : CallsSpec p cuts (.more p' data)
  | done (p' : BodyParser) (events : List BodyEvent) (data : List UInt8)
      (hret : Yields (fun fuel => parseCalls fuel p cuts) (.success, p', events))
      (htold : Told events data [cuts.flatten.length]) : CallsSpec p cuts (.done p' data [])
  | stuck (p' : BodyParser) (data rest : List UInt8) (hrest : rest ≠ [])
      (hno : ¬ Terminates fun fuel => parseCalls fuel p cuts) :
      CallsSpec p cuts (.done p' data rest)
  | failed (e : EfiStatus) (p' : BodyParser) (events : List BodyEvent) (data : List UInt8)
      (hret : Yields (fun fuel => parseCalls fuel p cuts) (e, p', events))
      (htold : Told events data []) (he : e.isError = true) : CallsSpec p cuts (.failed e data)

section Calls

variable {cuts : List (List UInt8)}

theorem yields_cons {later : List BodyEvent} {status : EfiStatus} {q : BodyParser}
    (h : Yields (fun fuel => httpParseMessageBody fuel p body) (.success, p', events))
    (hl : Yields (fun fuel => parseCalls fuel p' cuts) (status, q, later)) :
    Yields (fun fuel => parseCalls fuel p (body :: cuts))
      (status, q, events ++ later.map (.shift body.length)) :=
  h.bind (steady_httpParseMessageBody p body)
    ((steady_parseCalls p' cuts).bind fun _ => steady_const _)
    (hl.bind (steady_parseCalls p' cuts) (steady_const _) ⟨0, rfl⟩)

theorem Terminates.of_cons (h : Terminates fun fuel => parseCalls fuel p (body :: cuts)) :
    ∃ status p' events,
      Yields (fun fuel => httpParseMessageBody fuel p body) (status, p', events) ∧
      (status = .success → Terminates fun fuel => parseCalls fuel p' cuts) := by
  obtain ⟨r, fuel, hr⟩ := h
  obtain ⟨⟨status, p', events⟩, hc, hre⟩ := bind_eq_some_iff.mp hr
  refine ⟨status, p', events, ⟨fuel, hc⟩, ?_⟩
  rintro rfl
  obtain ⟨later, hl, -⟩ := bind_eq_some_iff.mp hre
  exact ⟨later, fuel, hl⟩

theorem not_terminates_over (ho : Over p) (hb : body ≠ []) :
    ¬ Terminates fun fuel => parseCalls fuel p (body :: cuts) := by
  intro h
  obtain ⟨status, p', events, hc, -⟩ := Terminates.of_cons h
  rw [yields_httpParseMessageBody ho.2 hb,
    startBody_of_ne (by rw [ho.1]; decide)] at hc
  exact not_returns_complete ho.1 (length_pos_iff.mpr hb) _ hc

/-- **A sequence of calls is the machine on the bytes together.** -/
theorem callsSpec (hl : Live p) (hcu : ∀ body ∈ cuts, body ≠ []) :
    CallsSpec p cuts (feedAll feed p cuts.flatten) := by
  induction cuts generalizing p with
  | nil => exact .more p [] [] ⟨0, rfl⟩ told_nil
  | cons body cuts ih =>
    obtain ⟨hb, hcu⟩ := forall_mem_cons.mp hcu
    have hif : ∀ r, Yields (fun fuel => httpParseMessageBody fuel p body) r ↔
        Returns (parseStep body) (p, 0, []) r := by
      intro r
      rw [yields_httpParseMessageBody hl.ignoreBody hb, startBody_of_ne hl.state.1]
    have hc := callSpec hl hb
    rw [flatten_cons, feedAll_append]
    generalize feedAll feed p body = piece at hc
    cases hc with
    | more p' new _ hre hto hl' =>
      -- the message goes on in the next piece
      have hf := (hif _).mpr hre
      have hr := ih hl' hcu
      simp only
      generalize feedAll feed p' cuts.flatten = later at hr
      cases hr with
      | more q events _ hr' ht' =>
        exact .more q _ _ (yields_cons hf hr') (hto.append (ht'.shift _))
      | done q events _ hr' ht' =>
        refine .done q _ _ (yields_cons hf hr') ?_
        have := hto.append (ht'.shift body.length)
        rwa [map_singleton, nil_append, ← length_append, ← flatten_cons] at this
      | stuck q _ rest hne hno =>
        refine .stuck q _ rest hne fun h => hno ?_
        obtain ⟨status, p'', events, hc', ht⟩ := Terminates.of_cons h
        cases Returns.unique hre ((hif _).mp hc')
        exact ht rfl
      | failed e q events _ hr' ht' he =>
        exact .failed e q _ _ (yields_cons hf hr') (hto.append (ht'.shift _)) he
    | done p' new _ hre hto ho =>
      have hf := (hif _).mpr hre
      simp only
      cases cuts with
      | nil =>
        have hnil : Yields (fun fuel => parseCalls fuel p' []) (.success, p', []) := ⟨0, rfl⟩
        refine .done p' _ _ (yields_cons hf hnil) ?_
        simpa using hto
      | cons body' cuts =>
        -- bytes behind the end of the message
        obtain ⟨hb', -⟩ := forall_mem_cons.mp hcu
        refine .stuck p' _ _ ?_ fun h => ?_
        · simp [hb']
        · obtain ⟨status, p'', events, hc', ht⟩ := Terminates.of_cons h
          cases Returns.unique hre ((hif _).mp hc')
          exact not_terminates_over ho hb' (ht rfl)
    | stuck p' _ _ hne hno =>
      refine .stuck p' _ _ ?_ fun h => ?_
      · simp [hne]
      · obtain ⟨status, p'', events, hc', -⟩ := Terminates.of_cons h
        exact hno _ ((hif _).mp hc')
    | failed e p' new _ hre hto he =>
      refine .failed e p' _ _
        (((hif _).mpr hre).bind (steady_httpParseMessageBody p body) ?_ ?_) hto he
      · simp only [he, if_true]
        exact steady_const _
      · simp only [he, if_true]
        exact ⟨0, rfl⟩

end Calls

end Edk2.Http
