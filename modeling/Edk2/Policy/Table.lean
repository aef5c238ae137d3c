import Edk2.Lib.Run
import Edk2.Policy.Entry

/-!
# The policy table

The table is the concatenation of the accepted entries, in the order of their registration, and the
search walks it entry by entry. So what the search returns is said by the list of accepted entries:
the first of those that match best.

## Main results

* `getBestPolicyMatch_eq_none`, `getBestPolicyMatch_best`: the search, by the accepted entries
* `History.tabled_of_run`: every registration keeps the table the concatenation of the accepted
  entries
* `policyTable_of_run`: terminated names, the concatenation and distinct targets in every run that
  repeats no namespace-wide and no wildcard target
-/

namespace Edk2.Policy

open List Option EntryPtr

variable {table : Memory} {entries rest : List EntryPtr} {e : EntryPtr} {cur : ℕ}
  {name : ℕ → ℕ} {guid : EfiGuid}

/-! ## Entries in a row -/

def concatenation (entries : List EntryPtr) : List UInt8 := (entries.map (·.bytes)).flatten

def extent (entries : List EntryPtr) : ℕ := (entries.map (·.size)).sum

@[simp] theorem length_bytes (e : EntryPtr) : e.bytes.length = e.size := length_bytesAt _ _ _

@[simp] theorem concatenation_nil : concatenation [] = [] := rfl

@[simp] theorem concatenation_cons (e : EntryPtr) (rest : List EntryPtr) :
    concatenation (e :: rest) = e.bytes ++ concatenation rest := rfl

theorem concatenation_append (l k : List EntryPtr) :
    concatenation (l ++ k) = concatenation l ++ concatenation k := by
  rw [concatenation, map_append, flatten_append]
  rfl

@[simp] theorem extent_cons (e : EntryPtr) (rest : List EntryPtr) :
    extent (e :: rest) = e.size + extent rest := rfl

theorem length_concatenation (entries : List EntryPtr) :
    (concatenation entries).length = extent entries := by
  induction entries with
  | nil => rfl
  | cons e rest ih => rw [concatenation_cons, length_append, length_bytes, ih, extent_cons]

theorem bytesAt_concatenation_cons (he : Terminated e)
    (h : bytesAt table cur (extent (e :: rest)) = concatenation (e :: rest)) :
    bytes ⟨table, cur⟩ = e.bytes ∧
      bytesAt table (cur + e.size) (extent rest) = concatenation rest := by
  rw [extent_cons, bytesAt_add] at h
  obtain ⟨hh, htail⟩ := append_inj h (by rw [length_bytesAt, length_bytes])
  have hs : size ⟨table, cur⟩ = e.size := by
    have hge := he.size_ge
    unfold policyEntrySize at hge
    exact le_eq_of_bytesAt hh (by omega)
  rw [bytes, hs, hh]
  exact ⟨rfl, htail⟩

/-! ## The search -/

/-- `b` is the first of the best matches among the entries: everything before it matches worse, if
at all, and nothing behind it matches better. -/
structure Best (entries : List EntryPtr) (name : ℕ → ℕ) (guid : EfiGuid) (cur : ℕ)
    (b : BestMatch) (pre : List EntryPtr) (e : EntryPtr) (post : List EntryPtr) : Prop where
  split : entries = pre ++ e :: post
  offset : b.entry = cur + extent pre
  matches_self : e.target.matchOf name guid = some b.matchPriority
  before : ∀ e' ∈ pre, ∀ p, e'.target.matchOf name guid = some p → b.matchPriority < p
  after : ∀ e' ∈ post, ∀ p, e'.target.matchOf name guid = some p → b.matchPriority ≤ p

theorem takeBetter_cases (best : Option BestMatch) (current priority : ℕ) :
    (takeBetter best current priority = ⟨current, priority⟩ ∧
        ∀ b, best = some b → priority < b.matchPriority) ∨
      (best = some (takeBetter best current priority) ∧
        (takeBetter best current priority).matchPriority ≤ priority) := by
  cases best with
  | none => exact .inl ⟨rfl, fun b hb => nomatch hb⟩
  | some b =>
    rw [takeBetter]
    by_cases hlt : priority < b.matchPriority
    · rw [if_pos hlt]
      exact .inl ⟨rfl, fun b' hb' => some.inj hb' ▸ hlt⟩
    · rw [if_neg hlt]
      exact .inr ⟨rfl, Nat.le_of_not_lt hlt⟩

theorem evaluatePolicyMatch_table (he : Terminated e)
    (h : bytes ⟨table, cur⟩ = e.bytes) :
    evaluatePolicyMatch ⟨table, cur⟩ name guid = e.target.matchOf name guid := by
  rw [evaluatePolicyMatch_eq (he.of_bytes h.symm), he.target_eq h.symm]

variable {best : Option BestMatch} {b : BestMatch}

/-- The search from `cur` on, with the best match so far: it keeps that match unless an entry
matches better. -/
theorem bestLoop_some
    (ht : ∀ e ∈ entries, Terminated e)
    (hby : bytesAt table cur (extent entries) = concatenation entries)
    (h : bestLoop table name guid entries.length cur best = some b) :
    (best = some b ∧ ∀ e ∈ entries, ∀ p, e.target.matchOf name guid = some p →
        b.matchPriority ≤ p) ∨
      ∃ pre e post, Best entries name guid cur b pre e post ∧
        ∀ b', best = some b' → b.matchPriority < b'.matchPriority := by
  induction entries generalizing cur best with
  | nil => exact .inl ⟨h, fun e he => absurd he not_mem_nil⟩
  | cons e rest ih =>
    obtain ⟨he, hr⟩ := forall_mem_cons.mp ht
    obtain ⟨hh, htail⟩ := bytesAt_concatenation_cons he hby
    rw [length_cons, bestLoop, evaluatePolicyMatch_table he hh,
      size_eq hh] at h
    -- what is found behind `e` is found in the whole
    have hs : ∀ {b pre e' post}, Best rest name guid (cur + e.size) b pre e' post →
        (∀ p, e.target.matchOf name guid = some p → b.matchPriority < p) →
        Best (e :: rest) name guid cur b (e :: pre) e' post := by
      intro b pre e' post hb hlt
      refine ⟨by rw [hb.split]; rfl, ?_, hb.matches_self, ?_, hb.after⟩
      · rw [hb.offset, extent_cons, add_assoc]
      · exact forall_mem_cons.mpr ⟨hlt, hb.before⟩
    cases hm : e.target.matchOf name guid with
    | none =>
      rw [hm] at h
      have hnone : ∀ p, e.target.matchOf name guid = some p → False := fun p hp => by
        rw [hm] at hp
        cases hp
      rcases ih hr htail h with ⟨hbe, hle⟩ | ⟨pre, e', post, hb, hlt⟩
      · exact .inl ⟨hbe, forall_mem_cons.mpr ⟨fun p hp => (hnone p hp).elim, hle⟩⟩
      · exact .inr ⟨e :: pre, e', post, hs hb fun p hp => (hnone p hp).elim, hlt⟩
    | some priority =>
      rw [hm] at h
      dsimp only at h
      have heq : ∀ p, e.target.matchOf name guid = some p → priority = p := fun p hp =>
        some.inj (hm.symm.trans hp)
      -- what the rest of the loop finds, in either case of the early exit
      have hf : (takeBetter best cur priority = b ∧
            ∀ e' ∈ rest, ∀ p, e'.target.matchOf name guid = some p → b.matchPriority ≤ p) ∨
          ∃ pre e' post, Best rest name guid (cur + e.size) b pre e' post ∧
            b.matchPriority < (takeBetter best cur priority).matchPriority := by
        by_cases hz : (takeBetter best cur priority).matchPriority = 0
        · rw [if_pos hz] at h
          obtain rfl := some.inj h
          exact .inl ⟨rfl, fun e' _ p _ => by omega⟩
        · rw [if_neg hz] at h
          rcases ih hr htail h with ⟨hbe, hle⟩ | ⟨pre, e', post, hb, hlt⟩
          · exact .inl ⟨some.inj hbe, hle⟩
          · exact .inr ⟨pre, e', post, hb, hlt _ rfl⟩
      rcases takeBetter_cases best cur priority with ⟨hta, hbet⟩ | ⟨hk, hle⟩
      · -- the entry is better than what was there
        rw [hta] at hf
        rcases hf with ⟨rfl, ha⟩ | ⟨pre, e', post, hb, hlt⟩
        · refine .inr ⟨[], e, rest, ⟨rfl, rfl, hm, ?_, ha⟩, hbet⟩
          exact fun e' he' => absurd he' not_mem_nil
        · refine .inr ⟨e :: pre, e', post, hs hb fun p hp => heq p hp ▸ hlt, ?_⟩
          exact fun b' hb' => lt_trans hlt (hbet b' hb')
      · rcases hf with ⟨hb, ha⟩ | ⟨pre, e', post, hb, hlt⟩
        · rw [hb] at hk hle
          exact .inl ⟨hk, forall_mem_cons.mpr ⟨fun p hp => heq p hp ▸ hle, ha⟩⟩
        · refine .inr ⟨e :: pre, e', post, hs hb fun p hp => ?_, fun b' hb' => ?_⟩
          · exact heq p hp ▸ lt_of_lt_of_le hlt hle
          · rw [hk] at hb'
            exact some.inj hb' ▸ hlt

theorem bestLoop_eq_none (ht : ∀ e ∈ entries, Terminated e)
    (hb : bytesAt table cur (extent entries) = concatenation entries) :
    bestLoop table name guid entries.length cur best = none ↔
      best = none ∧ ∀ e ∈ entries, e.target.matchOf name guid = none := by
  induction entries generalizing cur best with
  | nil => exact ⟨fun h => ⟨h, fun e he => absurd he not_mem_nil⟩, And.left⟩
  | cons e rest ih =>
    obtain ⟨he, hr⟩ := forall_mem_cons.mp ht
    obtain ⟨hh, htail⟩ := bytesAt_concatenation_cons he hb
    rw [length_cons, bestLoop, evaluatePolicyMatch_table he hh, size_eq hh,
      forall_mem_cons]
    cases hm : e.target.matchOf name guid with
    | none =>
      rw [ih hr htail]
      exact ⟨fun h => ⟨h.1, rfl, h.2⟩, fun h => ⟨h.1, h.2.2⟩⟩
    | some priority =>
      dsimp only
      constructor
      · intro h
        split_ifs at h
        exact nomatch ((ih hr htail).mp h).1
      · exact fun h => nomatch h.2.1

/-! ## The table -/

/-- **The table holds exactly these entries**, one after the other. -/
structure TableOf (s : PolicyState) (entries : List EntryPtr) : Prop where
  terminated : ∀ e ∈ entries, Terminated e
  bytes : bytesAt s.policyTable 0 s.currentTableUsage = concatenation entries
  count : s.currentTableCount = entries.length

namespace TableOf

variable {s : PolicyState}

theorem usage (h : TableOf s entries) : s.currentTableUsage = extent entries := by
  rw [← length_concatenation, ← h.bytes, length_bytesAt]

theorem bytes_extent (h : TableOf s entries) :
    bytesAt s.policyTable 0 (extent entries) = concatenation entries := by
  rw [← h.usage, h.bytes]

/-- **The search finds nothing exactly when no entry matches.** -/
theorem getBestPolicyMatch_eq_none (h : TableOf s entries) :
    getBestPolicyMatch s name guid = none ↔ ∀ e ∈ entries, e.target.matchOf name guid = none := by
  rw [getBestPolicyMatch, h.count, bestLoop_eq_none h.terminated h.bytes_extent]
  exact ⟨And.right, fun h => ⟨rfl, h⟩⟩

/-- **The search finds the first of the best matches.** -/
theorem getBestPolicyMatch_best (h : TableOf s entries)
    (hb : getBestPolicyMatch s name guid = some b) :
    ∃ pre e post, Best entries name guid 0 b pre e post := by
  rw [getBestPolicyMatch, h.count] at hb
  rcases bestLoop_some h.terminated h.bytes_extent hb with ⟨hbe, _⟩ | ⟨pre, e, post, hbe, _⟩
  · cases hbe
  · exact ⟨pre, e, post, hbe⟩

end TableOf

theorem Best.le {pre post : List EntryPtr} {e' : EntryPtr} {p : ℕ}
    (h : Best entries name guid cur b pre e post) (he' : e' ∈ entries)
    (hp : e'.target.matchOf name guid = some p) : b.matchPriority ≤ p := by
  rw [h.split] at he'
  rcases mem_append.mp he' with he' | he'
  · exact (h.before e' he' p hp).le
  · rcases mem_cons.mp he' with rfl | he'
    · exact (some.inj (h.matches_self.symm.trans hp)).le
    · exact h.after e' he' p hp

/-! ## Registration -/

section Register

variable {s : PolicyState} {call : RegisterCall}

/-- **What a call does**: it is refused and changes nothing, or a valid candidate that no entry
matches exactly is copied behind the entries there are. -/
theorem registerVariablePolicy_cases (s : PolicyState) (call : RegisterCall) :
    (∃ status, status ≠ .success ∧ registerVariablePolicy s call = ⟨status, s⟩) ∨
      (isValidVariablePolicyStructure call.newPolicy = true ∧
        (∀ b, getBestPolicyMatch s call.newPolicy.getPolicyName call.newPolicy.namespaceGuid =
          some b → b.matchPriority ≠ matchPriorityExact) ∧
        ∃ grown : PolicyState,
          registerVariablePolicy s call = ⟨.success, appendPolicy grown call.newPolicy⟩ ∧
          bytesAt grown.policyTable 0 s.currentTableUsage =
            bytesAt s.policyTable 0 s.currentTableUsage ∧
          grown = { s with
            policyTable := grown.policyTable, currentTableSize := grown.currentTableSize }) := by
  unfold registerVariablePolicy
  by_cases hin : s.initialized = false
  · exact .inl ⟨.notReady, by decide, if_pos hin⟩
  by_cases hl : s.interfaceLocked = true
  · exact .inl ⟨.writeProtected, by decide, by rw [if_neg hin, if_pos hl]⟩
  by_cases hv : isValidVariablePolicyStructure call.newPolicy = false
  · exact .inl ⟨.invalidParameter, by decide, by rw [if_neg hin, if_neg hl, if_pos hv]⟩
  dsimp only
  split_ifs with he
  · exact .inl ⟨.alreadyStarted, by decide, rfl⟩
  · exact .inl ⟨.aborted, by decide, rfl⟩
  · exact .inl ⟨.aborted, by decide, rfl⟩
  all_goals
    have hf : ∀ b, getBestPolicyMatch s call.newPolicy.getPolicyName
        call.newPolicy.namespaceGuid = some b → b.matchPriority ≠ matchPriorityExact := by
      intro b hb hz
      rw [hb] at he
      exact he (decide_eq_true hz)
  · cases call.pool with
    | none => exact .inl ⟨.outOfResources, by decide, rfl⟩
    | some newTable =>
      exact .inr ⟨Bool.eq_true_of_not_eq_false hv, hf, _, rfl, bytesAt_copyMem, rfl⟩
  · exact .inr ⟨Bool.eq_true_of_not_eq_false hv, hf, s, rfl, rfl, rfl⟩

/-- **A registration keeps the table the concatenation of the accepted entries.** -/
theorem TableOf.append {grown : PolicyState} (h : TableOf s entries)
    (hv : isValidVariablePolicyStructure e = true)
    (hb : bytesAt grown.policyTable 0 s.currentTableUsage =
      bytesAt s.policyTable 0 s.currentTableUsage)
    (hg : grown = { s with
      policyTable := grown.policyTable, currentTableSize := grown.currentTableSize }) :
    TableOf (appendPolicy grown e) (entries ++ [e]) := by
  have hu : grown.currentTableUsage = s.currentTableUsage := by rw [hg]
  have hcnt : grown.currentTableCount = s.currentTableCount := by rw [hg]
  refine ⟨?_, ?_, ?_⟩
  · intro e' he'
    rcases mem_append.mp he' with he' | he'
    · exact h.terminated e' he'
    · obtain rfl := mem_singleton.mp he'
      exact terminated_of_valid hv
  · rw [appendPolicy, hu, bytesAt_add, zero_add, bytesAt_copyMem,
      bytesAt_copyMem_of_disjoint (.inl (zero_add _).le), hb, h.bytes,
      concatenation_append, concatenation_cons, concatenation_nil, append_nil]
    rfl
  · rw [appendPolicy, hcnt, h.count, length_append, length_singleton]

theorem tableOf_init : TableOf initVariablePolicyLib [] :=
  ⟨fun _ he => absurd he not_mem_nil, rfl, rfl⟩

/-! ## Repeated targets -/

/-- The target is one variable: a name, without wildcards. -/
def Target.Plain (target : Target) : Prop :=
  ∃ pattern, target.pattern = some pattern ∧ wildcard ∉ pattern

variable {p : Char16String}

theorem patternMatches_self (hp : wildcard ∉ p)
    (hch : ∀ i (hi : i < p.length), name i = p[i]) (he : name p.length = 0) :
    patternMatches p name = true := by
  induction p generalizing name with
  | nil => exact beq_iff_eq.mpr he
  | cons c rest ih =>
    have hc : c ≠ wildcard := fun h => hp (h ▸ mem_cons_self)
    have hh : c = name 0 := (hch 0 (Nat.succ_pos _)).symm
    rw [patternMatches, if_neg hc, beq_iff_eq.mpr hh]
    refine ih (fun h => hp (mem_cons_of_mem c h)) (fun i hi => ?_) he
    exact hch (i + 1) (Nat.succ_lt_succ hi)

theorem Terminated.getPolicyName_eq (h : Terminated e)
    (hp : e.pattern = some p) :
    (∀ i (hi : i < p.length), e.getPolicyName i = p[i]) ∧ e.getPolicyName p.length = 0 := by
  have hne : e.size ≠ e.offsetToName := by
    intro heq
    rw [pattern, if_pos heq] at hp
    cases hp
  obtain ⟨k, hk, hz, -, -⟩ := h.name hne
  rw [pattern_eq hk] at hp
  obtain rfl := some.inj hp
  refine ⟨fun i hi => ?_, by rwa [length_charsAt]⟩
  rw [getElem_charsAt]
  rfl

/-- **Registering a plain target again is refused.** -/
theorem TableOf.alreadyStarted (h : TableOf s entries) (hin : s.initialized = true)
    (hu : s.interfaceLocked = false)
    (hv : isValidVariablePolicyStructure call.newPolicy = true)
    (hp : call.newPolicy.target.Plain)
    (hmem : call.newPolicy.target ∈ entries.map (·.target)) :
    registerVariablePolicy s call = ⟨.alreadyStarted, s⟩ := by
  obtain ⟨e, he, ht⟩ := mem_map.mp hmem
  have hs : call.newPolicy.target.matchOf call.newPolicy.getPolicyName
      call.newPolicy.namespaceGuid = some matchPriorityExact := by
    obtain ⟨p, hp, hwild⟩ := hp
    obtain ⟨hc, he⟩ := (terminated_of_valid hv).getPolicyName_eq hp
    rw [Target.matchOf, if_neg fun hne => hne rfl, hp]
    dsimp only
    rw [if_pos (patternMatches_self hwild hc he), count_eq_zero_of_not_mem hwild]
    rfl
  rw [← ht] at hs
  cases hbe : getBestPolicyMatch s call.newPolicy.getPolicyName call.newPolicy.namespaceGuid with
  | none =>
    rw [h.getBestPolicyMatch_eq_none.mp hbe e he] at hs
    cases hs
  | some b =>
    obtain ⟨pre, e', post, hb⟩ := h.getBestPolicyMatch_best hbe
    have hz : b.matchPriority = matchPriorityExact :=
      Nat.le_antisymm (hb.le he hs) (Nat.zero_le _)
    rw [registerVariablePolicy, if_neg (by rw [hin]; decide), if_neg (by rw [hu]; decide),
      if_neg (by rw [hv]; decide), hbe]
    exact if_pos (decide_eq_true hz)

end Register

/-! ## Runs -/

/-- The library with the entries it has accepted so far. -/
structure History where
  state : PolicyState
  accepted : List EntryPtr

/-- A call of `RegisterVariablePolicy`. -/
def History.register (h : History) (call : RegisterCall) : History :=
  let outcome := registerVariablePolicy h.state call
  ⟨outcome.state, if outcome.status = .success then h.accepted ++ [call.newPolicy] else h.accepted⟩

variable {h : History}

theorem History.accepted_register {call : RegisterCall}
    (hs : (registerVariablePolicy h.state call).status = .success) :
    (h.register call).accepted = h.accepted ++ [call.newPolicy] :=
  if_pos hs

/-- The library after its initialization. -/
def History.start : History := ⟨initVariablePolicyLib, []⟩

/-- A call, whatever it returns, leaves a library that is initialized, unlocked and enforcing, with
the accepted entries in its table. -/
structure History.Tabled (h : History) : Prop where
  initialized : h.state.initialized = true
  unlocked : h.state.interfaceLocked = false
  enabled : h.state.protectionDisabled = false
  table : TableOf h.state h.accepted

theorem History.register_cases (h : History) (call : RegisterCall) :
    h.register call = h ∨
      ((h.register call).accepted = h.accepted ++ [call.newPolicy] ∧
        (registerVariablePolicy h.state call).status = .success ∧
        isValidVariablePolicyStructure call.newPolicy = true ∧
        (h.Tabled → (h.register call).Tabled)) := by
  rcases registerVariablePolicy_cases h.state call with
    ⟨status, hs, heq⟩ | ⟨hv, -, grown, heq, hb, hg⟩
  · rw [History.register, heq]
    rw [if_neg hs]
    exact .inl rfl
  · rw [History.register, heq]
    refine .inr ⟨rfl, rfl, hv, fun ht => ⟨?_, ?_, ?_, ?_⟩⟩
    · rw [hg]
      exact ht.initialized
    · rw [hg]
      exact ht.unlocked
    · rw [hg]
      exact ht.enabled
    · exact ht.table.append hv hb hg

theorem History.Tabled.register (ht : h.Tabled) (call : RegisterCall) :
    (h.register call).Tabled := by
  rcases h.register_cases call with heq | ⟨-, -, -, hnext⟩
  · rwa [heq]
  · exact hnext ht

theorem History.tabled_start : History.start.Tabled := ⟨rfl, rfl, rfl, tableOf_init⟩

/-- **The table in every run of registrations** is the concatenation of the accepted entries. -/
theorem History.tabled_of_run {calls : List RegisterCall}
    (hr : Run (fun h call h' => h' = h.register call) History.start calls h) : h.Tabled := by
  refine Run.invariant ?_ hr History.tabled_start
  rintro h call h' ht rfl
  exact ht.register call

/-- The candidate does not repeat the target of an accepted entry, unless that target is one
variable: no namespace-wide and no wildcard target is registered a second time. -/
def RepeatsPlainOnly (h : History) (call : RegisterCall) : Prop :=
  call.newPolicy.target ∈ h.accepted.map (·.target) → call.newPolicy.target.Plain

theorem History.Tabled.distinct_register {call : RegisterCall} (ht : h.Tabled)
    (hc : RepeatsPlainOnly h call) (hd : (h.accepted.map (·.target)).Nodup) :
    ((h.register call).accepted.map (·.target)).Nodup := by
  rcases h.register_cases call with heq | ⟨ha, hs, hv, -⟩
  · rwa [heq]
  · have hnew : call.newPolicy.target ∉ h.accepted.map (·.target) := by
      intro hmem
      rw [ht.table.alreadyStarted ht.initialized ht.unlocked hv (hc hmem) hmem]
        at hs
      cases hs
    rw [ha, map_append]
    exact nodup_append'.mpr ⟨hd, nodup_singleton _,
      disjoint_singleton.mpr hnew⟩

/-- **The table in every run of registrations** that repeats no namespace-wide and no wildcard
target: each accepted entry keeps its names terminated inside its own bytes, the table is the
concatenation of the accepted entries, their targets are distinct, and a target that is registered
again is refused. -/
theorem policyTable_of_run {calls : List RegisterCall} {h : History}
    (hrun : Run (fun h call h' => RepeatsPlainOnly h call ∧ h' = h.register call)
      .start calls h) :
    (∀ e ∈ h.accepted, Terminated e) ∧
      bytesAt h.state.policyTable 0 h.state.currentTableUsage = concatenation h.accepted ∧
      h.state.currentTableCount = h.accepted.length ∧
      (h.accepted.map (·.target)).Nodup ∧
      ∀ call : RegisterCall, RepeatsPlainOnly h call →
        isValidVariablePolicyStructure call.newPolicy = true →
        call.newPolicy.target ∈ h.accepted.map (·.target) →
        registerVariablePolicy h.state call = ⟨.alreadyStarted, h.state⟩ := by
  obtain ⟨ht, hd⟩ : h.Tabled ∧ (h.accepted.map (·.target)).Nodup := by
    refine Run.invariant (P := fun h => h.Tabled ∧ (h.accepted.map (·.target)).Nodup) ?_ hrun
      ⟨History.tabled_start, nodup_nil⟩
    rintro h call h' ⟨ht, hd⟩ ⟨hc, rfl⟩
    exact ⟨ht.register call, ht.distinct_register hc hd⟩
  refine ⟨ht.table.terminated, ht.table.bytes, ht.table.count, hd, ?_⟩
  intro call hc hv hmem
  exact ht.table.alreadyStarted ht.initialized ht.unlocked hv (hc hmem) hmem

/-- The byte at an offset of a header without constraints. -/
def sampleHeader (size : ℕ) (lockPolicyType : UInt8) (i : ℕ) : UInt8 :=
  if i = 2 then 1
  else if i = 4 then UInt8.ofNat size
  else if i = 5 then UInt8.ofNat (size / 256)
  else if i = 6 then 44
  else if 28 ≤ i ∧ i < 32 then 255
  else if i = 40 then lockPolicyType
  else 0

/-- The registration of a structure without constraints, whose name is a character repeated. -/
def sampleCall (lockPolicyType char : UInt8) (length : ℕ) : RegisterCall where
  newPolicy :=
    { mem a :=
        if a < 0x102C then
          sampleHeader (if length = 0 then 44 else 46 + 2 * length) lockPolicyType (a - 0x1000)
        else if a < 0x102C + 2 * length ∧ a % 2 = 0 then char
        else 0
      addr := 0x1000 }
  pool := some fun _ => 0

/-- The policy of the variable `A`. -/
def plainCall : RegisterCall := sampleCall 0 0x41 1

/-- The policy of the variables `#`. -/
def wildcardCall : RegisterCall := sampleCall 0 0x23 1

theorem policyTable_of_run_plain :
    (History.start.register plainCall).accepted.length = 1 ∧
      registerVariablePolicy (History.start.register plainCall).state plainCall =
        ⟨.alreadyStarted, (History.start.register plainCall).state⟩ := by
  have hp : plainCall.newPolicy.target.Plain := ⟨[0x41], by decide +kernel, by decide⟩
  have hr : Run (fun h call h' => RepeatsPlainOnly h call ∧ h' = h.register call)
      History.start [plainCall] (History.start.register plainCall) :=
    .cons ⟨fun _ => hp, rfl⟩ (.nil _)
  refine ⟨by decide +kernel, ?_⟩
  exact (policyTable_of_run hr).2.2.2.2 plainCall (fun _ => hp) (by decide +kernel)
    (by decide +kernel)

/-- A wildcard target is accepted twice: its own name does not match it. -/
theorem not_distinct_targets :
    ¬ ∀ (calls : List RegisterCall) (h : History),
      Run (fun h call h' => h' = h.register call) History.start calls h →
        (h.accepted.map (·.target)).Nodup := by
  intro ha
  have hr : Run (fun h call h' => h' = h.register call) History.start
      [wildcardCall, wildcardCall] ((History.start.register wildcardCall).register wildcardCall) :=
    .cons rfl (.cons rfl (.nil _))
  exact absurd (ha _ _ hr) (by decide +kernel)

end Edk2.Policy
