import Edk2.Event.Dispatch
import Mathlib.Data.List.Nodup

/-!
# The queues and the record of a run

What the event services keep: the notification queues agree with the pending bits and with the live
events, and with the record of the run. From the record alone one can tell which notifications are
pending, since when and at which level. The queues hold exactly these, in the order in which they
were queued.

## Main results

* `Queues.append`, `Tracked.append`: an event is queued
* `Tracked.takenOff`, `TakenOff.notified`: a notification is taken off its queue and called
* `exactly_once`: between two queueings a notification is called at most once
-/

namespace Edk2.Event

open List Option Bool
open Function (update update_self update_of_ne)

/-! ## Pending bits -/

theorem getLsbD_tplBit {tpl : ℕ} (h : tpl < tplHighLevel) (i : ℕ) :
    (tplBit tpl).getLsbD i = decide (i = tpl) := by
  have ht : tpl < 31 := h
  have hb : ∀ j < 32, (1#32 <<< tpl).getLsbD j = decide (j = tpl) := by
    grind
  have hm : (1#32 <<< tpl).msb = false := by
    simp
    omega
  rw [tplBit, BitVec.getLsbD_signExtend, hm]
  by_cases hi : i < 32
  · rw [if_pos hi, hb i hi, decide_eq_true (by omega), Bool.true_and]
  · rw [if_neg hi, Bool.and_false]
    exact (decide_eq_false (by omega)).symm

theorem getLsbD_highBitSet64 {p : BitVec 64} (h : p ≠ 0#64) :
    p.getLsbD (highBitSet64 p) = true ∧ ∀ l, p.getLsbD l = true → l ≤ highBitSet64 p := by
  have hne : p.toNat ≠ 0 := fun heq => h (BitVec.eq_of_toNat_eq (by simpa using heq))
  constructor
  · exact Nat.testBit_log2 hne
  · intro l hl
    exact (Nat.le_log2 hne).mpr (Nat.ge_two_pow_of_testBit hl)

theorem getLsbD_clear {p : BitVec 64} {tpl : ℕ} (h : tpl < tplHighLevel) (l : ℕ) :
    (p &&& ~~~tplBit tpl).getLsbD l = (p.getLsbD l && decide (l ≠ tpl)) := by
  rw [BitVec.getLsbD_and, BitVec.getLsbD_not, getLsbD_tplBit h]
  by_cases hl : l < 64
  · simp [hl]
  · simp [hl, BitVec.getLsbD_of_ge p l (by omega)]

theorem toNat_clear_lt {p : BitVec 64} {tpl : ℕ} (h : tpl < tplHighLevel)
    (hs : p.getLsbD tpl = true) : (p &&& ~~~tplBit tpl).toNat < p.toNat := by
  refine Nat.lt_of_le_of_ne ?_ fun heq => ?_
  · exact Nat.and_le_left
  · have hc := getLsbD_clear (p := p) h tpl
    rw [BitVec.eq_of_toNat_eq heq, hs] at hc
    simp at hc

/-! ## The record -/

/-- When an event was queued, and at which level, if its notification is pending: it was neither
called nor was the event closed since. -/
def pendingSince : List Mark → ℕ → Option (ℕ × ℕ)
  | [], _ => none
  | .queued e' tpl :: log, e => if e = e' then some (log.length, tpl) else pendingSince log e
  | .notified e' _ _ :: log, e => if e = e' then none else pendingSince log e
  | .closed e' :: log, e => if e = e' then none else pendingSince log e
  | .restored _ :: log, e => pendingSince log e

/-- **The rules of dispatch.** A notification function is called at its level, and then its
notification is the oldest among the pending ones of the highest level. When `CoreRestoreTpl`
returns, nothing is pending above the new level. -/
def LawfulMark (before : List Mark) : Mark → Prop
  | .notified e tpl currentTpl =>
    currentTpl = tpl ∧ ∃ i, pendingSince before e = some (i, tpl) ∧
      ∀ e' j tpl', e' ≠ e → pendingSince before e' = some (j, tpl') →
        tpl' < tpl ∨ tpl' = tpl ∧ i < j
  | .restored newTpl => ∀ e i tpl, pendingSince before e = some (i, tpl) → tpl ≤ newTpl
  | .queued _ _ => True
  | .closed _ => True

/-- A record that keeps the rules. -/
def Lawful : List Mark → Prop
  | [] => True
  | m :: log => LawfulMark log m ∧ Lawful log

section Record

variable {log : List Mark} {e e' tpl : ℕ}

@[simp] theorem pendingSince_queued_self :
    pendingSince (.queued e tpl :: log) e = some (log.length, tpl) := if_pos rfl

theorem pendingSince_queued_of_ne (h : e' ≠ e) :
    pendingSince (.queued e tpl :: log) e' = pendingSince log e' := if_neg h

@[simp] theorem pendingSince_notified_self {currentTpl : ℕ} :
    pendingSince (.notified e tpl currentTpl :: log) e = none := if_pos rfl

theorem pendingSince_notified_of_ne {currentTpl : ℕ} (h : e' ≠ e) :
    pendingSince (.notified e tpl currentTpl :: log) e' = pendingSince log e' := if_neg h

@[simp] theorem pendingSince_closed_self : pendingSince (.closed e :: log) e = none := if_pos rfl

theorem pendingSince_closed_of_ne (h : e' ≠ e) :
    pendingSince (.closed e :: log) e' = pendingSince log e' := if_neg h

@[simp] theorem pendingSince_restored {newTpl : ℕ} :
    pendingSince (.restored newTpl :: log) e = pendingSince log e := rfl

theorem pendingSince_lt {i : ℕ} (h : pendingSince log e = some (i, tpl)) : i < log.length := by
  induction log with
  | nil => cases h
  | cons m log ih =>
    refine Nat.lt_succ_iff.mpr ?_
    cases m with
    | queued e' tpl' =>
      rw [pendingSince] at h
      split at h
      · cases h
        exact Nat.le_refl _
      · exact Nat.le_of_lt (ih h)
    | notified e' tpl' currentTpl =>
      rw [pendingSince] at h
      split at h
      · cases h
      · exact Nat.le_of_lt (ih h)
    | closed e' =>
      rw [pendingSince] at h
      split at h
      · cases h
      · exact Nat.le_of_lt (ih h)
    | restored newTpl => exact Nat.le_of_lt (ih h)

theorem Lawful.suffix {m : Mark} {before : List Mark} (h : Lawful log)
    (hs : m :: before <:+ log) : LawfulMark before m := by
  induction log with
  | nil => exact absurd hs (by simp)
  | cons m' log ih =>
    rcases suffix_cons_iff.mp hs with heq | htail
    · cases heq
      exact h.1
    · exact ih h.2 htail

/-- The calls of the notification function of an event. -/
def calls (e : ℕ) (log : List Mark) : ℕ :=
  log.countP fun m => match m with
    | .notified e' _ _ => e' = e
    | _ => false

/-- The marks that start a pending notification of an event or end it without a call. -/
def Mark.restarts (e : ℕ) : Mark → Bool
  | .queued e' _ => e' = e
  | .closed e' => e' = e
  | _ => false

/-- **Exactly once.** After a notification was queued, and until its event is queued again or
closed, it is pending until the one call of its notification function. -/
theorem exactly_once {after before : List Mark} (h : Lawful (after ++ .queued e tpl :: before))
    (ha : ∀ m ∈ after, m.restarts e = false) :
    calls e after = 0 ∧ pendingSince (after ++ .queued e tpl :: before) e =
        some (before.length, tpl) ∨
      calls e after = 1 ∧ pendingSince (after ++ .queued e tpl :: before) e = none := by
  induction after with
  | nil => exact .inl ⟨rfl, pendingSince_queued_self⟩
  | cons m after ih =>
    have hr := ih h.2 fun m' hm' => ha m' (mem_cons_of_mem _ hm')
    have hm := ha m mem_cons_self
    cases m with
    | queued e' tpl' =>
      have hne : e ≠ e' := fun heq => by simp [Mark.restarts, heq] at hm
      simpa [calls, pendingSince_queued_of_ne hne] using hr
    | closed e' =>
      have hne : e ≠ e' := fun heq => by simp [Mark.restarts, heq] at hm
      simpa [calls, pendingSince_closed_of_ne hne] using hr
    | restored newTpl => simpa [calls] using hr
    | notified e' tpl' currentTpl =>
      by_cases heq : e' = e
      · subst heq
        -- a call takes the notification off, so it was pending
        obtain ⟨-, i, hi, -⟩ := h.1
        rcases hr with ⟨hcnt, -⟩ | ⟨-, hnone⟩
        · exact .inr ⟨by simpa [calls] using hcnt, pendingSince_notified_self⟩
        · cases hnone.symm.trans hi
      · simpa [calls, heq, pendingSince_notified_of_ne (Ne.symm heq)] using hr

end Record

/-! ## The queues -/

/-- `Type & (EVT_NOTIFY_WAIT | EVT_NOTIFY_SIGNAL)`: the event has a notification function. -/
def IEvent.Notifies (ev : IEvent) : Prop := ev.notifyWait = true ∨ ev.notifySignal = true

/-- The queues, the pending bits, the live events and the signal queue fit together. -/
structure Queues (queue : ℕ → List ℕ) (pending : BitVec 64) (event : ℕ → Option IEvent)
    (signals : List ℕ) : Prop where
  queued : ∀ l, ∀ e ∈ queue l, ∃ ev, event e = some ev ∧ ev.notifyTpl = l ∧ ev.Notifies
  nodup : ∀ l, (queue l).Nodup
  set : ∀ l, queue l ≠ [] → pending.getLsbD l = true
  bits : ∀ l, pending.getLsbD l = true → l < tplHighLevel
  levels : ∀ e ev, event e = some ev → ev.Notifies → ev.notifyTpl < tplHighLevel
  signalling : ∀ e ∈ signals, ∃ ev, event e = some ev ∧ ev.notifySignal = true
  signals_nodup : signals.Nodup

/-- The event `e` was queued before `e'`. -/
def Earlier (log : List Mark) (e e' : ℕ) : Prop :=
  ∀ i j tpl tpl', pendingSince log e = some (i, tpl) → pendingSince log e' = some (j, tpl') → i < j

/-- The queues hold the pending notifications, in the order of their queueing. -/
structure Tracked (queue : ℕ → List ℕ) (log : List Mark) : Prop where
  mem : ∀ e l, e ∈ queue l ↔ ∃ i, pendingSince log e = some (i, l)
  order : ∀ l, (queue l).Pairwise (Earlier log)

/-- The event `e` was taken off the queue of its level, and its notification function is about to
be called. -/
structure TakenOff (tpl e : ℕ) (queue : ℕ → List ℕ) (log : List Mark) : Prop where
  since : ∃ i, pendingSince log e = some (i, tpl) ∧
    ∀ e' ∈ queue tpl, ∀ j, pendingSince log e' = some (j, tpl) → i < j
  mem : ∀ e' l, e' ∈ queue l ↔ e' ≠ e ∧ ∃ i, pendingSince log e' = some (i, l)
  order : ∀ l, (queue l).Pairwise (Earlier log)

section Queues

variable {queue : ℕ → List ℕ} {pending : BitVec 64} {event : ℕ → Option IEvent}
  {signals : List ℕ} {log : List Mark} {e : ℕ} {ev : IEvent}

variable (h : Queues queue pending event signals)
include h

theorem Queues.unique {l l' : ℕ} (hl : e ∈ queue l) (hl' : e ∈ queue l') : l = l' := by
  obtain ⟨ev, hev, ht, -⟩ := h.queued l e hl
  obtain ⟨ev', hev', ht', -⟩ := h.queued l' e hl'
  obtain rfl : ev = ev' := some.inj (hev.symm.trans hev')
  exact ht.symm.trans ht'

theorem Queues.erase (e : ℕ) : Queues (fun l => (queue l).erase e) pending event signals := by
  refine ⟨fun l e' he' => h.queued l e' (mem_of_mem_erase he'), fun l => (h.nodup l).erase e,
    fun l hne => h.set l fun hnil => hne ?_, h.bits, h.levels, h.signalling, h.signals_nodup⟩
  rw [hnil, erase_nil]

theorem Queues.of_events {event' : ℕ → Option IEvent} (hk : ∀ e ev, event e = some ev →
      ∃ ev', event' e = some ev' ∧ ev'.notifyTpl = ev.notifyTpl ∧ ev'.type = ev.type)
    (hb : ∀ e ev', event' e = some ev' →
      ∃ ev, event e = some ev ∧ ev'.notifyTpl = ev.notifyTpl ∧ ev'.type = ev.type) :
    Queues queue pending event' signals := by
  refine ⟨fun l e he => ?_, h.nodup, h.set, h.bits, fun e ev' hev' hn => ?_,
    fun e he => ?_, h.signals_nodup⟩
  · obtain ⟨ev, hev, htp, hn⟩ := h.queued l e he
    obtain ⟨ev', hev', ht', ht⟩ := hk e ev hev
    refine ⟨ev', hev', ht'.trans htp, ?_⟩
    simpa only [IEvent.Notifies, IEvent.notifyWait, IEvent.notifySignal, ht] using hn
  · obtain ⟨ev, hev, htp, ht⟩ := hb e ev' hev'
    rw [htp]
    refine h.levels e ev hev ?_
    simpa only [IEvent.Notifies, IEvent.notifyWait, IEvent.notifySignal, ht] using hn
  · obtain ⟨ev, hev, hs⟩ := h.signalling e he
    obtain ⟨ev', hev', -, ht⟩ := hk e ev hev
    refine ⟨ev', hev', ?_⟩
    simpa only [IEvent.notifySignal, ht] using hs

theorem Queues.setSignalCount (e n : ℕ) : Queues queue pending
      (update event e ((event e).map ({ · with signalCount := n }))) signals := by
  refine h.of_events (fun e' ev hev => ?_) fun e' ev' hev' => ?_
  · by_cases he : e' = e
    · subst he
      rw [update_self, hev]
      exact ⟨_, rfl, rfl, rfl⟩
    · rw [update_of_ne he]
      exact ⟨ev, hev, rfl, rfl⟩
  · by_cases he : e' = e
    · subst he
      rw [update_self] at hev'
      obtain ⟨ev, hev, rfl⟩ := map_eq_some_iff.mp hev'
      exact ⟨ev, hev, rfl, rfl⟩
    · rw [update_of_ne he] at hev'
      exact ⟨ev', hev', rfl, rfl⟩

theorem Queues.clear {tpl : ℕ} (ht : tpl < tplHighLevel)
    (hempty : queue tpl = []) : Queues queue (pending &&& ~~~tplBit tpl) event signals := by
  refine ⟨h.queued, h.nodup, fun l hne => ?_, fun l hl => ?_, h.levels, h.signalling,
    h.signals_nodup⟩
  · have hl : l ≠ tpl := by
      rintro rfl
      exact hne hempty
    simp [getLsbD_clear ht, h.set l hne, hl]
  · rw [getLsbD_clear ht, and_eq_true] at hl
    exact h.bits l hl.1

theorem Queues.free (hq : ∀ l, e ∉ queue l)
    (hs : e ∉ signals) : Queues queue pending (update event e none) signals := by
  have hne : ∀ {e'}, e' ≠ e → update event e none e' = event e' :=
    fun hne => update_of_ne hne _ _
  refine ⟨fun l e' he' => ?_, h.nodup, h.set, h.bits, fun e' ev' hev' hn => ?_,
    fun e' he' => ?_, h.signals_nodup⟩
  · rw [hne fun heq => hq l (heq ▸ he')]
    exact h.queued l e' he'
  · have he' : e' ≠ e := by
      rintro rfl
      rw [update_self] at hev'
      cases hev'
    rw [hne he'] at hev'
    exact h.levels e' ev' hev' hn
  · rw [hne fun heq => hs (heq ▸ he')]
    exact h.signalling e' he'

theorem Queues.create (hfree : event e = none) (hl : ev.Notifies → ev.notifyTpl < tplHighLevel) :
    Queues queue pending (update event e (some ev)) signals := by
  have hne : ∀ {e' ev'}, event e' = some ev' → update event e (some ev) e' = some ev' := by
    intro e' ev' hev'
    rw [update_of_ne ?_, hev']
    rintro rfl
    rw [hfree] at hev'
    cases hev'
  refine ⟨fun l e' he' => ?_, h.nodup, h.set, h.bits, fun e' ev' hev' hn => ?_,
    fun e' he' => ?_, h.signals_nodup⟩
  · obtain ⟨ev', hev', hr⟩ := h.queued l e' he'
    exact ⟨ev', hne hev', hr⟩
  · by_cases he : e' = e
    · subst he
      rw [update_self] at hev'
      obtain rfl := some.inj hev'
      exact hl hn
    · rw [update_of_ne he] at hev'
      exact h.levels e' ev' hev' hn
  · obtain ⟨ev', hev', hs⟩ := h.signalling e' he'
    exact ⟨ev', hne hev', hs⟩

theorem Queues.signal (hev : event e = some ev) (hs : ev.notifySignal = true) (hnew : e ∉ signals) :
    Queues queue pending event (e :: signals) := by
  refine ⟨h.queued, h.nodup, h.set, h.bits, h.levels, fun e' he' => ?_,
    nodup_cons.mpr ⟨hnew, h.signals_nodup⟩⟩
  rcases mem_cons.mp he' with rfl | he'
  · exact ⟨ev, hev, hs⟩
  · exact h.signalling e' he'

theorem Queues.unsignal (e : ℕ) : Queues queue pending event (signals.erase e) :=
  ⟨h.queued, h.nodup, h.set, h.bits, h.levels,
    fun e' he' => h.signalling e' (mem_of_mem_erase he'), h.signals_nodup.erase e⟩

theorem Queues.append (hev : event e = some ev) (hn : ev.Notifies) (hfree : ∀ l, e ∉ queue l) :
    Queues (update queue ev.notifyTpl (queue ev.notifyTpl ++ [e]))
      (pending ||| tplBit ev.notifyTpl) event signals := by
  have hle := h.levels e ev hev hn
  have hbi : ∀ l, (pending ||| tplBit ev.notifyTpl).getLsbD l =
      (pending.getLsbD l || decide (l = ev.notifyTpl)) := fun l => by
    rw [BitVec.getLsbD_or, getLsbD_tplBit hle]
  refine ⟨fun l e' he' => ?_, fun l => ?_, fun l hne => ?_, fun l hl => ?_, h.levels, h.signalling,
    h.signals_nodup⟩
  · by_cases hl : l = ev.notifyTpl
    · subst hl
      rw [update_self, mem_append, mem_singleton] at he'
      rcases he' with he' | rfl
      · exact h.queued _ e' he'
      · exact ⟨ev, hev, rfl, hn⟩
    · rw [update_of_ne hl] at he'
      exact h.queued l e' he'
  · by_cases hl : l = ev.notifyTpl
    · subst hl
      rw [update_self]
      refine nodup_append.mpr ⟨h.nodup _, nodup_singleton e, fun a ha b hb => ?_⟩
      rintro rfl
      exact hfree _ (mem_singleton.mp hb ▸ ha)
    · rw [update_of_ne hl]
      exact h.nodup l
  · rw [hbi, or_eq_true]
    by_cases hl : l = ev.notifyTpl
    · exact .inr (by simpa using hl)
    · rw [update_of_ne hl] at hne
      exact .inl (h.set l hne)
  · rw [hbi, or_eq_true] at hl
    rcases hl with hl | hl
    · exact h.bits l hl
    · rw [of_decide_eq_true hl]
      exact hle

end Queues

section Tracked

variable {queue : ℕ → List ℕ} {log : List Mark} {e tpl : ℕ}

theorem Tracked.restored (h : Tracked queue log) (newTpl : ℕ) :
    Tracked queue (.restored newTpl :: log) :=
  ⟨h.mem, h.order⟩

theorem TakenOff.restored (h : TakenOff tpl e queue log) (newTpl : ℕ) :
    TakenOff tpl e queue (.restored newTpl :: log) :=
  ⟨h.since, h.mem, h.order⟩

theorem Tracked.erase_order {log' : List Mark} (h : Tracked queue log)
    (hn : ∀ l, (queue l).Nodup)
    (hs : ∀ e', e' ≠ e → pendingSince log' e' = pendingSince log e') (l : ℕ) :
    ((queue l).erase e).Pairwise (Earlier log') := by
  refine ((h.order l).sublist erase_sublist).imp_of_mem fun {a b} ha hb he => ?_
  have hne : ∀ {a}, a ∈ (queue l).erase e → a ≠ e := fun ha heq =>
    (hn l).not_mem_erase (heq ▸ ha)
  intro i j tpl tpl' hi hj
  rw [hs a (hne ha)] at hi
  rw [hs b (hne hb)] at hj
  exact he i j tpl tpl' hi hj

theorem Tracked.mem_erase (h : Tracked queue log) (hn : ∀ l, (queue l).Nodup) (e' l : ℕ) :
    e' ∈ (queue l).erase e ↔ e' ≠ e ∧ ∃ i, pendingSince log e' = some (i, l) := by
  rw [(hn l).mem_erase_iff, h.mem]

theorem Tracked.close (h : Tracked queue log) (hn : ∀ l, (queue l).Nodup) (e : ℕ) :
    Tracked (fun l => (queue l).erase e) (.closed e :: log) := by
  refine ⟨fun e' l => ?_, h.erase_order hn fun e' he' => pendingSince_closed_of_ne he'⟩
  rw [h.mem_erase hn]
  by_cases he : e' = e
  · subst he
    simp
  · simp [he, pendingSince_closed_of_ne he]

/-- An event is queued, at the end of its queue. -/
theorem Tracked.append (h : Tracked queue log) (hn : ∀ l, (queue l).Nodup) (e tpl : ℕ) :
    Tracked (update (fun l => (queue l).erase e) tpl ((queue tpl).erase e ++ [e]))
      (.queued e tpl :: log) := by
  have hs : ∀ e', e' ≠ e → pendingSince (.queued e tpl :: log) e' = pendingSince log e' :=
    fun e' he' => pendingSince_queued_of_ne he'
  have her := h.erase_order hn hs
  refine ⟨fun e' l => ?_, fun l => ?_⟩
  · by_cases hl : l = tpl
    · subst hl
      rw [update_self, mem_append, h.mem_erase hn]
      by_cases he : e' = e
      · subst he
        simp
      · simp [he, hs e' he]
    · rw [update_of_ne hl, h.mem_erase hn]
      by_cases he : e' = e
      · subst he
        simp [Ne.symm hl]
      · simp [he, hs e' he]
  · by_cases hl : l = tpl
    · subst hl
      rw [update_self]
      refine pairwise_append.mpr ⟨her l, pairwise_singleton _ _, fun a ha b hb => ?_⟩
      obtain rfl := mem_singleton.mp hb
      -- the new entry is the youngest
      intro i j tpl tpl' hi hj
      rw [hs a ((h.mem_erase hn a l).mp ha).1] at hi
      rw [pendingSince_queued_self] at hj
      cases hj
      exact pendingSince_lt hi
    · rw [update_of_ne hl]
      exact her l

/-- **The head of a queue is taken off**: it is the oldest pending notification of its level. -/
theorem Tracked.takenOff (h : Tracked queue log) (hn : ∀ l, (queue l).Nodup)
    {rest : List ℕ} (hh : queue tpl = e :: rest) :
    TakenOff tpl e (fun l => (queue l).erase e) log := by
  obtain ⟨i, hi⟩ := (h.mem e tpl).mp (hh ▸ mem_cons_self)
  refine ⟨⟨i, hi, fun e' he' j hj => ?_⟩, fun e' l => h.mem_erase hn e' l,
    h.erase_order hn fun _ _ => rfl⟩
  have ho := h.order tpl
  rw [hh, pairwise_cons] at ho
  rw [hh, erase_cons_head] at he'
  exact ho.1 e' he' i j tpl tpl hi hj

variable {pending : BitVec 64} {event : ℕ → Option IEvent} {signals : List ℕ}

/-- **Its notification function is called.** -/
theorem TakenOff.notified (h : TakenOff tpl e queue log) (hq : Queues queue pending event signals)
    (hbe : ∀ l, pending.getLsbD l = true → l ≤ tpl) :
    LawfulMark log (.notified e tpl tpl) ∧ Tracked queue (.notified e tpl tpl :: log) := by
  obtain ⟨i, hi, hf⟩ := h.since
  have hne : ∀ {e' l}, e' ∈ queue l → e' ≠ e := fun he' => ((h.mem _ _).mp he').1
  refine ⟨⟨rfl, i, hi, fun e' j tpl' he' hj => ?_⟩, fun e' l => ?_, fun l => ?_⟩
  · have hmem : e' ∈ queue tpl' := (h.mem e' tpl').mpr ⟨he', j, hj⟩
    have hle := hbe tpl' (hq.set tpl' (ne_nil_of_mem hmem))
    rcases Nat.lt_or_eq_of_le hle with hlt | rfl
    · exact .inl hlt
    · exact .inr ⟨rfl, hf e' hmem j hj⟩
  · rw [h.mem]
    by_cases he : e' = e
    · subst he
      simp
    · simp [he, pendingSince_notified_of_ne he]
  · refine (h.order l).imp_of_mem fun {a b} ha hb hea => ?_
    intro i j tpl₁ tpl₂ hi hj
    rw [pendingSince_notified_of_ne (hne ha)] at hi
    rw [pendingSince_notified_of_ne (hne hb)] at hj
    exact hea i j tpl₁ tpl₂ hi hj

/-- When nothing is pending above a level, `CoreRestoreTpl` may return. -/
theorem Tracked.lawful_restored (h : Tracked queue log) (hq : Queues queue pending event signals)
    {newTpl : ℕ} (hb : ∀ l, pending.getLsbD l = true → l ≤ newTpl) :
    LawfulMark log (.restored newTpl) := by
  intro e i l hi
  have hmem : e ∈ queue l := (h.mem e l).mpr ⟨i, hi⟩
  exact hb l (hq.set l (ne_nil_of_mem hmem))

theorem TakenOff.lawful_restored (h : TakenOff tpl e queue log)
    (hq : Queues queue pending event signals)
    (hb : ∀ l, pending.getLsbD l = true → l ≤ tpl) : LawfulMark log (.restored tpl) := by
  intro e' i l hi
  by_cases he : e' = e
  · subst he
    -- the event itself is of the level
    obtain ⟨i', hi', -⟩ := h.since
    rw [hi'] at hi
    cases hi
    exact Nat.le_refl _
  · have hmem : e' ∈ queue l := (h.mem e' l).mpr ⟨he, i, hi⟩
    exact hb l (hq.set l (ne_nil_of_mem hmem))

end Tracked

end Edk2.Event
