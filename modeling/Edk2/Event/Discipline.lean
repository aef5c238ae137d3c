import Edk2.Event.Record

/-!
# The discipline of event dispatch

What holds whatever the main program and the notification functions ask for. Outside code always
runs at a level above which nothing is pending. A service may queue notifications above that level;
it does so under the event lock, and the release of the lock dispatches them before the service
returns. While a notification function of level `P` runs, the dispatch loop of `P` is suspended
with nothing pending above `P`, so a nested dispatch never touches the queue of `P` or a lower one.

The triples below are proved under the assumption that outside code keeps to them for the number of
steps that is left; `keeps_userCode` then discharges it by induction on the steps.

## Main results

* `keeps_dispatch`, `keeps_restore`: the dispatch loop and `CoreRestoreTpl`
* `keeps_service`: every service
* `keeps_userCode`, `keeps_mainProgram`: outside code
* `dispatch_of_run`: the discipline over whole runs
-/

namespace Edk2.Event

open List Option
open Command (Triple)

/-! ## States -/

/-- The queues fit together and the record is lawful. -/
def Sound (s : EventState) : Prop :=
  Queues s.eventQueue s.eventPending s.event s.eventSignalQueue ∧ Lawful s.log

/-- Nothing is pending above a level. -/
def Below (tpl : ℕ) (s : EventState) : Prop := ∀ l, s.eventPending.getLsbD l = true → l ≤ tpl

/-- Outside code has control, at a level above which nothing is pending. -/
structure Calm (tpl : ℕ) (s : EventState) : Prop where
  currentTpl : s.currentTpl = tpl
  level : tpl ≤ tplHighLevel
  below : Below tpl s
  tracked : Tracked s.eventQueue s.log

/-- The event lock is held, and was acquired at a level. -/
structure Held (tpl : ℕ) (s : EventState) : Prop where
  ownerTpl : s.ownerTpl = tpl
  level : tpl ≤ tplHighLevel
  tracked : Tracked s.eventQueue s.log

abbrev Keeps (n : ℕ) (P : EventState → Prop) (c : EventCommand) (Q R : EventState → Prop) : Prop :=
  Triple procedures Sound (fun s => ∃ tpl, Calm tpl s) n P c Q R

section States

variable {s : EventState} {tpl newTpl e : ℕ} {ev : IEvent}

theorem Below.mono (h : Below tpl s) (hle : tpl ≤ newTpl) : Below newTpl s :=
  fun l hl => Nat.le_trans (h l hl) hle

theorem below_iff : Below newTpl s ↔ pendingAbove newTpl s = false := by
  by_cases hz : s.eventPending = 0#64
  · simp [Below, pendingAbove, hz]
  · obtain ⟨hs, hh⟩ := getLsbD_highBitSet64 hz
    have hif : Below newTpl s ↔ highBitSet64 s.eventPending ≤ newTpl :=
      ⟨fun h => h _ hs, fun hle l hl => Nat.le_trans (hh l hl) hle⟩
    rw [hif]
    simp [pendingAbove, hz]

theorem sound_coreNotifyEvent (h : Sound s) (hev : s.event e = some ev) (hn : ev.Notifies) :
    Sound (coreNotifyEvent s e) := by
  have he := h.1.erase e
  have hfree : ∀ l, e ∉ (s.eventQueue l).erase e := fun l => (h.1.nodup l).not_mem_erase
  unfold coreNotifyEvent
  rw [hev]
  exact ⟨he.append hev hn hfree, trivial, h.2⟩

theorem held_coreNotifyEvent (h : Sound s) (hh : Held tpl s) (hev : s.event e = some ev) :
    Held tpl (coreNotifyEvent s e) := by
  unfold coreNotifyEvent
  rw [hev]
  exact ⟨hh.ownerTpl, hh.level, hh.tracked.append h.1.nodup e ev.notifyTpl⟩

theorem event_coreNotifyEvent : (coreNotifyEvent s e).event = s.event := by
  unfold coreNotifyEvent
  split <;> rfl

theorem held_notifyGroup (h : Sound s) (hh : Held tpl s) (g : EfiGuid) :
    Sound (notifyGroup s g) ∧ Held tpl (notifyGroup s g) := by
  have hs := h.1.signalling
  unfold notifyGroup
  generalize s.eventSignalQueue = queue at hs
  induction queue generalizing s with
  | nil => exact ⟨h, hh⟩
  | cons e queue ih =>
    obtain ⟨ev, hev, hsi⟩ := hs e mem_cons_self
    have hr := fun e' (he' : e' ∈ queue) => hs e' (mem_cons_of_mem _ he')
    rw [foldl_cons]
    split
    · refine ih (sound_coreNotifyEvent h hev (.inr hsi)) (held_coreNotifyEvent h hh hev) ?_
      rw [event_coreNotifyEvent]
      exact hr
    · exact ih h hh hr

theorem sound_takeEvent (h : Sound s) : Sound (takeEvent e s) := by
  have he := h.1.erase e
  unfold takeEvent
  split
  · exact ⟨he.setSignalCount e 0, h.2⟩
  · exact ⟨he, h.2⟩

end States

/-! ## The locks and the dispatch -/

variable {R : EventState → Prop}

section Dispatch

variable {n tpl : ℕ}

theorem keeps_setStatus (status : EfiStatus) :
    Keeps n (Calm tpl) (setStatus status) (Calm tpl) R :=
  .act fun _ hI hs => ⟨hI, hs.currentTpl, hs.level, hs.below, hs.tracked⟩

theorem keeps_acquire :
    Keeps n (Calm tpl) coreAcquireEventLock (fun s => Held tpl s ∧ Below tpl s) R :=
  .act fun _ hI hs => ⟨hI, ⟨hs.currentTpl, hs.level, hs.tracked⟩, hs.below⟩

variable {F : EventState → Prop}

/-- The start of `CoreRestoreTpl`, which caps the level. -/
theorem keeps_restoreStart (newTpl : ℕ)
    (ht : ∀ s tpl, F s → F { s with currentTpl := tpl }) :
    Keeps n F
      (.get fun s =>
        if tplHighLevel ≤ s.currentTpl ∧ newTpl < tplHighLevel then setTpl tplHighLevel else .skip)
      F R := by
  refine .get fun s₀ hI hs => ?_
  split
  · refine .act fun s _ heq => ?_
    subst heq
    exact ⟨hI, ht s _ hs⟩
  · refine .skip fun s _ heq => ?_
    subst heq
    exact hs

/-- **`CoreRestoreTpl` with nothing to dispatch** only sets the level, so it keeps what does not
depend on the level. -/
theorem keeps_restore_inside (newTpl : ℕ)
    (ht : ∀ s tpl, F s → F { s with currentTpl := tpl })
    (hl : ∀ s, F s → F { s with log := .restored newTpl :: s.log })
    (hla : ∀ s, Sound s → F s → Below newTpl s → LawfulMark s.log (.restored newTpl)) :
    Keeps n (fun s => F s ∧ Below newTpl s) (.call (.coreRestoreTpl newTpl))
      (fun s => s.currentTpl = newTpl ∧ F s ∧ Below newTpl s) fun _ => False := by
  apply Triple.call
  refine Triple.seq_inside
    (keeps_restoreStart newTpl fun s tpl hs => ⟨ht s tpl hs.1, hs.2⟩)
    (Triple.seq_inside (Triple.loop_skip ?_) (Triple.act ?_))
  · intro s _ hs
    exact below_iff.mp hs.2
  · intro s hI hs
    exact ⟨⟨hI.1, hla s hI hs.1 hs.2, hI.2⟩, rfl, hl _ (ht s newTpl hs.1), hs.2⟩

theorem keeps_release_inside
    (ht : ∀ s tpl, F s → F { s with currentTpl := tpl })
    (hl : ∀ s, F s → F { s with log := .restored tpl :: s.log })
    (hla : ∀ s, Sound s → F s → Below tpl s → LawfulMark s.log (.restored tpl)) :
    Keeps n (fun s => s.ownerTpl = tpl ∧ F s ∧ Below tpl s) coreReleaseEventLock
      (fun s => s.currentTpl = tpl ∧ F s ∧ Below tpl s) fun _ => False := by
  refine .get fun s₀ _ hs => ?_
  rw [hs.1]
  refine (keeps_restore_inside tpl ht hl hla).pre fun s _ heq => ?_
  subst heq
  exact hs.2

theorem keeps_release_calm :
    Keeps n (fun s => Held tpl s ∧ Below tpl s) coreReleaseEventLock (Calm tpl)
      fun _ => False := by
  refine (keeps_release_inside (F := fun s => tpl ≤ tplHighLevel ∧ Tracked s.eventQueue s.log)
    (fun s _ hs => hs) (fun s hs => ⟨hs.1, hs.2.restored tpl⟩)
    fun s hI hs hb => hs.2.lawful_restored hI.1 hb).conseq ?_ ?_ fun _ _ hs => hs
  · intro s _ hs
    exact ⟨hs.1.ownerTpl, ⟨hs.1.level, hs.1.tracked⟩, hs.2⟩
  · intro s _ hs
    exact ⟨hs.1, hs.2.1.1, hs.2.2, hs.2.1.2⟩

/-- An event was taken off the queue of its level. -/
structure Taken (tpl e : ℕ) (s : EventState) : Prop where
  event : notifyTplOf s e = tpl
  takenOff : TakenOff tpl e s.eventQueue s.log

theorem notifyTplOf_setSignalCount (s : EventState) (e n : ℕ) :
    notifyTplOf (setSignalCount s e n) e = notifyTplOf s e := by
  simp only [notifyTplOf, setSignalCount, Function.update_self, Option.map_map]
  rfl

theorem taken_takeEvent {s : EventState} {e : ℕ} {rest : List ℕ} (hI : Sound s) (hs : Held tpl s)
    (hh : s.eventQueue tpl = e :: rest) : Taken tpl e (takeEvent e s) := by
  obtain ⟨ev, hev, hl, -⟩ := hI.1.queued tpl e (hh ▸ mem_cons_self)
  have ht := hs.tracked.takenOff hI.1.nodup hh
  have hn : notifyTplOf (removeNotifyLink s e) e = tpl := by
    show ((s.event e).map IEvent.notifyTpl).getD 0 = tpl
    rw [hev]
    exact hl
  unfold takeEvent
  split
  · exact ⟨(notifyTplOf_setSignalCount _ e 0).trans hn, ht⟩
  · exact ⟨hn, ht⟩

section Outside

-- outside code keeps to its contract for the steps that are left
variable (huser : ∀ tpl, Keeps n (Calm tpl) (.call .userCode) (fun _ => False) (Calm tpl))

include huser

/-- **A notification function is called at its level.** -/
theorem keeps_notifyFunction (e : ℕ) (hl : tpl ≤ tplHighLevel) :
    Keeps n (fun s => s.currentTpl = tpl ∧ Taken tpl e s ∧ Below tpl s)
      (.call (.notifyFunction e)) (fun _ => False) (Calm tpl) := by
  apply Triple.call
  refine Triple.seq_inside (Triple.act fun s hI hs => ?_) (huser tpl)
  obtain ⟨hc, ht, hb⟩ := hs
  obtain ⟨hla, htr⟩ := ht.takenOff.notified hI.1 hb
  rw [ht.event, hc]
  exact ⟨⟨hI.1, hla, hI.2⟩, rfl, hl, hb, htr⟩

/-- **One round of the dispatch loop** hands control to a notification function. -/
theorem keeps_dispatchRound {Q : EventState → Prop} (hl : tpl ≤ tplHighLevel)
    {s₀ : EventState} (hI₀ : Sound s₀) (hs₀ : Held tpl s₀) (hb₀ : Below tpl s₀)
    (hne : (!(s₀.eventQueue tpl).isEmpty) = true) :
    Keeps n (fun s => s = s₀)
      (.seq (.act (takeEvent ((s₀.eventQueue tpl).headD 0)))
        (.seq coreReleaseEventLock
          (.seq (.call (.notifyFunction ((s₀.eventQueue tpl).headD 0))) coreAcquireEventLock)))
      Q fun s => Held tpl s ∧ Below tpl s := by
  obtain ⟨e, rest, hh⟩ : ∃ e rest, s₀.eventQueue tpl = e :: rest := by
    cases hq : s₀.eventQueue tpl with
    | nil => simp [hq] at hne
    | cons e rest => exact ⟨e, rest, rfl⟩
  rw [hh]
  have hf : (takeEvent e s₀).ownerTpl = tpl ∧ Below tpl (takeEvent e s₀) := by
    unfold takeEvent
    split <;> exact ⟨hs₀.ownerTpl, hb₀⟩
  refine .seq_inside (M := fun s => s.ownerTpl = tpl ∧ Taken tpl e s ∧ Below tpl s)
    (.act fun s _ heq => ?_) (.seq_inside (M := fun s => s.currentTpl = tpl ∧
      Taken tpl e s ∧ Below tpl s) (keeps_release_inside ?_ ?_ ?_) ?_)
  · subst heq
    exact ⟨sound_takeEvent hI₀, hf.1, taken_takeEvent hI₀ hs₀ hh, hf.2⟩
  · exact fun s _ hs => ⟨hs.event, hs.takenOff⟩
  · exact fun s hs => ⟨hs.event, hs.takenOff.restored tpl⟩
  · exact fun s hI hs hb => hs.takenOff.lawful_restored hI.1 hb
  · refine (keeps_notifyFunction huser e hl).seq ?_ keeps_acquire
    exact fun _ _ _ _ _ hs => hs.elim

/-- **The dispatch of a level.** If no notification function was called, the queue was empty and a
pending bit was cleared. -/
theorem keeps_dispatch (ht : tpl < tplHighLevel) (v : ℕ) :
    Keeps n (fun s => Calm tpl s ∧ s.eventPending.getLsbD tpl = true ∧ s.eventPending.toNat = v)
      (.call (.coreDispatchEventNotifies tpl))
      (fun s => Tracked s.eventQueue s.log ∧ s.eventPending.toNat < v)
      fun s => Tracked s.eventQueue s.log := by
  apply Triple.call
  have hcl : ∀ {s : EventState} {l : ℕ},
      (s.eventPending &&& ~~~tplBit tpl).getLsbD l = true → s.eventPending.getLsbD l = true := by
    intro s l hl
    rw [getLsbD_clear ht, Bool.and_eq_true] at hl
    exact hl.1
  -- what is known under the lock, before and after control was handed out
  let before : EventState → Prop := fun s =>
    (Held tpl s ∧ Below tpl s) ∧ s.eventPending.getLsbD tpl = true ∧ s.eventPending.toNat = v
  refine .seq_inside (M := before) (.act fun s hI hs => ?_)
    (.seq (.loop (R := fun s => Held tpl s ∧ Below tpl s) (fun _ => 0)
      (fun u => .get fun s₀ hI₀ hs₀ => ?_) fun u => .get fun s₀ hI₀ hs₀ => ?_) ?_ ?_)
  · obtain ⟨hc, hse, hv⟩ := hs
    exact ⟨hI, ⟨⟨hc.currentTpl, hc.level, hc.tracked⟩, hc.below⟩, hse, hv⟩
  · exact keeps_dispatchRound huser (Nat.le_of_lt ht) hI₀ hs₀.1.1.1 hs₀.1.1.2 hs₀.2.1
  · exact keeps_dispatchRound huser (Nat.le_of_lt ht) hI₀ hs₀.1.1 hs₀.1.2 hs₀.2.1
  · -- no round: the bit goes
    refine .seq_inside (M := fun s => s.ownerTpl = tpl ∧
        (Tracked s.eventQueue s.log ∧ s.eventPending.toNat < v) ∧ Below tpl s)
      (.act fun s hI hs => ?_)
      ((keeps_release_inside ?_ ?_ ?_).conseq (fun _ _ hs => hs) (fun _ _ hs => hs.2.1)
        fun _ _ hs => hs.elim)
    · obtain ⟨⟨⟨hh, hb⟩, hse, hv⟩, hempty⟩ := hs
      have hnil : s.eventQueue tpl = [] := by simpa using hempty
      refine ⟨⟨hI.1.clear ht hnil, hI.2⟩, hh.ownerTpl, ⟨hh.tracked, ?_⟩,
        fun l hl => hb l (hcl hl)⟩
      exact hv ▸ toNat_clear_lt ht hse
    · exact fun s _ hs => hs
    · exact fun s hs => ⟨hs.1.restored tpl, hs.2⟩
    · exact fun s hI hs hb => hs.1.lawful_restored hI.1 hb
  · refine .seq_inside (M := fun s => Held tpl s ∧ Below tpl s)
      (.act fun s hI hs => ?_)
      (keeps_release_calm.conseq (fun _ _ hs => hs) (fun _ _ hs => hs.tracked)
        fun _ _ hs => hs.elim)
    obtain ⟨⟨hh, hb⟩, hempty⟩ := hs
    have hnil : s.eventQueue tpl = [] := by simpa using hempty
    exact ⟨⟨hI.1.clear ht hnil, hI.2⟩, ⟨hh.ownerTpl, hh.level, hh.tracked⟩,
      fun l hl => hb l (hcl hl)⟩

/-- One round of `CoreRestoreTpl` dispatches the highest pending level. -/
theorem keeps_restoreRound (newTpl v : ℕ) :
    Keeps n (fun s => Tracked s.eventQueue s.log ∧ pendingAbove newTpl s = true ∧
        s.eventPending.toNat = v)
      (.get fun s => .seq (setTpl (highBitSet64 s.eventPending))
        (.call (.coreDispatchEventNotifies (highBitSet64 s.eventPending))))
      (fun s => Tracked s.eventQueue s.log ∧ s.eventPending.toNat < v)
      fun s => Tracked s.eventQueue s.log := by
  refine .get fun s₀ hI hs => ?_
  have hp := hs.2.1
  rw [pendingAbove, Bool.and_eq_true, bne_iff_ne] at hp
  obtain ⟨hse, hb⟩ := getLsbD_highBitSet64 hp.1
  have ht := hI.1.bits _ hse
  refine .seq_inside
    (.act fun s _ heq => ?_) (keeps_dispatch huser ht v)
  subst heq
  exact ⟨hI, ⟨rfl, Nat.le_of_lt ht, hb, hs.1⟩, hse, hs.2.2⟩

/-- **`CoreRestoreTpl`** returns with nothing pending above the new level. -/
theorem keeps_restore {newTpl : ℕ} (hl : newTpl ≤ tplHighLevel) :
    Keeps n (fun s => Tracked s.eventQueue s.log) (.call (.coreRestoreTpl newTpl)) (Calm newTpl)
      (Calm newTpl) := by
  apply Triple.call
  have hr := keeps_restoreRound huser newTpl
  refine Triple.seq_inside
    (keeps_restoreStart newTpl fun s _ hs => hs)
    (.seq_same (.loop (fun s : EventState => s.eventPending.toNat) hr hr)
      (.act ?_))
  intro s hI hs
  have hb := below_iff.mpr hs.2
  exact ⟨⟨hI.1, hs.1.lawful_restored hI.1 hb, hI.2⟩, rfl, hl, hb,
    hs.1.restored newTpl⟩

theorem keeps_release : Keeps n (Held tpl) coreReleaseEventLock (Calm tpl) (Calm tpl) := by
  refine .get fun s₀ _ hs => ?_
  rw [hs.ownerTpl]
  refine (keeps_restore huser hs.level).pre fun s _ heq => ?_
  subst heq
  exact hs.tracked

end Outside

end Dispatch

/-! ## The services -/

section Services

variable {n tpl : ℕ}

theorem keeps_setSignalCount (e k : ℕ) :
    Keeps n (fun s => Held tpl s ∧ Below tpl s) (.act (setSignalCount · e k))
      (fun s => Held tpl s ∧ Below tpl s) R :=
  .act fun _ hI hs => ⟨⟨hI.1.setSignalCount e k, hI.2⟩,
    ⟨hs.1.ownerTpl, hs.1.level, hs.1.tracked⟩, hs.2⟩

theorem keeps_cancelTimer :
    Keeps n (Calm tpl) cancelTimer (Calm tpl) R := by
  refine .get fun s₀ hI hs => ?_
  rw [hs.currentTpl]
  refine .seq_inside
    (M := fun s => (tpl ≤ tplHighLevel ∧ Tracked s.eventQueue s.log) ∧ Below tpl s)
    (.act fun s _ heq => ?_) ((keeps_restore_inside tpl ?_ ?_ ?_).conseq (fun _ _ hs => hs)
      (fun s _ hs => ?_) fun _ _ hs => hs.elim)
  · subst heq
    exact ⟨hI, ⟨hs.level, hs.tracked⟩, hs.below⟩
  · exact fun s _ hs => hs
  · exact fun s hs => ⟨hs.1, hs.2.restored tpl⟩
  · exact fun s hI hs hb => hs.2.lawful_restored hI.1 hb
  · exact ⟨hs.1, hs.2.1.1, hs.2.2, hs.2.1.2⟩

/-- An event is on no list. -/
def Unlinked (e : ℕ) (s : EventState) : Prop := (∀ l, e ∉ s.eventQueue l) ∧ e ∉ s.eventSignalQueue

/-- **`CoreCloseEvent`.** The event is on no list when its memory is freed, since nothing is
dispatched in between. -/
theorem keeps_close (e : ℕ) :
    Keeps n (Calm tpl) (coreCloseEvent e) (Calm tpl) R := by
  refine .get fun s₀ _ hs₀ => ?_
  have hp : ∀ s, Sound s → s = s₀ → Calm tpl s := fun s _ heq => heq ▸ hs₀
  split
  · exact (keeps_setStatus _).pre hp
  · refine (Triple.seq_inside (M := Calm tpl) ?_ (Triple.seq_inside keeps_acquire
      (Triple.seq_inside (M := fun s => s.ownerTpl = tpl ∧ ((tpl ≤ tplHighLevel ∧
        Tracked s.eventQueue s.log) ∧ Unlinked e s) ∧ Below tpl s) (Triple.act fun s hI hs => ?_)
        (Triple.seq_inside (keeps_release_inside ?_ ?_ ?_) (Triple.act fun s hI hs => ?_))))).pre
        hp
    · split
      · exact keeps_cancelTimer
      · exact Triple.skip fun _ _ hs => hs
    · obtain ⟨hh, hb⟩ := hs
      refine ⟨⟨(hI.1.erase e).unsignal e, trivial, hI.2⟩, hh.ownerTpl,
        ⟨⟨hh.level, hh.tracked.close hI.1.nodup e⟩, fun l => ?_, ?_⟩, hb⟩
      · exact (hI.1.nodup l).not_mem_erase
      · exact hI.1.signals_nodup.not_mem_erase
    · exact fun s _ hs => hs
    · exact fun s hs => ⟨⟨hs.1.1, hs.1.2.restored tpl⟩, hs.2⟩
    · exact fun s hI hs hb => hs.1.2.lawful_restored hI.1 hb
    · obtain ⟨hc, ⟨⟨hl, ht⟩, hq, hsi⟩, hb⟩ := hs
      exact ⟨⟨hI.1.free hq hsi, hI.2⟩, hc, hl, hb, ht⟩

theorem notifyTpl_newEvent {args : CreateArgs} {ev : IEvent} (h : newEvent args = some ev)
    (hn : ev.Notifies) : ev.notifyTpl < tplHighLevel := by
  unfold newEvent at h
  split at h
  · cases h
  · obtain ⟨⟨type, group⟩, -, h⟩ := bind_eq_some_iff.mp h
    simp only at h
    split at h
    · split at h
      · cases h
      · rename_i hv
        obtain rfl := some.inj h
        exact Nat.not_le.mp fun hle => hv (.inr (.inr hle))
    · rename_i hnone
      obtain rfl := some.inj h
      exact absurd hn hnone

/-- **`CoreCreateEventInternal`.** -/
theorem keeps_create (args : CreateArgs) :
    Keeps n (Calm tpl) (coreCreateEventInternal args) (Calm tpl) R := by
  refine .get fun s₀ hI₀ hs₀ => ?_
  have hp : ∀ s, Sound s → s = s₀ → Calm tpl s := fun s _ heq => heq ▸ hs₀
  split
  · exact (keeps_setStatus _).pre hp
  · exact (keeps_setStatus _).pre hp
  · rename_i ev e hnew _
    split
    · exact .skip hp
    · rename_i hdead
      have hfree : s₀.event e = none := by simpa using hdead
      have hsi : e ∉ s₀.eventSignalQueue := by
        intro hmem
        obtain ⟨ev', hev', -⟩ := hI₀.1.signalling e hmem
        rw [hfree] at hev'
        cases hev'
      refine .seq_inside (M := fun s => Calm tpl s ∧ s.event e = some ev ∧
          e ∉ s.eventSignalQueue) (.act fun s _ heq => ?_)
        (.seq_inside (M := fun s => (Held tpl s ∧ Below tpl s) ∧ s.event e = some ev ∧
          e ∉ s.eventSignalQueue) (.act fun s hI hs => ?_)
          (.seq_inside
            (.act fun s hI hs => ?_)
            (.seq_inside keeps_release_calm (keeps_setStatus _))))
      · subst heq
        exact ⟨⟨hI₀.1.create hfree (notifyTpl_newEvent hnew), hI₀.2⟩,
          ⟨hs₀.currentTpl, hs₀.level, hs₀.below, hs₀.tracked⟩, Function.update_self .., hsi⟩
      · exact ⟨hI, ⟨⟨hs.1.currentTpl, hs.1.level, hs.1.tracked⟩, hs.1.below⟩, hs.2⟩
      · obtain ⟨⟨hh, hb⟩, hev, hsig⟩ := hs
        split
        · rename_i hn
          exact ⟨⟨hI.1.signal hev hn hsig, hI.2⟩,
            ⟨hh.ownerTpl, hh.level, hh.tracked⟩, hb⟩
        · exact ⟨hI, hh, hb⟩

section Outside

variable (huser : ∀ tpl, Keeps n (Calm tpl) (.call .userCode) (fun _ => False) (Calm tpl))

include huser

/-- **`CoreNotifySignalList`.** -/
theorem keeps_notifySignalList (g : EfiGuid) :
    Keeps n (Calm tpl) (coreNotifySignalList g) (Calm tpl) (Calm tpl) := by
  refine .seq_inside keeps_acquire (.seq_inside (.act ?_)
    (keeps_release huser))
  intro s hI hs
  exact held_notifyGroup hI hs.1 g

/-- **`CoreSignalEvent`.** -/
theorem keeps_signal (e : ℕ) :
    Keeps n (Calm tpl) (coreSignalEvent e) (Calm tpl) (Calm tpl) := by
  refine .get fun s₀ _ hs₀ => ?_
  split
  · exact (keeps_setStatus _).pre fun s _ heq => heq ▸ hs₀
  · rename_i ev hev
    refine .seq_inside (M := fun s => (Held tpl s ∧ Below tpl s) ∧ s.event e = some ev)
      (.act fun s hI heq => ?_) (.seq_same ?_
        (.seq_same (keeps_release huser) (keeps_setStatus _)))
    · subst heq
      exact ⟨hI, ⟨⟨hs₀.currentTpl, hs₀.level, hs₀.tracked⟩, hs₀.below⟩, hev⟩
    · split
      · refine .seq_inside (M := fun s => (Held tpl s ∧ Below tpl s) ∧
          s.event e = some { ev with signalCount := 1 }) (.act fun s hI hs => ?_) ?_
        · exact ⟨⟨hI.1.setSignalCount e 1, hI.2⟩,
            ⟨⟨hs.1.1.ownerTpl, hs.1.1.level, hs.1.1.tracked⟩, hs.1.2⟩,
            by simp [setSignalCount, hs.2]⟩
        split
        · rename_i hn
          split
          · -- the lock is released with nothing pending, and taken for the whole group
            refine (Triple.seq_inside keeps_release_calm (Triple.seq_same
              (keeps_notifySignalList huser ev.eventGroup) ((keeps_acquire).conseq
                (fun _ _ hs => hs) (fun _ _ hs => hs.1) fun _ _ hs => hs))).pre fun _ _ hs => hs.1
          · refine .act fun s hI hs => ?_
            exact ⟨sound_coreNotifyEvent hI hs.2 (.inr hn), held_coreNotifyEvent hI hs.1.1 hs.2⟩
        · exact .skip fun _ _ hs => hs.1.1
      · exact .skip fun _ _ hs => hs.1.1

/-- **`CoreCheckEvent`.** -/
theorem keeps_check (e : ℕ) : Keeps n (Calm tpl) (coreCheckEvent e) (Calm tpl) (Calm tpl) := by
  refine .get fun s₀ hI₀ hs₀ => ?_
  have hp : ∀ s, Sound s → s = s₀ → Calm tpl s := fun s _ heq => heq ▸ hs₀
  split
  · exact (keeps_setStatus _).pre hp
  · rename_i ev hev
    split
    · exact (keeps_setStatus _).pre hp
    · refine .seq_same (M := Calm tpl) ?_ (.get fun s₁ _ hs₁ => ?_)
      · split
        · rename_i hw
          refine .seq_inside (M := fun s => Held tpl s ∧ s.event e = some ev)
            (.act fun s hI heq => ?_)
            (.seq_inside (.act fun s hI hs => ?_) (keeps_release huser))
          · subst heq
            exact ⟨hI, ⟨hs₀.currentTpl, hs₀.level, hs₀.tracked⟩, hev⟩
          · exact ⟨sound_coreNotifyEvent hI hs.2 (.inl hw.2), held_coreNotifyEvent hI hs.1 hs.2⟩
        · exact Triple.skip hp
      · have hp₁ : ∀ s, Sound s → s = s₁ → Calm tpl s := fun s _ heq => heq ▸ hs₁
        split
        · exact (Triple.seq_inside keeps_acquire (Triple.seq_inside (keeps_setSignalCount e 0)
            (Triple.seq_inside keeps_release_calm (keeps_setStatus _)))).pre hp₁
        · exact (keeps_setStatus _).pre hp₁

/-- **Every service** returns with outside code in the same position. -/
theorem keeps_service (r : Request) : Keeps n (Calm tpl) (service r) (Calm tpl) (Calm tpl) := by
  cases r with
  | signalEvent e => exact keeps_signal huser e
  | notifySignalList g => exact keeps_notifySignalList huser g
  | checkEvent e => exact keeps_check huser e
  | closeEvent e => exact keeps_close e
  | createEvent args => exact keeps_create args
  | ret | raiseTpl | restoreTpl => exact .skip fun _ _ hs => hs

end Outside

end Services

/-! ## Outside code -/

/-- **Notification functions** keep their level, by induction on the steps: what they ask for runs
for fewer steps than they have left. -/
theorem keeps_userCode (n tpl : ℕ) :
    Keeps n (Calm tpl) (.call .userCode) (fun _ => False) (Calm tpl) := by
  induction n using Nat.strongRecOn generalizing tpl with
  | _ n ih =>
    refine .call (.choose (fun s _ hs => ⟨tpl, hs⟩) fun r m hm => ?_)
    have huser := ih m hm
    have hnext : Keeps m (Calm tpl) (.call .userCode) (Calm tpl) (Calm tpl) :=
      (huser tpl).conseq (fun _ _ hs => hs) (fun _ _ hs => hs.elim) fun _ _ hs => hs
    have hse : ∀ r, Keeps m (Calm tpl) (.seq (service r) (.call .userCode)) (Calm tpl)
        (Calm tpl) := fun r => (keeps_service huser r).seq_same hnext
    cases r with
    | ret | restoreTpl => exact .skip fun _ _ hs => hs
    | signalEvent | notifySignalList | checkEvent | closeEvent | createEvent => exact hse _
    | raiseTpl newTpl =>
      refine .seq_same (.get fun s₀ hI hs₀ => ?_) hnext
      split
      · rename_i hr
        rw [hs₀.currentTpl] at hr ⊢
        refine .seq_inside (.act fun s _ heq => ?_)
          (.seq (huser newTpl) (fun _ _ _ _ _ hs => hs.elim)
            ((keeps_restore huser hs₀.level).pre fun _ _ hs => hs.tracked))
        subst heq
        exact ⟨hI, rfl, hr.2, hs₀.below.mono hr.1, hs₀.tracked⟩
      · exact .skip fun s _ heq => heq ▸ hs₀

/-- **The main program** may leave the level as it likes. -/
theorem keeps_mainProgram (n : ℕ) :
    Keeps n (fun s => ∃ tpl, Calm tpl s) (.call .mainProgram) (fun _ => False)
      fun s => ∃ tpl, Calm tpl s := by
  induction n using Nat.strongRecOn with
  | _ n ih =>
    refine .call (.choose (fun s _ hs => hs) fun r m hm => ?_)
    have huser := keeps_userCode m
    have hnext : Keeps m (fun s => ∃ tpl, Calm tpl s) (.call .mainProgram)
        (fun s => ∃ tpl, Calm tpl s) fun s => ∃ tpl, Calm tpl s :=
      (ih m hm).conseq (fun _ _ hs => hs) (fun _ _ hs => hs.elim) fun _ _ hs => hs
    have hse : ∀ r, Keeps m (fun s => ∃ tpl, Calm tpl s)
        (.seq (service r) (.call .mainProgram)) (fun s => ∃ tpl, Calm tpl s)
        fun s => ∃ tpl, Calm tpl s := by
      refine fun r => .seq_same (.exists_pre fun tpl => ?_) hnext
      exact (keeps_service huser r).conseq (fun _ _ hs => hs) (fun _ _ hs => ⟨tpl, hs⟩)
        fun _ _ hs => ⟨tpl, hs⟩
    cases r with
    | ret => exact .skip fun _ _ hs => hs
    | signalEvent | notifySignalList | checkEvent | closeEvent | createEvent => exact hse _
    | raiseTpl newTpl =>
      refine .seq_same (.get fun s₀ hI hs₀ => ?_) hnext
      split
      · rename_i hr
        refine .act fun s _ heq => ?_
        subst heq
        obtain ⟨tpl, hs⟩ := hs₀
        rw [hs.currentTpl] at hr
        exact ⟨hI, newTpl, rfl, hr.2, hs.below.mono hr.1, hs.tracked⟩
      · exact .skip fun s _ heq => heq ▸ hs₀
    | restoreTpl newTpl =>
      refine .seq_same (.get fun s₀ hI hs₀ => ?_) hnext
      split
      · rename_i hre
        obtain ⟨tpl, hs⟩ := hs₀
        rw [hs.currentTpl] at hre
        exact (keeps_restore huser (Nat.le_trans hre hs.level)).conseq
          (fun s _ heq => heq ▸ hs.tracked) (fun s _ hs => ⟨newTpl, hs⟩) fun s _ hs => ⟨newTpl, hs⟩
      · exact .skip fun s _ heq => heq ▸ hs₀

/-! ## Runs -/

theorem sound_initialState : Sound initialState := by
  refine ⟨⟨fun l e he => ?_, fun l => nodup_nil, fun l hne => absurd rfl hne, fun l hl => ?_,
    fun e ev hev => ?_, fun e he => ?_, nodup_nil⟩, trivial⟩
  · exact absurd he not_mem_nil
  · simp [initialState] at hl
  · cases hev
  · exact absurd he not_mem_nil

theorem calm_initialState : Calm tplApplication initialState := by
  refine ⟨rfl, by decide, fun l hl => ?_, fun e l => ?_, fun l => List.Pairwise.nil⟩
  · simp [initialState] at hl
  · simp [initialState, pendingSince]

/-- **The discipline of event dispatch.** Along every run of a main program, with any notification
functions: a notification function is called at its level, when nothing is pending above that level
and nothing older is pending at it; `CoreRestoreTpl` returns with nothing pending above the new
level; a queued notification is called at most once, and stays on its queue until it is called or
its event is closed or queued again; an event is on one queue, once; the bit of a queue that is not
empty is set; outside code never has control with something pending above the current level; and the
services give control back after finitely many steps of their own. -/
theorem dispatch_of_run {c : Config EventState Proc Request}
    (h : Command.Reaches procedures ⟨[.call .mainProgram], initialState⟩ c) :
    (∀ e tpl currentTpl before, .notified e tpl currentTpl :: before <:+ c.state.log →
      currentTpl = tpl ∧ ∃ i, pendingSince before e = some (i, tpl) ∧
        ∀ e' j tpl', e' ≠ e → pendingSince before e' = some (j, tpl') →
          tpl' < tpl ∨ tpl' = tpl ∧ i < j) ∧
    (∀ newTpl before, .restored newTpl :: before <:+ c.state.log →
      ∀ e i tpl, pendingSince before e = some (i, tpl) → tpl ≤ newTpl) ∧
    (∀ e tpl after before, c.state.log = after ++ .queued e tpl :: before →
      (∀ m ∈ after, m.restarts e = false) →
      calls e after ≤ 1 ∧
        (Command.Outside c → (calls e after = 0 ↔ e ∈ c.state.eventQueue tpl))) ∧
    (∀ e l l', e ∈ c.state.eventQueue l → e ∈ c.state.eventQueue l' → l = l') ∧
    (∀ l, (c.state.eventQueue l).Nodup) ∧
    (∀ l, c.state.eventQueue l ≠ [] → c.state.eventPending.getLsbD l = true) ∧
    (Command.Outside c → ∀ e l, (e ∈ c.state.eventQueue l ↔
      ∃ i, pendingSince c.state.log e = some (i, l)) ∧
      (e ∈ c.state.eventQueue l → l ≤ c.state.currentTpl)) ∧
    Command.Settles procedures c := by
  have hh : Command.Here procedures Sound (fun s => ∃ tpl, Calm tpl s) c :=
    Triple.reaches keeps_mainProgram sound_initialState ⟨_, calm_initialState⟩
      (fun _ hs => hs.elim) (fun _ hs => hs) h
  obtain ⟨hq, hla⟩ := hh.always
  refine ⟨fun e tpl currentTpl before hsu => hla.suffix hsu,
    fun newTpl before hsu => hla.suffix hsu, fun e tpl after before hl ha => ?_,
    fun e l l' => hq.unique, hq.nodup, hq.set, fun hout e l => ?_, hh.settles⟩
  · have hlaw := hla
    rw [hl] at hlaw
    rcases exactly_once hlaw ha with ⟨hca, hp⟩ | ⟨hca, hp⟩
    · refine ⟨by omega, fun hout => ?_⟩
      obtain ⟨_, hc⟩ := hh.outside hout
      rw [hc.tracked.mem, hl, hp]
      simp [hca]
    · refine ⟨by omega, fun hout => ?_⟩
      obtain ⟨_, hc⟩ := hh.outside hout
      rw [hc.tracked.mem, hl, hp]
      simp [hca]
  · obtain ⟨tpl, hc⟩ := hh.outside hout
    refine ⟨hc.tracked.mem e l, fun hmem => ?_⟩
    rw [hc.currentTpl]
    exact hc.below l (hq.set l (ne_nil_of_mem hmem))

/-- A signal event of a level, at an address. -/
private def sampleEvent (tpl e : ℕ) : Request :=
  .createEvent ⟨evtNotifySignal, tpl, true, none, some e⟩

/-- Two events are signalled at the highest level. The notification of the higher one signals a
third event of its own level before it returns. -/
private def sampleRun : Config EventState Proc Request :=
  Command.exec procedures 400
    [sampleEvent 8 1, sampleEvent 16 2, sampleEvent 16 3, .raiseTpl 31, .signalEvent 1,
      .signalEvent 2, .restoreTpl 4, .raiseTpl 31, .signalEvent 3, .ret, .ret, .ret, .ret, .ret]
    ⟨[.call .mainProgram], initialState⟩

theorem dispatch_of_run_nested :
    sampleRun.state.log.filter (fun m => match m with | .restored _ => false | _ => true) =
      [.notified 1 8 8, .notified 3 16 16, .queued 3 16, .notified 2 16 16, .queued 2 16,
        .queued 1 8] ∧
    sampleRun.state.log.head? = some (.restored 4) ∧
    ∀ newTpl before, .restored newTpl :: before <:+ sampleRun.state.log →
      ∀ e i tpl, pendingSince before e = some (i, tpl) → tpl ≤ newTpl :=
  ⟨by decide +kernel, by decide +kernel, (dispatch_of_run (Command.reaches_exec _ _ _)).2.1⟩

end Edk2.Event
