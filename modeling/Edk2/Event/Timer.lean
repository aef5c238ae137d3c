import Edk2.Base
import Edk2.Lib.Insert
import Edk2.Lib.Loop
import Edk2.Lib.Run

/-!
# Timers

The timer list of `Timer.c`: `CoreSetTimer` puts an event on the list, `CoreTimerTick` advances the
system time, and `CoreCheckTimers` takes the expired events off the list, signals them and puts the
periodic ones back. Due times are 64-bit sums. No notification runs while the timer lock is held
(`TPL_HIGH_LEVEL - 1`), so a signal is an entry of a log here.

## Main results

* `checkStep_inl`, `checkStep_inr`: what one round of `CoreCheckTimers` does
* `exists_returns_checkStep`: the rounds come to an end
* `About.run`: what is known about an event holds along any run that does not set it again
* `timers_of_run`: the service over whole runs
-/

namespace Edk2.Timer

open List Option
open Function (update update_self update_of_ne)

/-! ## The service -/

def evtTimer : BitVec 32 := 0x80000000#32

/-- The values of `EFI_TIMER_DELAY`. -/
def timerCancel : ℕ := 0
def timerPeriodic : ℕ := 1
def timerRelative : ℕ := 2

/-- What `CoreSetTimer` reads of an event besides its timer: whether the signature is that of an
event, and the type. -/
structure EventData (ε : Type*) where
  signatureValid : ε → Bool
  type : ε → BitVec 32

/-- A call of `CoreSignalEvent`: an expired event and the system time, or `mEfiCheckTimerEvent`. -/
inductive Signal (ε : Type*)
  | event (e : ε) (time : ℕ)
  | checkTimers

/-- `mEfiTimerList`, the `Timer` fields of the events, `mEfiSystemTime`, and the signals so far. An
event's link is set if and only if the event is on the list. -/
structure TimerState (ε : Type*) where
  timerList : List ε
  triggerTime : ε → ℕ
  period : ε → ℕ
  systemTime : ℕ
  signals : List (Signal ε)

section Service

variable {ε : Type*} [DecidableEq ε]

/-- `CoreInsertEventTimer`: the event goes in front of the first one with a later trigger time. -/
def coreInsertEventTimer (s : TimerState ε) (event : ε) : TimerState ε :=
  { s with
    timerList := insertBefore (fun event2 => s.triggerTime event2 > s.triggerTime event) event
      s.timerList }

/-- `CoreSignalEvent`. -/
def signal (s : TimerState ε) (x : Signal ε) : TimerState ε := { s with signals := s.signals ++ [x] }

/-- One round of the loop of `CoreCheckTimers`, whose `SystemTime` is read once before it. -/
def checkStep (systemTime : ℕ) (s : TimerState ε) : TimerState ε ⊕ TimerState ε :=
  match s.timerList with
  | [] => .inr s
  | event :: rest =>
    if s.triggerTime event > systemTime then .inr s
    else
      let s := signal { s with timerList := rest } (.event event systemTime)
      if s.period event = 0 then .inl s
      else
        let triggerTime := add64 (s.triggerTime event) (s.period event)
        if triggerTime ≤ systemTime then
          -- late by a whole period: the timer starts from now, and the list is to be checked again
          let s := { s with triggerTime := update s.triggerTime event systemTime }
          .inl (coreInsertEventTimer (signal s .checkTimers) event)
        else
          let s := { s with triggerTime := update s.triggerTime event triggerTime }
          .inl (coreInsertEventTimer s event)

/-- `CoreCheckTimers`, for at most `fuel` rounds. -/
def coreCheckTimers (fuel : ℕ) (s : TimerState ε) : Option (TimerState ε) :=
  loop (checkStep s.systemTime) fuel s

def coreTimerTick (s : TimerState ε) (duration : ℕ) : TimerState ε :=
  let s := { s with systemTime := add64 s.systemTime duration }
  match s.timerList with
  | [] => s
  | event :: _ => if s.triggerTime event ≤ s.systemTime then signal s .checkTimers else s

/-- The delay `CoreSetTimer` goes by: a periodic timer with trigger time zero takes the period that
`gTimer->GetTimerPeriod` stores. -/
def timerDelay (type triggerTime timerPeriod : ℕ) : ℕ :=
  if type = timerPeriodic ∧ triggerTime = 0 then timerPeriod else triggerTime

/-- The first half of `CoreSetTimer`: the event is taken off the list and its times are cleared. -/
def stopTimer (s : TimerState ε) (event : ε) : TimerState ε :=
  { s with
    timerList := if event ∈ s.timerList then s.timerList.erase event else s.timerList
    triggerTime := update s.triggerTime event 0
    period := update s.period event 0 }

/-- The second half: the times are set and the event is put on the list; a timer without delay asks
for a check at once. -/
def startTimer (s : TimerState ε) (event : ε) (type delay : ℕ) : TimerState ε :=
  let s :=
    { s with
      period := if type = timerPeriodic then update s.period event delay else s.period
      triggerTime := update s.triggerTime event (add64 s.systemTime delay) }
  let s := coreInsertEventTimer s event
  if delay = 0 then signal s .checkTimers else s

def coreSetTimer (d : EventData ε) (s : TimerState ε) (userEvent : Option ε)
    (type triggerTime timerPeriod : ℕ) : EfiStatus × TimerState ε :=
  match userEvent with
  | none => (.invalidParameter, s)
  | some event =>
    if ¬ d.signatureValid event then (.invalidParameter, s)
    else if timerRelative < type ∨ d.type event &&& evtTimer = 0 then (.invalidParameter, s)
    else
      let s := stopTimer s event
      if type = timerCancel then (.success, s)
      else (.success, startTimer s event type (timerDelay type triggerTime timerPeriod))

/-! ## Runs -/

/-- A step of the system: a call of `CoreSetTimer` (with what `GetTimerPeriod` would store), a tick,
or a run of `CoreCheckTimers`. -/
inductive TimerInput (ε : Type*)
  | set (userEvent : Option ε) (type triggerTime timerPeriod : ℕ)
  | tick (duration : ℕ)
  | check

/-- A step. A check that never returns is no step. -/
def timerStep (d : EventData ε) (s : TimerState ε) : TimerInput ε → TimerState ε → Prop
  | .set userEvent type triggerTime timerPeriod, s' =>
    s' = (coreSetTimer d s userEvent type triggerTime timerPeriod).2
  | .tick duration, s' => s' = coreTimerTick s duration
  | .check, s' => Yields (fun fuel => coreCheckTimers fuel s) s'

/-- The next times of the timers that are expired at `t` do not wrap: neither the one a period
later, nor, for a timer that is late by a whole period, the one a period from now. -/
def Fits (t : ℕ) (s : TimerState ε) : Prop :=
  ∀ e ∈ s.timerList, s.triggerTime e ≤ t →
    s.triggerTime e + s.period e < 2 ^ 64 ∧
      (s.triggerTime e + s.period e ≤ t → t + s.period e < 2 ^ 64)

/-- **No sum of times wraps**: neither the time of a timer that is set, nor the system time after a
tick, nor the next times of the expired timers at a check. -/
def NoWrap (s : TimerState ε) : TimerInput ε → Prop
  | .set _ type triggerTime timerPeriod =>
    type ≠ timerCancel → s.systemTime + timerDelay type triggerTime timerPeriod < 2 ^ 64
  | .tick duration => s.systemTime + duration < 2 ^ 64
  | .check => Fits s.systemTime s

/-- Before any timer is set. -/
def timerInit : TimerState ε := ⟨[], fun _ => 0, fun _ => 0, 0, []⟩

/-- The input sets the timer of `e`, or cancels it. -/
def Sets (e : ε) : TimerInput ε → Prop
  | .set userEvent type _ _ => userEvent = some e ∧ type ≤ timerRelative
  | _ => False

/-- The times at which `e` was signalled. -/
def signalTimes (e : ε) (s : TimerState ε) : List ℕ :=
  s.signals.filterMap fun
    | .event e' time => if e' = e then some time else none
    | .checkTimers => none

/-- **The list is in order**: no event twice, the trigger times ascending. -/
structure Timed (s : TimerState ε) : Prop where
  nodup : s.timerList.Nodup
  sorted : s.timerList.Pairwise fun a b => s.triggerTime a ≤ s.triggerTime b

end Service

/-! ## One round -/

section Round

variable {ε : Type*} [DecidableEq ε] {t : ℕ} {s s' : TimerState ε} {e e' : ε} {rest : List ε}

@[simp] theorem signalTimes_signal_event (e e' : ε) (time : ℕ) (s : TimerState ε) :
    signalTimes e' (signal s (.event e time))
      = signalTimes e' s ++ if e = e' then [time] else [] := by
  unfold signalTimes signal
  by_cases h : e = e' <;> simp [h]

@[simp] theorem signalTimes_signal_checkTimers (e : ε) (s : TimerState ε) :
    signalTimes e (signal s .checkTimers) = signalTimes e s := by
  simp [signalTimes, signal]

/-- What a round does with the event `e` at the head of the list: it is signalled, and put back with
the next trigger time if it is periodic. -/
structure Round (t : ℕ) (s : TimerState ε) (e : ε) (rest : List ε) (s' : TimerState ε) : Prop where
  timerList_eq : s.timerList = e :: rest
  expired : s.triggerTime e ≤ t
  systemTime_eq : s'.systemTime = s.systemTime
  period_eq : s'.period = s.period
  signalTimes_eq : ∀ e', signalTimes e' s' = signalTimes e' s ++ if e = e' then [t] else []
  next :
    (s.period e = 0 ∧ s'.timerList = rest ∧ s'.triggerTime = s.triggerTime) ∨
    (s.period e ≠ 0 ∧ ∃ next,
      (add64 (s.triggerTime e) (s.period e) ≤ t ∧ next = t ∨
        t < next ∧ next = add64 (s.triggerTime e) (s.period e)) ∧
      s'.triggerTime = update s.triggerTime e next ∧
      s'.timerList = insertBefore (fun e' => s'.triggerTime e' > s'.triggerTime e) e rest)

theorem checkStep_inl (h : checkStep t s = .inl s') : ∃ e rest, Round t s e rest s' := by
  unfold checkStep at h
  split at h
  · cases h
  · rename_i e rest hli
    refine ⟨e, rest, ?_⟩
    split at h
    · cases h
    · rename_i hdue
      have he : s.triggerTime e ≤ t := Nat.le_of_not_lt hdue
      dsimp only at h
      split at h
      · rename_i hp
        cases h
        exact ⟨hli, he, rfl, rfl, fun e' => signalTimes_signal_event e e' t _,
          .inl ⟨hp, rfl, rfl⟩⟩
      · rename_i hp
        split at h
        · rename_i hla
          cases h
          refine ⟨hli, he, rfl, rfl, fun e' => ?_, .inr ⟨hp, t, .inl ⟨hla, rfl⟩, rfl, rfl⟩⟩
          exact (signalTimes_signal_checkTimers e' _).trans (signalTimes_signal_event e e' t s)
        · rename_i hl
          cases h
          refine ⟨hli, he, rfl, rfl, fun e' => ?_,
            .inr ⟨hp, _, .inr ⟨Nat.lt_of_not_le hl, rfl⟩, rfl, rfl⟩⟩
          exact signalTimes_signal_event e e' t s

/-- The loop ends with the list as it is, when its head is not expired. -/
theorem checkStep_inr (h : checkStep t s = .inr s') :
    s' = s ∧ ∀ e rest, s.timerList = e :: rest → t < s.triggerTime e := by
  unfold checkStep at h
  split at h
  · rename_i hl
    cases h
    exact ⟨rfl, fun e rest h => by rw [hl] at h; cases h⟩
  · rename_i e rest hl
    split at h
    · rename_i hdue
      cases h
      refine ⟨rfl, fun e' rest' h => ?_⟩
      rw [hl] at h
      cases h
      exact hdue
    · dsimp only at h
      split at h
      · cases h
      · split at h <;> cases h

omit [DecidableEq ε] in
theorem timed_of_insert (hno : rest.Nodup)
    (hs : rest.Pairwise fun a b => s.triggerTime a ≤ s.triggerTime b) (hn : e ∉ rest)
    (ht : ∀ e', e' ≠ e → s'.triggerTime e' = s.triggerTime e')
    (hl : s'.timerList = insertBefore (fun e' => s'.triggerTime e' > s'.triggerTime e) e rest) :
    Timed s' := by
  constructor
  · rw [hl, (insertBefore_perm _ _ _).nodup_iff]
    exact nodup_cons.mpr ⟨hn, hno⟩
  · rw [hl]
    refine pairwise_insertBefore (fun _ _ _ => Nat.le_trans) ?_ ?_ ?_
    · refine hs.imp_of_mem fun {a b} ha hb hab => ?_
      rwa [ht a (ne_of_mem_of_not_mem ha hn), ht b (ne_of_mem_of_not_mem hb hn)]
    · intro b _ hb
      exact Nat.le_of_lt (of_decide_eq_true hb)
    · intro b _ hb
      exact Nat.le_of_not_lt (of_decide_eq_false hb)

namespace Round

variable (h : Round t s e rest s')
include h

theorem mem_iff : e' ≠ e → (e' ∈ s'.timerList ↔ e' ∈ s.timerList) := by
  intro hne
  rw [h.timerList_eq, mem_cons, or_iff_right hne]
  rcases h.next with ⟨-, hl, -⟩ | ⟨-, next, -, -, hl⟩
  · rw [hl]
  · rw [hl, mem_insertBefore, or_iff_right hne]

theorem triggerTime_of_ne (hne : e' ≠ e) : s'.triggerTime e' = s.triggerTime e' := by
  rcases h.next with ⟨-, -, ht⟩ | ⟨-, next, -, ht, -⟩
  · rw [ht]
  · rw [ht, update_of_ne hne]

theorem timed (hs : Timed s) : Timed s' := by
  obtain ⟨hn, hso⟩ := hs
  rw [h.timerList_eq] at hn hso
  obtain ⟨hno, hn⟩ := nodup_cons.mp hn
  have hr := (pairwise_cons.mp hso).2
  rcases h.next with ⟨-, hl, ht⟩ | ⟨-, next, -, -, hl⟩
  · constructor
    · rwa [hl]
    · rwa [hl, ht]
  · exact timed_of_insert hn hr hno (fun _ => h.triggerTime_of_ne) hl

theorem fits (hs : Fits t s) : Fits t s' := by
  intro e' he' hle
  rw [h.period_eq]
  by_cases hne : e' = e
  · subst hne
    have hmem : e' ∈ s.timerList := by rw [h.timerList_eq]; exact mem_cons_self
    obtain ⟨hsu, hl⟩ := hs e' hmem h.expired
    rcases h.next with ⟨-, -, ht⟩ | ⟨hp, next, hnext, ht, -⟩
    · rw [ht]
      exact ⟨hsu, hl⟩
    · rw [add64_of_lt hsu] at hnext
      rw [ht, update_self] at hle ⊢
      rcases hnext with ⟨hle', rfl⟩ | ⟨hlt, -⟩
      · exact ⟨hl hle', fun _ => hl hle'⟩
      · omega
  · rw [h.triggerTime_of_ne hne] at hle ⊢
    exact hs e' ((h.mem_iff hne).mp he') hle

end Round

/-! ## The rounds come to an end -/

/-- How often an event can still be signalled in a check at `t`: twice if it is late by a whole
period. -/
def weight (t : ℕ) (s : TimerState ε) (e : ε) : ℕ :=
  if s.triggerTime e ≤ t then if s.triggerTime e + s.period e ≤ t then 2 else 1 else 0

/-- How many rounds a check at `t` can still take. -/
def rounds (t : ℕ) (s : TimerState ε) : ℕ := (s.timerList.map (weight t s)).sum

theorem Round.rounds_lt (h : Round t s e rest s') (hs : Timed s) (hf : Fits t s) :
    rounds t s' < rounds t s := by
  have hn : e ∉ rest := by
    have := hs.nodup
    rw [h.timerList_eq] at this
    exact (nodup_cons.mp this).1
  have ho : rest.map (weight t s') = rest.map (weight t s) := by
    refine map_congr_left fun e' he' => ?_
    unfold weight
    rw [h.triggerTime_of_ne (ne_of_mem_of_not_mem he' hn), h.period_eq]
  have hb : rounds t s = weight t s e + (rest.map (weight t s)).sum := by
    rw [rounds, h.timerList_eq, map_cons, sum_cons]
  have hh : weight t s e = if s.triggerTime e + s.period e ≤ t then 2 else 1 := if_pos h.expired
  rcases h.next with ⟨-, hl, -⟩ | ⟨hp, next, hnext, ht, hl⟩
  · rw [hb, rounds, hl, ho, hh]
    split <;> omega
  · have hmem : e ∈ s.timerList := by rw [h.timerList_eq]; exact mem_cons_self
    rw [add64_of_lt (hf e hmem h.expired).1] at hnext
    have haf : rounds t s' = weight t s' e + (rest.map (weight t s)).sum := by
      rw [rounds, hl, ((insertBefore_perm _ _ _).map _).sum_nat, map_cons, sum_cons,
        ho]
    have ha : weight t s' e < weight t s e := by
      rw [hh]
      unfold weight
      rw [h.period_eq, ht, update_self]
      rcases hnext with ⟨hlat, rfl⟩ | ⟨hla, rfl⟩
      · rw [if_pos hlat, if_pos (Nat.le_refl _), if_neg (by omega)]
        exact Nat.one_lt_two
      · rw [if_neg (Nat.not_le.mpr hla), if_neg (Nat.not_le.mpr hla)]
        exact Nat.one_pos
    omega

/-- **A check comes to an end** if no next time wraps. -/
theorem exists_returns_checkStep (hs : Timed s) (hf : Fits t s) :
    ∃ s', Returns (checkStep t) s s' := by
  refine exists_returns (rounds t) fun s₁ s₂ hre hst => ?_
  obtain ⟨e, rest, hr⟩ := checkStep_inl hst
  have hin : Timed s₁ ∧ Fits t s₁ := by
    refine hre.invariant (P := fun s => Timed s ∧ Fits t s) ?_ ⟨hs, hf⟩
    rintro s s' ⟨hs, hf⟩ hst
    obtain ⟨e, rest, hr⟩ := checkStep_inl hst
    exact ⟨hr.timed hs, hr.fits hf⟩
  exact hr.rounds_lt hin.1 hin.2

theorem returns_checkStep (hs : Timed s) (h : Returns (checkStep t) s s') :
    Timed s' ∧ s'.systemTime = s.systemTime ∧ ∀ e ∈ s'.timerList, t < s'.triggerTime e := by
  obtain ⟨s₁, hrea, hre⟩ := h.exists_reaches
  obtain ⟨rfl, hh⟩ := checkStep_inr hre
  obtain ⟨hs', ht⟩ : Timed s' ∧ s'.systemTime = s.systemTime := by
    refine hrea.invariant (P := fun s₁ => Timed s₁ ∧ s₁.systemTime = s.systemTime) ?_ ⟨hs, rfl⟩
    rintro s₁ s₂ ⟨hs₁, ht⟩ hst
    obtain ⟨e, rest, hr⟩ := checkStep_inl hst
    exact ⟨hr.timed hs₁, hr.systemTime_eq.trans ht⟩
  refine ⟨hs', ht, fun e he => ?_⟩
  cases hl : s'.timerList with
  | nil =>
    rw [hl] at he
    cases he
  | cons e₀ rest =>
    have hlt := hh e₀ rest hl
    have hso := hs'.sorted
    rw [hl] at he hso
    rcases mem_cons.mp he with rfl | he
    · exact hlt
    · exact Nat.lt_of_lt_of_le hlt ((pairwise_cons.mp hso).1 e he)

end Round

/-! ## What a call of `CoreSetTimer` does -/

variable {delay since p : ℕ} {old new : List ℕ}

section Set

variable {ε : Type*} [DecidableEq ε] {s s' : TimerState ε} {e e' : ε} {type : ℕ}

/-- The effect of a call that succeeds: the timer of `e` is stopped, and started with the delay
unless it is cancelled. Nothing else changes. -/
structure SetSpec (s : TimerState ε) (e : ε) (type delay : ℕ) (s' : TimerState ε) : Prop where
  systemTime_eq : s'.systemTime = s.systemTime
  signalTimes_eq : ∀ e', signalTimes e' s' = signalTimes e' s
  mem_iff : ∀ e', e' ≠ e → (e' ∈ s'.timerList ↔ e' ∈ s.timerList)
  triggerTime_eq : ∀ e', e' ≠ e → s'.triggerTime e' = s.triggerTime e'
  period_eq : ∀ e', e' ≠ e → s'.period e' = s.period e'
  timed : Timed s → Timed s'
  cancelled : type = timerCancel → Timed s → e ∉ s'.timerList
  started : type ≠ timerCancel → e ∈ s'.timerList ∧
    s'.triggerTime e = add64 s.systemTime delay ∧
    s'.period e = if type = timerPeriodic then delay else 0

theorem stopTimer_timerList (s : TimerState ε) (e : ε) :
    (stopTimer s e).timerList = s.timerList.erase e := by
  unfold stopTimer
  split
  · rfl
  · rw [erase_of_not_mem]
    assumption

theorem not_mem_stopTimer (hs : Timed s) : e ∉ (stopTimer s e).timerList := by
  rw [stopTimer_timerList]
  exact hs.nodup.not_mem_erase

theorem timed_stopTimer (hs : Timed s) : Timed (stopTimer s e) := by
  have hn := not_mem_stopTimer (e := e) hs
  constructor
  · rw [stopTimer_timerList]
    exact hs.nodup.erase e
  · have hsu : (stopTimer s e).timerList.Sublist s.timerList := by
      rw [stopTimer_timerList]
      exact erase_sublist
    refine (hs.sorted.sublist hsu).imp_of_mem fun {a b} ha hb hab => ?_
    unfold stopTimer
    dsimp only
    rwa [update_of_ne (ne_of_mem_of_not_mem ha hn),
      update_of_ne (ne_of_mem_of_not_mem hb hn)]

theorem setSpec_stopTimer (hc : type = timerCancel) :
    SetSpec s e type delay (stopTimer s e) where
  systemTime_eq := rfl
  signalTimes_eq _ := rfl
  mem_iff e' hne := by rw [stopTimer_timerList, mem_erase_of_ne hne]
  triggerTime_eq e' hne := update_of_ne hne _ _
  period_eq e' hne := update_of_ne hne _ _
  timed hs := timed_stopTimer hs
  cancelled _ hs := not_mem_stopTimer hs
  started h := absurd hc h

theorem setSpec_startTimer (hst : type ≠ timerCancel) :
    SetSpec s e type delay (startTimer (stopTimer s e) e type delay) := by
  obtain ⟨s₁, hs₁, hl, htr, hp, ht, hsi⟩ :
      ∃ s₁, startTimer (stopTimer s e) e type delay = s₁ ∧
        s₁.timerList = insertBefore (fun e' => s₁.triggerTime e' > s₁.triggerTime e) e
          (stopTimer s e).timerList ∧
        s₁.triggerTime = update (stopTimer s e).triggerTime e (add64 s.systemTime delay) ∧
        s₁.period = (if type = timerPeriodic then update (stopTimer s e).period e delay
          else (stopTimer s e).period) ∧
        s₁.systemTime = s.systemTime ∧ ∀ e', signalTimes e' s₁ = signalTimes e' s := by
    refine ⟨_, rfl, ?_⟩
    unfold startTimer
    dsimp only
    split
    · exact ⟨rfl, rfl, rfl, rfl, fun e' => signalTimes_signal_checkTimers e' _⟩
    · exact ⟨rfl, rfl, rfl, rfl, fun e' => rfl⟩
  rw [hs₁]
  have ho : ∀ e', e' ≠ e → s₁.triggerTime e' = (stopTimer s e).triggerTime e' := by
    intro e' hne
    rw [htr, update_of_ne hne]
  exact {
    systemTime_eq := ht
    signalTimes_eq := hsi
    mem_iff := fun e' hne => by
      rw [hl, mem_insertBefore, or_iff_right hne, stopTimer_timerList, mem_erase_of_ne hne]
    triggerTime_eq := fun e' hne => (ho e' hne).trans (update_of_ne hne _ _)
    period_eq := fun e' hne => by
      rw [hp]
      split
      · rw [update_of_ne hne]
        exact update_of_ne hne _ _
      · exact update_of_ne hne _ _
    timed := fun hs =>
      timed_of_insert (timed_stopTimer hs).nodup (timed_stopTimer hs).sorted (not_mem_stopTimer hs)
        ho hl
    cancelled := fun h => absurd h hst
    started := fun _ => by
      refine ⟨?_, ?_, ?_⟩
      · rw [hl]
        exact mem_insertBefore.mpr (.inl rfl)
      · rw [htr, update_self]
      · rw [hp]
        split
        · rw [update_self]
        · exact update_self _ _ _ }

/-- **What `CoreSetTimer` does**: a call is refused and changes nothing, or has the effect of
`SetSpec`. -/
theorem coreSetTimer_cases (d : EventData ε) (s : TimerState ε) (userEvent : Option ε)
    (type triggerTime timerPeriod : ℕ) :
    coreSetTimer d s userEvent type triggerTime timerPeriod = (.invalidParameter, s) ∨
    ∃ e s', userEvent = some e ∧ type ≤ timerRelative ∧
      coreSetTimer d s userEvent type triggerTime timerPeriod = (.success, s') ∧
      SetSpec s e type (timerDelay type triggerTime timerPeriod) s' := by
  cases userEvent with
  | none => exact .inl rfl
  | some e =>
    unfold coreSetTimer
    dsimp only
    split
    · exact .inl rfl
    split
    · exact .inl rfl
    rename_i hv
    have ht : type ≤ timerRelative := Nat.le_of_not_lt (not_or.mp hv).1
    refine .inr ⟨e, ?_⟩
    split
    · rename_i hc
      exact ⟨_, rfl, ht, rfl, setSpec_stopTimer hc⟩
    · rename_i hs
      exact ⟨_, rfl, ht, rfl, setSpec_startTimer hs⟩

end Set

/-! ## One event along a run -/

section Track

variable {ε : Type*} [DecidableEq ε] {d : EventData ε} {s s' : TimerState ε} {e e' : ε}
  {i : TimerInput ε}

/-- The step keeps what it does not set as it is, and time does not go back. -/
structure Unset (e : ε) (s s' : TimerState ε) : Prop where
  mem_iff : e ∈ s'.timerList ↔ e ∈ s.timerList
  triggerTime_eq : s'.triggerTime e = s.triggerTime e
  period_eq : s'.period e = s.period e
  signalTimes_eq : signalTimes e s' = signalTimes e s
  systemTime_le : s.systemTime ≤ s'.systemTime

/-- A property of the state that speaks about `e` only: it survives what leaves `e` alone, and a
round for `e`. -/
structure About (e : ε) (P : TimerState ε → Prop) : Prop where
  unset : ∀ {s s'}, Unset e s s' → P s → P s'
  round : ∀ {s s' rest}, Timed s → Fits s.systemTime s → Round s.systemTime s e rest s' → P s → P s'

theorem unset_coreTimerTick {duration : ℕ} (h : s.systemTime + duration < 2 ^ 64) :
    Unset e s (coreTimerTick s duration) := by
  have ht : s.systemTime ≤ add64 s.systemTime duration := by
    rw [add64_of_lt h]
    exact Nat.le_add_right _ _
  unfold coreTimerTick
  dsimp only
  split
  · exact ⟨Iff.rfl, rfl, rfl, rfl, ht⟩
  · split
    · exact ⟨Iff.rfl, rfl, rfl, signalTimes_signal_checkTimers e _, ht⟩
    · exact ⟨Iff.rfl, rfl, rfl, rfl, ht⟩

theorem Round.unset {t : ℕ} {rest : List ε} (h : Round t s e rest s') (hne : e' ≠ e) :
    Unset e' s s' where
  mem_iff := h.mem_iff hne
  triggerTime_eq := h.triggerTime_of_ne hne
  period_eq := by rw [h.period_eq]
  signalTimes_eq := by rw [h.signalTimes_eq, if_neg (Ne.symm hne), append_nil]
  systemTime_le := Nat.le_of_eq h.systemTime_eq.symm

theorem SetSpec.unset {type : ℕ} (h : SetSpec s e type delay s') (hne : e' ≠ e) :
    Unset e' s s' where
  mem_iff := h.mem_iff e' hne
  triggerTime_eq := h.triggerTime_eq e' hne
  period_eq := h.period_eq e' hne
  signalTimes_eq := h.signalTimes_eq e'
  systemTime_le := Nat.le_of_eq h.systemTime_eq.symm

theorem About.check {P : TimerState ε → Prop} (hP : About e P) (hs : Timed s)
    (hf : Fits s.systemTime s) (h : Returns (checkStep s.systemTime) s s') (hs₀ : P s) :
    P s' := by
  obtain ⟨s₁, hrea, hre⟩ := h.exists_reaches
  obtain ⟨rfl, -⟩ := checkStep_inr hre
  have hin := hrea.invariant
    (P := fun s₁ => Timed s₁ ∧ Fits s.systemTime s₁ ∧ P s₁ ∧ s₁.systemTime = s.systemTime) ?_
    ⟨hs, hf, hs₀, rfl⟩
  · exact hin.2.2.1
  rintro s₁ s₂ ⟨hs₁, hf₁, hP₁, ht⟩ hst
  obtain ⟨e', rest, hr⟩ := checkStep_inl hst
  refine ⟨hr.timed hs₁, hr.fits hf₁, ?_, hr.systemTime_eq.trans ht⟩
  by_cases hne : e = e'
  · subst hne
    rw [← ht] at hr hf₁
    exact hP.round hs₁ hf₁ hr hP₁
  · exact hP.unset (hr.unset hne) hP₁

/-- **What a step keeps**: the order of the list, and what is about an event it does not set. -/
theorem timerStep_keeps (hs : Timed s) (hw : NoWrap s i) (h : timerStep d s i s') :
    Timed s' ∧ ∀ e P, About e P → ¬ Sets e i → P s → P s' := by
  cases i with
  | tick duration =>
    cases h
    have hu := fun e : ε => unset_coreTimerTick (e := e) hw
    refine ⟨?_, fun e P hP _ => hP.unset (hu e)⟩
    unfold coreTimerTick
    dsimp only
    split
    · exact ⟨hs.nodup, hs.sorted⟩
    · split <;> exact ⟨hs.nodup, hs.sorted⟩
  | check =>
    exact ⟨(returns_checkStep hs h).1, fun e P hP _ hP₀ => hP.check hs hw h hP₀⟩
  | set userEvent type triggerTime timerPeriod =>
    rcases coreSetTimer_cases d s userEvent type triggerTime timerPeriod with
      hr | ⟨e', s₁, rfl, ht, hset, hsp⟩
    · have : s' = s := h.trans (congrArg Prod.snd hr)
      rw [this]
      exact ⟨hs, fun _ _ _ _ => id⟩
    · have : s' = s₁ := h.trans (congrArg Prod.snd hset)
      rw [this]
      refine ⟨hsp.timed hs, fun e P hP hse hP₀ => hP.unset (hsp.unset ?_) hP₀⟩
      rintro rfl
      exact hse ⟨rfl, ht⟩

theorem about_idle (e : ε) (old : List ℕ) :
    About e fun s => e ∉ s.timerList ∧ signalTimes e s = old where
  unset := by
    rintro s s' hu ⟨hn, hs⟩
    exact ⟨fun hmem => hn (hu.mem_iff.mp hmem), hu.signalTimes_eq.trans hs⟩
  round := by
    rintro s s' rest _ _ hr ⟨hn, _⟩
    exact absurd (hr.timerList_eq ▸ mem_cons_self) hn

/-- **What is known about an event set at `since` with a delay and a period** `p` (zero if it is not
periodic), when it has been signalled at the times `new` since then, after those of `old`: it was
not signalled before it was due; one more signal takes one more period; and it is on the list until
it has been signalled, or for ever if it is periodic. -/
structure Tracks (e : ε) (since delay p : ℕ) (old new : List ℕ) (s : TimerState ε) : Prop where
  signalTimes_eq : signalTimes e s = old ++ new
  since_le : since ≤ s.systemTime
  due_le : ∀ t ∈ new, since + delay ≤ t
  elapsed : new ≠ [] → since + delay + (new.length - 1) * p ≤ s.systemTime
  place :
    (e ∈ s.timerList ∧ s.period e = p ∧ since + delay + new.length * p ≤ s.triggerTime e ∧
      (new = [] → s.triggerTime e = since + delay) ∧ (p = 0 → new = [])) ∨
    (e ∉ s.timerList ∧ p = 0 ∧ new.length = 1)

theorem Tracks.round {rest : List ε}
    (h : Tracks e since delay p old new s) (hs : Timed s) (hf : Fits s.systemTime s)
    (hr : Round s.systemTime s e rest s') :
    Tracks e since delay p old (new ++ [s.systemTime]) s' := by
  have hmem : e ∈ s.timerList := hr.timerList_eq ▸ mem_cons_self
  rcases h.place with ⟨-, hpe, hla, -, ho⟩ | ⟨hn, -⟩
  case inr => exact absurd hmem hn
  have hdue : since + delay + new.length * p ≤ s.systemTime :=
    Nat.le_trans hla hr.expired
  have hle : (new ++ [s.systemTime]).length = new.length + 1 := by
    rw [length_append, length_singleton]
  have hne : new ++ [s.systemTime] ≠ [] := append_ne_nil_of_right_ne_nil _ (cons_ne_nil _ _)
  refine ⟨?_, ?_, ?_, ?_, ?_⟩
  · rw [hr.signalTimes_eq, if_pos rfl, h.signalTimes_eq, append_assoc]
  · rw [hr.systemTime_eq]
    exact h.since_le
  · intro t ht
    rcases mem_append.mp ht with ht | ht
    · exact h.due_le t ht
    · rw [mem_singleton.mp ht]
      exact Nat.le_trans (Nat.le_add_right _ _) hdue
  · intro _
    rw [hle, hr.systemTime_eq]
    exact hdue
  · rw [hle]
    rcases hr.next with ⟨hz, hl, -⟩ | ⟨hp, next, hnext, htr, hl⟩
    · refine .inr ⟨?_, hpe.symm.trans hz, ?_⟩
      · have := hs.nodup
        rw [hr.timerList_eq] at this
        rw [hl]
        exact (nodup_cons.mp this).1
      · rw [ho (hpe.symm.trans hz)]
        rfl
    · refine .inl ⟨?_, ?_, ?_, fun h => absurd h hne, ?_⟩
      · rw [hl]
        exact mem_insertBefore.mpr (.inl rfl)
      · rw [hr.period_eq, hpe]
      · -- the next time is at one period after the last one
        rw [htr, update_self, Nat.succ_mul]
        rw [add64_of_lt (hf e hmem hr.expired).1] at hnext
        omega
      · intro hz
        exact absurd (hpe.trans hz) hp

theorem about_tracks (e : ε) (since delay p : ℕ) (old : List ℕ) :
    About e fun s => ∃ new, Tracks e since delay p old new s where
  unset := by
    rintro s s' hu ⟨new, h⟩
    refine ⟨new, ?_, Nat.le_trans h.since_le hu.systemTime_le, h.due_le,
      fun hne => Nat.le_trans (h.elapsed hne) hu.systemTime_le, ?_⟩
    · rw [hu.signalTimes_eq, h.signalTimes_eq]
    · rw [hu.mem_iff, hu.triggerTime_eq, hu.period_eq]
      exact h.place
  round := by
    rintro s s' rest hs hf hr ⟨new, h⟩
    exact ⟨_, h.round hs hf hr⟩

end Track

/-! ## Whole runs -/

section Runs

variable {ε : Type*} [DecidableEq ε] {d : EventData ε} {s s' : TimerState ε} {e : ε}
  {is : List (TimerInput ε)}

/-- **Steps without wrapping times.** -/
def SoundStep (d : EventData ε) (s : TimerState ε) (i : TimerInput ε) (s' : TimerState ε) : Prop :=
  NoWrap s i ∧ timerStep d s i s'

theorem timed_of_run (h : Run (SoundStep d) s is s') (hs : Timed s) : Timed s' :=
  h.invariant (fun _ _ _ hs hst => (timerStep_keeps hs hst.1 hst.2).1) hs

/-- What is about an event holds along every run that does not set it. -/
theorem About.run {P : TimerState ε → Prop} (hP : About e P) (h : Run (SoundStep d) s is s')
    (hs : Timed s) (hse : ∀ i ∈ is, ¬ Sets e i) (hP₀ : P s) : P s' := by
  have hin := (h.restrict hse).invariant (P := fun s => Timed s ∧ P s) ?_ ⟨hs, hP₀⟩
  · exact hin.2
  rintro s i s' ⟨hs, hP₀⟩ ⟨hset, hw, hst⟩
  obtain ⟨hs', hk⟩ := timerStep_keeps hs hw hst
  exact ⟨hs', hk e P hP hset hP₀⟩

theorem Tracks.signalled
    (h : Tracks e since delay p old new s')
    (hc : ∀ e ∈ s'.timerList, s'.systemTime < s'.triggerTime e)
    (hdue : since + delay ≤ s'.systemTime) : new ≠ [] := by
  rintro rfl
  rcases h.place with ⟨hmem, -, -, ht, -⟩ | ⟨-, -, hl⟩
  · have := hc e hmem
    rw [ht rfl] at this
    omega
  · cases hl

/-- **The timer service.** Along every run whose times do not wrap the list is in order, and a
further check comes to an end. From a call that sets a timer on, until a call sets the same timer
again: if it cancelled the timer, the event is not signalled; otherwise the event is not signalled
before the delay has passed, has been signalled when a check has returned at a later time, at most
once if the timer is relative, and at most once for each period that has passed if it is periodic.
-/
theorem timers_of_run (h : Run (SoundStep d) timerInit is s) :
    s.timerList.Pairwise (fun a b => s.triggerTime a ≤ s.triggerTime b) ∧
    (NoWrap s .check → ∃ s', timerStep d s .check s') ∧
    ∀ (e : ε) (type triggerTime timerPeriod delay : ℕ) (s₁ : TimerState ε),
      delay = timerDelay type triggerTime timerPeriod →
      NoWrap s (.set (some e) type triggerTime timerPeriod) →
      coreSetTimer d s (some e) type triggerTime timerPeriod = (.success, s₁) →
      ∀ (js : List (TimerInput ε)) (s₂ : TimerState ε), Run (SoundStep d) s₁ js s₂ →
        (∀ i ∈ js, ¬ Sets e i) →
        ∃ new, signalTimes e s₂ = signalTimes e s ++ new ∧
          (type = timerCancel → new = []) ∧
          (type ≠ timerCancel →
            (∀ t ∈ new, s.systemTime + delay ≤ t) ∧
            (∀ ks, js = ks ++ [.check] → s.systemTime + delay ≤ s₂.systemTime → new ≠ []) ∧
            (type = timerRelative → new.length ≤ 1) ∧
            (type = timerPeriodic → s.systemTime + new.length * delay ≤ s₂.systemTime)) := by
  have hs : Timed s := timed_of_run h ⟨nodup_nil, List.Pairwise.nil⟩
  refine ⟨hs.sorted, fun hf => exists_returns_checkStep hs hf, ?_⟩
  rintro e type triggerTime timerPeriod delay s₁ rfl hw hset js s₂ hr hse
  obtain ⟨e', s', heq, -, hs', hsp⟩ :=
    (coreSetTimer_cases d s (some e) type triggerTime timerPeriod).resolve_left
      fun hre => by rw [hset] at hre; cases hre
  cases heq
  obtain rfl : s₁ = s' := congrArg Prod.snd (hset.symm.trans hs')
  by_cases hc : type = timerCancel
  · refine ⟨[], ?_, fun _ => rfl, fun hst => absurd hc hst⟩
    have hi := (about_idle e (signalTimes e s)).run hr (hsp.timed hs) hse
      ⟨hsp.cancelled hc hs, hsp.signalTimes_eq e⟩
    rw [hi.2, append_nil]
  · obtain ⟨hmem, htr, hp⟩ := hsp.started hc
    rw [add64_of_lt (hw hc)] at htr
    have hst : Tracks e s.systemTime (timerDelay type triggerTime timerPeriod)
        (if type = timerPeriodic then timerDelay type triggerTime timerPeriod else 0)
        (signalTimes e s) [] s₁ := by
      refine ⟨?_, Nat.le_of_eq hsp.systemTime_eq.symm, fun t ht => absurd ht not_mem_nil,
        fun hne => absurd rfl hne, .inl ⟨hmem, hp, ?_, fun _ => htr, fun _ => rfl⟩⟩
      · rw [hsp.signalTimes_eq, append_nil]
      · exact Nat.le_of_eq (by rw [htr, length_nil, Nat.zero_mul, Nat.add_zero])
    obtain ⟨new, ht⟩ := (about_tracks e s.systemTime _ _ (signalTimes e s)).run hr
      (hsp.timed hs) hse ⟨[], hst⟩
    refine ⟨new, ht.signalTimes_eq, fun h => absurd h hc,
      fun _ => ⟨ht.due_le, ?_, ?_, ?_⟩⟩
    · rintro ks rfl hdue
      -- nothing on the list is expired after the check at the end
      obtain ⟨s₃, hr, -, hch⟩ := hr.of_concat
      obtain ⟨-, hti, hl⟩ := returns_checkStep (timed_of_run hr (hsp.timed hs)) hch
      exact ht.signalled (hti ▸ hl) hdue
    · rintro rfl
      rcases ht.place with ⟨-, -, -, -, hon⟩ | ⟨-, -, ho⟩
      · rw [hon rfl]
        exact Nat.zero_le _
      · exact Nat.le_of_eq ho
    · rintro rfl
      by_cases hnew : new = []
      · rw [hnew, length_nil, Nat.zero_mul]
        exact ht.since_le
      · have he := ht.elapsed hnew
        have hl : new.length = (new.length - 1) + 1 := by
          have := length_pos_iff.mpr hnew
          omega
        rw [if_pos rfl] at he
        rw [hl, Nat.succ_mul]
        omega

end Runs

/-- Two events that may carry timers. -/
private def sampleEvents : EventData Bool := ⟨fun _ => true, fun _ => evtTimer⟩

/-- A relative timer of 10 units, checked when they have passed. -/
theorem timers_of_run_relative :
    ∃ s₁ s₂ : TimerState Bool,
      coreSetTimer sampleEvents timerInit (some true) timerRelative 10 0 = (.success, s₁) ∧
      Run (SoundStep sampleEvents) s₁ [.tick 10, .check] s₂ ∧ (signalTimes true s₂).length = 1 := by
  obtain ⟨-, -, hse⟩ := timers_of_run (d := sampleEvents) (.nil timerInit)
  let s₁ : TimerState Bool := startTimer (stopTimer timerInit true) true timerRelative 10
  have hti : Timed s₁ :=
    (setSpec_startTimer (by decide)).timed ⟨nodup_nil, List.Pairwise.nil⟩
  have ht : SoundStep sampleEvents s₁ (.tick 10) (coreTimerTick s₁ 10) :=
    ⟨(by decide : 0 + 10 < 2 ^ 64), rfl⟩
  have htim : (coreTimerTick s₁ 10).systemTime = 10 := by
    unfold coreTimerTick
    dsimp only
    split
    · exact add64_of_lt (by decide)
    · split <;> exact add64_of_lt (by decide)
  have hf : NoWrap (coreTimerTick s₁ 10) .check := by
    intro e _ hle
    have hp : (coreTimerTick s₁ 10).period e = 0 := by
      rw [(unset_coreTimerTick ht.1).period_eq]
      cases e <;> rfl
    omega
  obtain ⟨s₂, hs₂⟩ := exists_returns_checkStep (timerStep_keeps hti ht.1 ht.2).1 hf
  have hr : Run (SoundStep sampleEvents) s₁ [.tick 10, .check] s₂ :=
    .cons ht (.cons ⟨hf, hs₂⟩ (.nil s₂))
  obtain ⟨new, hsi, -, hs⟩ := hse true timerRelative 10 0 10 s₁ rfl (fun _ => by decide)
    rfl [.tick 10, .check] s₂ hr (by simp [Sets])
  obtain ⟨-, hdue, ho, -⟩ := hs (by decide)
  have hne : new ≠ [] := by
    refine hdue [.tick 10] rfl ?_
    rw [(returns_checkStep (timerStep_keeps hti ht.1 ht.2).1 hs₂).2.1, htim]
    exact Nat.le_refl 10
  refine ⟨s₁, s₂, rfl, hr, ?_⟩
  rw [hsi]
  exact Nat.le_antisymm (ho rfl) (length_pos_iff.mpr hne)

/-! ## Times that wrap -/

/-- The state at time 2, with the timer of `true` set to a delay of `2 ^ 64 - 1`. -/
private def sampleWrapped (type : ℕ) : TimerState Bool :=
  startTimer (stopTimer (coreTimerTick timerInit 2) true) true type (2 ^ 64 - 1)

private theorem sampleWrapped_spec (type : ℕ) :
    (sampleWrapped type).timerList = [true] ∧ (sampleWrapped type).triggerTime true = 1 ∧
      (sampleWrapped type).systemTime = 2 ∧ (sampleWrapped type).signals = [] ∧
      (sampleWrapped type).period true = if type = timerPeriodic then 2 ^ 64 - 1 else 0 := by
  have ht : add64 0 2 = 2 := add64_of_lt (by decide)
  refine ⟨rfl, ?_, ht, rfl, ?_⟩
  · show add64 (add64 0 2) (2 ^ 64 - 1) = 1
    unfold add64
    rfl
  · show (if type = timerPeriodic then _ else _ : Bool → ℕ) true = _
    split
    · rfl
    · rfl

/-- **Times that wrap break the service.** At time 2, a relative timer of `2 ^ 64 - 1` units is
signalled by the next check, at the same time; and with a periodic one the next check never returns,
since each next time wraps to a time before now. -/
theorem not_timers_of_wrap :
    (∃ s₁ s₂ : TimerState Bool,
      coreSetTimer sampleEvents (coreTimerTick timerInit 2) (some true) timerRelative (2 ^ 64 - 1) 0
        = (.success, s₁) ∧
      timerStep sampleEvents s₁ .check s₂ ∧ signalTimes true s₂ = [2]) ∧
    ∃ s₁ : TimerState Bool,
      coreSetTimer sampleEvents (coreTimerTick timerInit 2) (some true) timerPeriodic (2 ^ 64 - 1) 0
        = (.success, s₁) ∧
      ∀ s₂, ¬ timerStep sampleEvents s₁ .check s₂ := by
  constructor
  · obtain ⟨hli, ht, hti, hsi, hp⟩ := sampleWrapped_spec timerRelative
    generalize hs : sampleWrapped timerRelative = s at hli ht hti hsi hp
    have hr : checkStep 2 s = .inl (signal { s with timerList := [] } (.event true 2)) := by
      unfold checkStep
      rw [hli]
      dsimp only
      rw [ht, if_neg (by decide), if_pos]
      exact hp
    have he : checkStep 2 (signal { s with timerList := [] } (.event true 2))
        = .inr (signal { s with timerList := [] } (.event true 2)) := rfl
    refine ⟨s, signal { s with timerList := [] } (.event true 2), congrArg _ hs, ⟨2, ?_⟩, ?_⟩
    · have hst : (checkStep s.systemTime : TimerState Bool → _) = checkStep 2 :=
        congrArg checkStep hti
      change loop (checkStep s.systemTime) 2 s = _
      rw [hst, loop_inl hr, loop_inr he]
    · rw [signalTimes_signal_event]
      rw [hsi]
      rfl
  · obtain ⟨hli, ht, hti, -, hp⟩ := sampleWrapped_spec timerPeriodic
    refine ⟨sampleWrapped timerPeriodic, rfl, fun s₂ => ?_⟩
    -- the timer stays due: from 1 and from 2 a period leads back to a time that is not after 2
    refine not_returns (P := fun s => s.timerList = [true] ∧ s.period true = 2 ^ 64 - 1 ∧
      (s.triggerTime true = 1 ∨ s.triggerTime true = 2)) ?_ ⟨hli, hp, .inl ht⟩
    rintro s ⟨hli, hp, hdue⟩
    have hl : s.triggerTime true ≤ 2 ∧ add64 (s.triggerTime true) (2 ^ 64 - 1) ≤ 2 := by
      unfold add64
      rcases hdue with hdue | hdue <;> rw [hdue] <;> decide
    rw [hti]
    unfold checkStep
    rw [hli]
    dsimp only
    rw [if_neg (Nat.not_lt.mpr hl.1), if_neg (by simp [signal, hp]), if_pos]
    · exact ⟨_, rfl, rfl, hp, .inr rfl⟩
    · simp only [signal, hp]
      exact hl.2

end Edk2.Timer
