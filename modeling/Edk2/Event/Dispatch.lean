import Edk2.Base
import Edk2.Lib.Command
import Mathlib.Logic.Function.Basic

/-!
# Events and task priority levels

The event services of `Event.c` and the priority levels of `Tpl.c`. Signalling an event queues its
notification. `CoreRestoreTpl` dispatches what is queued above the level it lowers to, and every
release of the event lock is a `CoreRestoreTpl`. A notification function is arbitrary code: it runs
in the middle of the dispatch loop and may use all the services again. So the services are commands
that hand control out, and what the main program and the notification functions ask for are the
outside choices.

An event is named by its address, and is live from its creation until it is closed. A link is set if
and only if the event is on a list. Assertions, the state of the interrupts and the flag of the
event lock are left out; the pool, the timer list and the protocol database are those of other
components.
-/

namespace Edk2.Event

/-! ## Events -/

/-- The task priority levels. -/
def tplApplication : ℕ := 4
def tplHighLevel : ℕ := 31

/-- The event types, and the flags they are made of. -/
def evtTimer : BitVec 32 := 0x80000000#32
def evtNotifyWait : BitVec 32 := 0x00000100#32
def evtNotifySignal : BitVec 32 := 0x00000200#32
def evtSignalExitBootServices : BitVec 32 := 0x00000201#32
def evtSignalVirtualAddressChange : BitVec 32 := 0x60000202#32

/-- `mEventTable`: the valid types. -/
def mEventTable : List (BitVec 32) :=
  [evtTimer ||| evtNotifySignal, evtTimer, evtNotifyWait, evtNotifySignal,
    evtSignalExitBootServices, evtSignalVirtualAddressChange, 0x00000000#32,
    evtTimer ||| evtNotifyWait]

def gEfiEventExitBootServicesGuid : EfiGuid :=
  efiGuid 0x27ABF055 0xB1B8 0x4C26 [0x80, 0x48, 0x74, 0x8F, 0x37, 0xBA, 0xA2, 0xDF]

def gEfiEventVirtualAddressChangeGuid : EfiGuid :=
  efiGuid 0x13FA7698 0xC831 0x49C7 [0x87, 0xEA, 0x8F, 0x43, 0xFC, 0xC2, 0x51, 0x96]

/-- `IEVENT`. The group of an event without one is zero, and `grouped` is `EVT_EXFLAG_EVENT_GROUP`.
-/
structure IEvent where
  type : BitVec 32
  signalCount : ℕ
  notifyTpl : ℕ
  eventGroup : EfiGuid
  grouped : Bool
  deriving DecidableEq

/-- `Type & EVT_NOTIFY_SIGNAL`: the notification is queued when the event is signalled. -/
def IEvent.notifySignal (ev : IEvent) : Bool := ev.type &&& evtNotifySignal != 0#32

/-- `Type & EVT_NOTIFY_WAIT`: the notification is queued when the event is checked. -/
def IEvent.notifyWait (ev : IEvent) : Bool := ev.type &&& evtNotifyWait != 0#32

/-- What is recorded of a run: an event is put on the queue of a level, a notification function of a
level is called at the current level, an event is closed, a call of `CoreRestoreTpl` returns. -/
inductive Mark
  | queued (e tpl : ℕ)
  | notified (e tpl currentTpl : ℕ)
  | closed (e : ℕ)
  | restored (newTpl : ℕ)
  deriving DecidableEq

/-- `gEfiCurrentTpl`, `gEventPending`, `gEventQueue`, `gEventSignalQueue`, the `OwnerTpl` of
`gEventQueueLock`, the live events, the status of the last service, and the record of the run, with
the latest mark first. -/
structure EventState where
  currentTpl : ℕ
  eventPending : BitVec 64
  eventQueue : ℕ → List ℕ
  eventSignalQueue : List ℕ
  ownerTpl : ℕ
  event : ℕ → Option IEvent
  status : EfiStatus
  log : List Mark

/-- The state at the start of `CoreInitializeEventServices`. -/
def initialState : EventState where
  currentTpl := tplApplication
  eventPending := 0#64
  eventQueue := fun _ => []
  eventSignalQueue := []
  ownerTpl := 0
  event := fun _ => none
  status := .success
  log := []

/-- `(UINTN)(1 << Tpl)`: the shift is one of a signed 32-bit integer. -/
def tplBit (tpl : ℕ) : BitVec 64 := (1#32 <<< tpl).signExtend 64

/-- `HighBitSet64`, for an operand that is not zero. -/
def highBitSet64 (operand : BitVec 64) : ℕ := Nat.log2 operand.toNat

/-- `RemoveEntryList (&Event->NotifyLink)`, if the event is queued. -/
def removeNotifyLink (s : EventState) (e : ℕ) : EventState :=
  { s with eventQueue := fun tpl => (s.eventQueue tpl).erase e }

/-- The event with another `SignalCount`. -/
def setSignalCount (s : EventState) (e n : ℕ) : EventState :=
  { s with event := Function.update s.event e ((s.event e).map ({ · with signalCount := n })) }

/-- `CoreNotifyEvent`: an event that is already queued moves to the end of its queue. -/
def coreNotifyEvent (s : EventState) (e : ℕ) : EventState :=
  match s.event e with
  | none => s
  | some ev =>
    let s := removeNotifyLink s e
    { s with
      eventQueue := Function.update s.eventQueue ev.notifyTpl (s.eventQueue ev.notifyTpl ++ [e])
      eventPending := s.eventPending ||| tplBit ev.notifyTpl
      log := .queued e ev.notifyTpl :: s.log }

/-- The loop of `CoreNotifySignalList`. -/
def notifyGroup (s : EventState) (g : EfiGuid) : EventState :=
  s.eventSignalQueue.foldl
    (fun s e => if (s.event e).any (·.eventGroup = g) then coreNotifyEvent s e else s) s

/-! ## Commands -/

/-- The procedures that call each other. -/
inductive Proc
  | coreRestoreTpl (newTpl : ℕ)
  | coreDispatchEventNotifies (priority : ℕ)
  | notifyFunction (e : ℕ)
  | userCode
  | mainProgram

/-- What `CoreCreateEventInternal` is called with: whether there is a notification function, and the
address of the new event, if the pool has one. -/
structure CreateArgs where
  type : BitVec 32
  notifyTpl : ℕ
  notifyFunction : Bool
  eventGroup : Option EfiGuid
  address : Option ℕ

/-- What the main program and the notification functions ask for next. -/
inductive Request
  | ret
  | signalEvent (e : ℕ)
  | notifySignalList (g : EfiGuid)
  | checkEvent (e : ℕ)
  | closeEvent (e : ℕ)
  | createEvent (args : CreateArgs)
  | raiseTpl (newTpl : ℕ)
  | restoreTpl (newTpl : ℕ)

abbrev EventCommand := Command EventState Proc Request

def setTpl (tpl : ℕ) : EventCommand := .act ({ · with currentTpl := tpl })

def setStatus (status : EfiStatus) : EventCommand := .act ({ · with status := status })

/-- `CoreAcquireEventLock`: the level is raised to that of the lock. -/
def coreAcquireEventLock : EventCommand :=
  .act fun s => { s with ownerTpl := s.currentTpl, currentTpl := tplHighLevel }

def coreReleaseEventLock : EventCommand := .get fun s => .call (.coreRestoreTpl s.ownerTpl)

/-- The loop test of `CoreRestoreTpl`: something is pending, and at a level above the new one. -/
def pendingAbove (newTpl : ℕ) (s : EventState) : Bool :=
  s.eventPending != 0#64 && decide (newTpl < highBitSet64 s.eventPending)

def coreRestoreTpl (newTpl : ℕ) : EventCommand :=
  .seq
    (.get fun s =>
      if tplHighLevel ≤ s.currentTpl ∧ newTpl < tplHighLevel then setTpl tplHighLevel else .skip)
    (.seq
      (.loop (pendingAbove newTpl)
        (.get fun s =>
          .seq (setTpl (highBitSet64 s.eventPending))
            (.call (.coreDispatchEventNotifies (highBitSet64 s.eventPending)))))
      (.act fun s => { s with currentTpl := newTpl, log := .restored newTpl :: s.log }))

/-- The event at the head of a queue is taken off it, and the signal of a signal event is cleared.
-/
def takeEvent (e : ℕ) (s : EventState) : EventState :=
  if (s.event e).any IEvent.notifySignal then setSignalCount (removeNotifyLink s e) e 0
  else removeNotifyLink s e

/-- `CoreDispatchEventNotifies`. The lock is not held while a notification function runs. -/
def coreDispatchEventNotifies (priority : ℕ) : EventCommand :=
  .seq coreAcquireEventLock
    (.seq
      (.loop (fun s => !(s.eventQueue priority).isEmpty)
        (.get fun s =>
          let e := (s.eventQueue priority).headD 0
          .seq (.act (takeEvent e))
            (.seq coreReleaseEventLock
              (.seq (.call (.notifyFunction e)) coreAcquireEventLock))))
      (.seq (.act fun s => { s with eventPending := s.eventPending &&& ~~~tplBit priority })
        coreReleaseEventLock))

def notifyTplOf (s : EventState) (e : ℕ) : ℕ := ((s.event e).map IEvent.notifyTpl).getD 0

/-- A call of `Event->NotifyFunction`, which is recorded. -/
def notifyFunction (e : ℕ) : EventCommand :=
  .seq (.act fun s => { s with log := .notified e (notifyTplOf s e) s.currentTpl :: s.log })
    (.call .userCode)

def coreNotifySignalList (g : EfiGuid) : EventCommand :=
  .seq coreAcquireEventLock (.seq (.act (notifyGroup · g)) coreReleaseEventLock)

def coreSignalEvent (e : ℕ) : EventCommand :=
  .get fun s =>
    match s.event e with
    | none => setStatus .invalidParameter
    | some ev =>
      .seq coreAcquireEventLock
        (.seq
          (if ev.signalCount = 0 then
            .seq (.act (setSignalCount · e 1))
              (if ev.notifySignal then
                if ev.grouped then
                  -- all the members of the group are queued
                  .seq coreReleaseEventLock
                    (.seq (coreNotifySignalList ev.eventGroup) coreAcquireEventLock)
                else .act (coreNotifyEvent · e)
              else .skip)
          else .skip)
          (.seq coreReleaseEventLock (setStatus .success)))

/-- The `SignalCount` of an event is not zero. -/
def signalled (s : EventState) (e : ℕ) : Bool := (s.event e).any (·.signalCount != 0)

/-- `CoreCheckEvent`. The notification that a check queues may signal the event, and then it is
cleared again. -/
def coreCheckEvent (e : ℕ) : EventCommand :=
  .get fun s =>
    match s.event e with
    | none => setStatus .invalidParameter
    | some ev =>
      if ev.notifySignal then setStatus .invalidParameter
      else
        .seq
          (if ev.signalCount = 0 ∧ ev.notifyWait then
            .seq coreAcquireEventLock (.seq (.act (coreNotifyEvent · e)) coreReleaseEventLock)
          else .skip)
          (.get fun s =>
            if signalled s e then
              .seq coreAcquireEventLock
                (.seq (.act (setSignalCount · e 0))
                  (.seq coreReleaseEventLock (setStatus .success)))
            else setStatus .notReady)

/-- The lock of `CoreSetTimer (Event, TimerCancel, 0)`, one level below that of the events. -/
def cancelTimer : EventCommand :=
  .get fun s => .seq (setTpl (tplHighLevel - 1)) (.call (.coreRestoreTpl s.currentTpl))

def unlinkEvent (e : ℕ) (s : EventState) : EventState :=
  { removeNotifyLink s e with
    eventSignalQueue := s.eventSignalQueue.erase e
    log := .closed e :: s.log }

/-- `CoreCloseEvent`. The memory of the event goes back to the pool. -/
def coreCloseEvent (e : ℕ) : EventCommand :=
  .get fun s =>
    match s.event e with
    | none => setStatus .invalidParameter
    | some ev =>
      .seq (if ev.type &&& evtTimer != 0#32 then cancelTimer else .skip)
        (.seq coreAcquireEventLock
          (.seq (.act (unlinkEvent e))
            (.seq coreReleaseEventLock
              (.act fun s =>
                { s with event := Function.update s.event e none, status := .success }))))

/-- The type and the group of a new event, if they are valid together: the two groups that had an
event type of their own before there were groups are converted both ways. -/
def convertType (type : BitVec 32) (eventGroup : Option EfiGuid) :
    Option (BitVec 32 × Option EfiGuid) :=
  match eventGroup with
  | some g =>
    if type = evtSignalExitBootServices ∨ type = evtSignalVirtualAddressChange then none
    else if g = gEfiEventExitBootServicesGuid then some (evtSignalExitBootServices, some g)
    else if g = gEfiEventVirtualAddressChangeGuid then some (evtSignalVirtualAddressChange, some g)
    else some (type, some g)
  | none =>
    if type = evtSignalExitBootServices then some (type, some gEfiEventExitBootServicesGuid)
    else if type = evtSignalVirtualAddressChange then
      some (type, some gEfiEventVirtualAddressChangeGuid)
    else some (type, none)

/-- The new event of `CoreCreateEventInternal`, if its parameters are valid. -/
def newEvent (args : CreateArgs) : Option IEvent :=
  if args.type ∉ mEventTable then none
  else
    (convertType args.type args.eventGroup).bind fun (type, group) =>
      let ev : IEvent :=
        { type := type
          signalCount := 0
          notifyTpl := args.notifyTpl
          eventGroup := group.getD (List.replicate 16 0)
          grouped := group.isSome }
      if ev.notifyWait ∨ ev.notifySignal then
        if args.notifyFunction = false ∨ args.notifyTpl ≤ tplApplication ∨
            tplHighLevel ≤ args.notifyTpl then none
        else some ev
      else some { ev with notifyTpl := 0 }

/-- `CoreCreateEventInternal`. The pool never answers with the address of a live event. -/
def coreCreateEventInternal (args : CreateArgs) : EventCommand :=
  .get fun s =>
    match newEvent args, args.address with
    | none, _ => setStatus .invalidParameter
    | some _, none => setStatus .outOfResources
    | some ev, some e =>
      if (s.event e).isSome then .skip
      else
        .seq (.act fun s => { s with event := Function.update s.event e (some ev) })
          (.seq coreAcquireEventLock
            (.seq
              (.act fun s =>
                if ev.notifySignal then { s with eventSignalQueue := e :: s.eventSignalQueue }
                else s)
              (.seq coreReleaseEventLock (setStatus .success))))

/-- The services that leave the level as it is. -/
def service : Request → EventCommand
  | .signalEvent e => coreSignalEvent e
  | .notifySignalList g => coreNotifySignalList g
  | .checkEvent e => coreCheckEvent e
  | .closeEvent e => coreCloseEvent e
  | .createEvent args => coreCreateEventInternal args
  | .ret | .raiseTpl _ | .restoreTpl _ => .skip

/-- A notification function, or the part of one between a `CoreRaiseTpl` and the `CoreRestoreTpl`
that belongs to it. It asks for services until it returns. `CoreRaiseTpl` asserts that the new level
is not below the old one and is a level. -/
def userCode : EventCommand :=
  .choose fun r =>
    match r with
    | .ret | .restoreTpl _ => .skip
    | .raiseTpl newTpl =>
      .seq
        (.get fun s =>
          if s.currentTpl ≤ newTpl ∧ newTpl ≤ tplHighLevel then
            .seq (setTpl newTpl)
              (.seq (.call .userCode) (.call (.coreRestoreTpl s.currentTpl)))
          else .skip)
        (.call .userCode)
    | r => .seq (service r) (.call .userCode)

/-- The main program. It may restore any level that is not above the current one. -/
def mainProgram : EventCommand :=
  .choose fun r =>
    match r with
    | .ret => .skip
    | .raiseTpl newTpl =>
      .seq
        (.get fun s =>
          if s.currentTpl ≤ newTpl ∧ newTpl ≤ tplHighLevel then setTpl newTpl else .skip)
        (.call .mainProgram)
    | .restoreTpl newTpl =>
      .seq
        (.get fun s => if newTpl ≤ s.currentTpl then .call (.coreRestoreTpl newTpl) else .skip)
        (.call .mainProgram)
    | r => .seq (service r) (.call .mainProgram)

def procedures : Proc → EventCommand
  | .coreRestoreTpl newTpl => coreRestoreTpl newTpl
  | .coreDispatchEventNotifies priority => coreDispatchEventNotifies priority
  | .notifyFunction e => notifyFunction e
  | .userCode => userCode
  | .mainProgram => mainProgram

end Edk2.Event
