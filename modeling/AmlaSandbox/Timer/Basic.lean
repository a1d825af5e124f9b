import AmlaSandbox.Host.Isolation
import AmlaSandbox.Host.Machine
import AmlaSandbox.Library.Queues

/-!
# Timers

All sleeps share one heap of deadlines and one `WakeAt` operation, which the host is to complete
with its time when the earliest deadline has passed. A timer that is cancelled stays in the heap
until its deadline has passed. Sleeps are started, polled and dropped at any time, while the
scheduler processes the timers and the host channel goes on with all else.
-/

namespace AmlaSandbox.Timer

open Async Library Host

/-! ## The heap of timers -/

/-- Nanoseconds since an epoch of the host. -/
abbrev TimeNanos := UInt64

/-- Entry in the timer heap; timer ids equal slot indices. -/
structure TimerEntry where
  deadline : TimeNanos
  id : Nat
deriving DecidableEq

/-- Slot for timer completion notification. -/
structure TimerSlot where
  fired : Bool := false
  waker : Option Waker := none
  cancelled : Bool := false
deriving DecidableEq

/-- State of the pending host `WakeAt` operation; its future is one of those of the channel. -/
inductive WakeAtState
  | idle
  | pending (deadline : TimeNanos) (future : Nat)
deriving DecidableEq

def WakeAtState.future? : WakeAtState → Option Nat
  | .idle => none
  | .pending _ future => some future

/-- Internal timer state, together with the host channel and its users. The last free slot is the
head of `freeSlots`; `woken` lists the wake-ups made so far, which the code does not keep. -/
structure TimerStateInner (Q : MinHeap TimerEntry TimerEntry.deadline) where
  heap : Q.Heap := Q.empty
  slots : List (Option TimerSlot) := []
  freeSlots : List Nat := []
  wakeAtState : WakeAtState := .idle
  host : Host.Machine
  woken : List Waker := []

/-- `u64::from_le_bytes` -/
def fromLeBytes (bytes : List UInt8) : UInt64 :=
  bytes.foldr (fun b n => n <<< 8 ||| b.toUInt64) 0

/-- The time with which the host completes `WakeAt`; 0 if it is too short. -/
def replyTime (bytes : List UInt8) : TimeNanos :=
  if 8 ≤ bytes.length then fromLeBytes (bytes.take 8) else 0

namespace TimerStateInner

variable {Q : MinHeap TimerEntry TimerEntry.deadline} (willWake : Waker → Waker → Bool)
  (t : TimerStateInner Q)

def slot? (id : Nat) : Option TimerSlot := t.slots[id]?.join

/-- Replace the state of `WakeAt`; the future of the old one is dropped. -/
def setWakeAt (state : WakeAtState) : TimerStateInner Q :=
  { t with
    wakeAtState := state
    host :=
      match t.wakeAtState with
      | .idle => t.host
      | .pending _ future => t.host.dropFuture future }

/-- Request a new `WakeAt`. -/
def requestWakeAt (deadline : TimeNanos) : TimerStateInner Q :=
  { t with host := t.host.createFuture (.wakeAt deadline) }.setWakeAt
    (.pending deadline t.host.futures.length)

/-- Allocate a slot. -/
def allocateSlot : Nat × TimerStateInner Q :=
  match t.freeSlots with
  | idx :: free => (idx, { t with slots := t.slots.set idx (some {}), freeSlots := free })
  | [] => (t.slots.length, { t with slots := t.slots ++ [some {}] })

/-- A `WakeAt` for the deadline is needed. -/
def needNewWakeAt (deadline : TimeNanos) : Bool :=
  match t.wakeAtState with
  | .idle => true
  | .pending current _ => deadline < current

/-- Allocate a slot and add a timer to the heap. -/
def enter (deadline : TimeNanos) : Nat × TimerStateInner Q :=
  let (id, t) := t.allocateSlot
  (id, { t with heap := Q.push ⟨deadline, id⟩ t.heap })

/-- Register a new timer and return its id. -/
def register (deadline : TimeNanos) : Nat × TimerStateInner Q :=
  let (id, t) := t.enter deadline
  (id, if t.needNewWakeAt deadline then t.requestWakeAt deadline else t)

/-- Change a slot, if there is one. -/
def modifySlot (id : Nat) (f : TimerSlot → TimerSlot) : TimerStateInner Q :=
  match t.slot? id with
  | some slot => { t with slots := t.slots.set id (some (f slot)) }
  | none => t

/-- Cancel a timer, which stays in the heap. -/
def cancel (id : Nat) : TimerStateInner Q :=
  t.modifySlot id fun slot => { slot with cancelled := true }

/-- The timer has fired. -/
def isFired (id : Nat) : Bool := (t.slot? id).any (·.fired)

def registerWaker (id : Nat) (waker : Waker) : TimerStateInner Q :=
  t.modifySlot id fun slot => { slot with waker := some waker }

/-- Empty a slot and free it. -/
def freeSlot (id : Nat) : TimerStateInner Q :=
  { t with slots := t.slots.set id none, freeSlots := id :: t.freeSlots }

/-- Clean up a completed timer slot. -/
def cleanup (id : Nat) : TimerStateInner Q := if id < t.slots.length then t.freeSlot id else t

/-- Fire the timer of an entry that was taken from the heap; it returns the waker to wake. -/
def fire (id : Nat) : Option Waker × TimerStateInner Q :=
  match t.slot? id with
  | none => (none, t)
  | some slot =>
    if slot.cancelled then (none, t.freeSlot id)
    else
      (slot.waker,
        { t with slots := t.slots.set id (some { slot with fired := true, waker := none }) })

/-- The loop of `fire_expired`, with the wakers to wake. -/
def fireLoop (now : TimeNanos) :
    Nat → List Waker → TimerStateInner Q → List Waker × TimerStateInner Q
  | 0, wakers, t => (wakers, t)
  | n + 1, wakers, t =>
    match Q.pop t.heap with
    | none => (wakers, t)
    | some (entry, heap) =>
      if entry.deadline > now then (wakers, t)
      else
        let (waker, t) := { t with heap }.fire entry.id
        fireLoop now n (wakers ++ waker.toList) t

/-- Fire all timers with `deadline ≤ now`. -/
def fireExpired (now : TimeNanos) : TimerStateInner Q :=
  let (wakers, t) := fireLoop now (Q.toList t.heap).length [] t
  { t with woken := t.woken ++ wakers }

/-- What `process` does with the result of `WakeAt`. -/
def answered (t : TimerStateInner Q) : HostResult → TimerStateInner Q
  | .ok bytes => (t.fireExpired (replyTime bytes)).setWakeAt .idle
  | .error _ => t.setWakeAt .idle

/-- One turn of the loop of `process`; it returns whether there is another one. -/
def turn (waker : Waker) : Bool × TimerStateInner Q :=
  match t.wakeAtState with
  | .idle =>
    match Q.peek t.heap with
    | some entry => (true, t.requestWakeAt entry.deadline)
    | none => (false, t)
  | .pending _ future =>
    let (result, host) := t.host.pollFuture willWake future waker
    let t := { t with host }
    match result with
    | .ready result => (true, t.answered result)
    | .pending => (false, t)

def processLoop (waker : Waker) : Nat → TimerStateInner Q → TimerStateInner Q
  | 0, t => t
  | n + 1, t =>
    let (more, t) := t.turn willWake waker
    if more then processLoop waker n t else t

/-- The number of turns that the room in the queue of the host and the state of `WakeAt` leave. -/
def turns : Nat :=
  2 * (t.host.chan.maxPending - t.host.chan.pendingRequests.length) +
    match t.wakeAtState with
    | .idle => 2
    | .pending _ future =>
      match t.host.futures[future]?.map HostOpFuture.state with
      | some (.pending _) => 1
      | _ => 3

/-- Process timers: poll `WakeAt`, fire the expired timers, request the next `WakeAt`. -/
def process (waker : Waker) : TimerStateInner Q := t.processLoop willWake waker (t.turns)

end TimerStateInner

/-! ## Timers and their users -/

/-- A sleep. Beyond the fields of the code it tells whether it was dropped, and the waker that its
last poll left. -/
structure SleepFuture where
  deadline : TimeNanos
  id : Nat
  registered : Bool := true
  dropped : Bool := false
  waker : Option Waker := none
deriving DecidableEq

/-- The sleep has neither completed nor been dropped. -/
def SleepFuture.Live (s : SleepFuture) : Prop := s.registered = true ∧ s.dropped = false

instance (s : SleepFuture) : Decidable s.Live := inferInstanceAs (Decidable (_ ∧ _))

structure Machine (Q : MinHeap TimerEntry TimerEntry.deadline) where
  timers : TimerStateInner Q
  sleeps : List SleepFuture := []

/-- `host` is any event of the host channel that does not concern the future of `WakeAt`, which is
out of reach for others. -/
inductive Event
  | host (e : Host.Event)
  | sleepUntil (deadline : TimeNanos)
  | poll (i : Nat) (waker : Waker)
  | drop (i : Nat)
  | process (waker : Waker)

namespace TimerStateInner

variable {Q : MinHeap TimerEntry TimerEntry.deadline} (t : TimerStateInner Q)

/-- The event polls or drops the future of `WakeAt`. -/
def Concerns : Host.Event → Prop
  | .poll i _ | .drop i => t.wakeAtState.future? = some i
  | _ => False

instance : (e : Host.Event) → Decidable (t.Concerns e)
  | .poll i _ | .drop i => inferInstanceAs (Decidable (_ = some i))
  | .create _ | .take | .call _ _ | .setTask _ => isFalse id

def hostStep (willWake : Waker → Waker → Bool) (e : Host.Event) : TimerStateInner Q :=
  if t.Concerns e then t else { t with host := t.host.step willWake e }

end TimerStateInner

namespace Machine

variable {Q : MinHeap TimerEntry TimerEntry.deadline} (willWake : Waker → Waker → Bool)
  (m : Machine Q)

def new (maxPending : Nat) : Machine Q := { timers := { host := Host.Machine.new maxPending } }

/-- `Scheduler::sleep_until` -/
def sleepUntil (deadline : TimeNanos) : Machine Q :=
  let (id, timers) := m.timers.register deadline
  { timers, sleeps := m.sleeps ++ [{ deadline, id }] }

/-- Poll of a sleep that neither completed nor was dropped. -/
def pollSleep (i : Nat) (waker : Waker) : Poll (IoResult Unit) × Machine Q :=
  match m.sleeps[i]? with
  | none => (.pending, m)
  | some s =>
    if ¬ s.Live then (.pending, m)
    else if m.timers.isFired s.id then
      (.ready (.ok ()),
        { timers := m.timers.cleanup s.id
          sleeps := m.sleeps.set i { s with registered := false } })
    else
      (.pending,
        { timers := m.timers.registerWaker s.id waker
          sleeps := m.sleeps.set i { s with waker := some waker } })

/-- Drop of a sleep. -/
def dropSleep (i : Nat) : Machine Q :=
  match m.sleeps[i]? with
  | none => m
  | some s =>
    { timers := if s.Live then m.timers.cancel s.id else m.timers
      sleeps := m.sleeps.set i { s with dropped := true } }

def process (waker : Waker) : Machine Q := { m with timers := m.timers.process willWake waker }

def step (m : Machine Q) : Event → Machine Q
  | .host e => { m with timers := m.timers.hostStep willWake e }
  | .sleepUntil deadline => m.sleepUntil deadline
  | .poll i waker => (m.pollSleep i waker).2
  | .drop i => m.dropSleep i
  | .process waker => m.process willWake waker

/-- One event. -/
def Step (m : Machine Q) (e : Event) (m' : Machine Q) : Prop := m' = m.step willWake e

lemma step_step (e : Event) : Step willWake m e (m.step willWake e) := rfl

/-- The states of all runs of new timers whose events meet a condition. -/
abbrev Reachable (ok : Machine Q → Event → Prop) (maxPending : Nat) (m : Machine Q) : Prop :=
  Reach (Step willWake) ok (new maxPending) m

/-- The state after a list of events. -/
def run (maxPending : Nat) (events : List Event) : Machine Q :=
  events.foldl (step willWake) (new maxPending)

lemma reachable_run {ok : Machine Q → Event → Prop} {maxPending : Nat} {events : List Event}
    (h : Admits ok (step willWake) (new maxPending) events) :
    Reachable willWake ok maxPending (run willWake maxPending events) :=
  reach_foldl (fun m e => .inr (step_step willWake m e)) events h

end Machine

end AmlaSandbox.Timer
