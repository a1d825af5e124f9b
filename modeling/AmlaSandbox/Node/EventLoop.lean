import Mathlib.Algebra.Group.Nat.Defs
import Mathlib.Data.List.AList
import Mathlib.Logic.Function.Iterate
import Mathlib.Tactic.Common

/-!
# The event loop of `node`

JavaScript registers timers as sleep operations, which the event loop serves in batches, one
operation at a time. A callback and what the promises in it do is one list of actions, which takes
no time; the host answers each wake-up at its deadline.
-/

namespace AmlaSandbox.Node

/-- Nanoseconds of the monotonic clock. -/
abbrev TimeNanos := UInt64

/-- What follows the sleep of an operation: the callback of a timeout, a tick of an interval, or
any other code. -/
inductive Continuation (κ : Type*)
  | timeout (timer : ℕ)
  | tick (timer delay : ℕ)
  | resume (callback : κ)

/-- A pending sleep. `due` is the time of its registration plus its delay, which the code does not
keep. -/
structure PendingOp (κ : Type*) where
  id : ℕ
  delayMs : UInt64
  continuation : Continuation κ
  due : ℕ

/-- An entry of `_timers`. -/
structure Timer (κ : Type*) where
  callback : κ
  cancelled : Bool := false

/-- What JavaScript does about timers; `clearInterval` is `clearTimeout`. -/
inductive Action (κ : Type*)
  | setTimeout (callback : κ) (delay : ℕ)
  | setInterval (callback : κ) (delay : ℕ)
  | clearTimeout (timer : ℕ)
  | sleep (delay : ℕ) (callback : κ)

/-- A program with a memory and callbacks. A callback sees the clock and the memory, and tells what
it does, whether it returns normally, and the memory it leaves. -/
structure Program (σ κ : Type*) where
  memory : σ
  main : List (Action κ)
  body : κ → TimeNanos → σ → List (Action κ) × Bool × σ

/-- A timeout that was registered, with the operation of its sleep. -/
structure Registration where
  op : ℕ
  timer : ℕ
  delay : ℕ
deriving DecidableEq

/-- A call of the callback of a timer, with the operation that led to it, the time at which its
sleep began, and the time of the call. -/
structure Call where
  op : ℕ
  delayMs : UInt64
  due : ℕ
  start : TimeNanos
  time : TimeNanos
deriving DecidableEq

/-- `batch` is the rest of the operations that the loop took. `registered` and `calls` list what
happened so far, which the code does not keep. -/
structure EventLoop (σ κ : Type*) where
  timers : AList (fun _ : ℕ => Timer κ) := ∅
  nextTimerId : ℕ := 1
  nextOpId : ℕ := 1
  pendingOps : List (PendingOp κ) := []
  batch : List (PendingOp κ) := []
  clock : TimeNanos
  memory : σ
  registered : List Registration := []
  calls : List Call := []

/-- The nanoseconds of a number of milliseconds. -/
def millisToNanos (millis : ℕ) : ℕ := millis * 10 ^ 6

/-- `duration_to_nanos` of `Duration::from_millis` -/
def durationToNanos (delayMs : UInt64) : TimeNanos :=
  UInt64.ofNat (min (millisToNanos delayMs.toNat) (2 ^ 64 - 1))

/-- The time at which a sleep ends; the deadline is computed with wrap-around. -/
def wakeTime (now : TimeNanos) (delayMs : UInt64) : TimeNanos :=
  let deadline := now + durationToNanos delayMs
  if now < deadline then deadline else now

namespace EventLoop

variable {σ κ : Type*} (s : EventLoop σ κ)

/-! ### Timers -/

/-- `_createPendingOp` of a sleep. A delay that is not a `u64` is refused: the promise is rejected,
and nobody handles that. -/
def createPendingOp (delay : ℕ) (continuation : Continuation κ) : EventLoop σ κ :=
  let id := s.nextOpId
  let s := { s with nextOpId := id + 1 }
  if delay < 2 ^ 64 then
    { s with
      pendingOps := s.pendingOps ++ [{
        id
        delayMs := .ofNat delay
        continuation
        due := s.clock.toNat + millisToNanos delay }] }
  else s

/-- Enter a timer into `_timers`. -/
def enterTimer (callback : κ) : EventLoop σ κ :=
  { s with
    timers := s.timers.insert s.nextTimerId { callback }
    nextTimerId := s.nextTimerId + 1 }

/-- A timeout is recorded. -/
def recordTimeout (timer delay : ℕ) : EventLoop σ κ :=
  { s with registered := s.registered ++ [{ op := s.nextOpId, timer, delay }] }

def setTimeout (callback : κ) (delay : ℕ) : EventLoop σ κ :=
  ((s.recordTimeout s.nextTimerId delay).enterTimer callback).createPendingOp delay
    (.timeout s.nextTimerId)

def setInterval (callback : κ) (delay : ℕ) : EventLoop σ κ :=
  (s.enterTimer callback).createPendingOp delay (.tick s.nextTimerId delay)

def clearTimeout (timer : ℕ) : EventLoop σ κ :=
  match s.timers.lookup timer with
  | some t => { s with timers := s.timers.insert timer { t with cancelled := true } }
  | none => s

def perform : Action κ → EventLoop σ κ
  | .setTimeout callback delay => s.setTimeout callback delay
  | .setInterval callback delay => s.setInterval callback delay
  | .clearTimeout timer => s.clearTimeout timer
  | .sleep delay callback => s.createPendingOp delay (.resume callback)

def execute (actions : List (Action κ)) : EventLoop σ κ := actions.foldl perform s

/-! ### Callbacks -/

variable (p : Program σ κ)

/-- Run a callback, and tell whether it returned normally. -/
def runCallback (callback : κ) : Bool × EventLoop σ κ :=
  let (actions, returns, memory) := p.body callback s.clock s.memory
  (returns, { s with memory }.execute actions)

/-- `_timers.delete` -/
def deleteTimer (timer : ℕ) : EventLoop σ κ := { s with timers := s.timers.erase timer }

/-- The callback of a timer that is neither gone nor cancelled. -/
def callback? (timer : ℕ) : Option κ :=
  (s.timers.lookup timer).bind fun t => if t.cancelled then none else some t.callback

/-- A call is recorded. -/
def record (op : PendingOp κ) (start : TimeNanos) : EventLoop σ κ :=
  { s with
    calls := s.calls ++ [{
      op := op.id, delayMs := op.delayMs, due := op.due, start, time := s.clock }] }

/-- `_resolve` of an operation, and the promise jobs that follow. -/
def resolve (op : PendingOp κ) (start : TimeNanos) : EventLoop σ κ :=
  match op.continuation with
  | .timeout timer =>
    match s.callback? timer with
    | some callback =>
      let (returns, s) := (s.record op start).runCallback p callback
      if returns then s.deleteTimer timer else s
    | none => s.deleteTimer timer
  | .tick timer delay =>
    match s.callback? timer with
    | some callback =>
      let (returns, s) := (s.record op start).runCallback p callback
      if returns then s.createPendingOp delay (.tick timer delay) else s
    | none => s.deleteTimer timer
  | .resume callback => (s.runCallback p callback).2

/-! ### The loop -/

/-- `process_op` of a sleep, and the resolution of its promise. -/
def serve (op : PendingOp κ) : EventLoop σ κ :=
  { s with clock := wakeTime s.clock op.delayMs }.resolve p op s.clock

/-- Take the operations that were registered since the last batch. -/
def takePendingOps : EventLoop σ κ := { s with batch := s.pendingOps, pendingOps := [] }

/-- Serve the next operation of the batch, or take a new batch. -/
def step : EventLoop σ κ :=
  match s.batch with
  | op :: batch => { s with batch }.serve p op
  | [] => s.takePendingOps

end EventLoop

namespace Program

variable {σ κ : Type*} (p : Program σ κ) (clock : TimeNanos)

/-- The loop after the initial execution. -/
def start : EventLoop σ κ :=
  (({ clock, memory := p.memory } : EventLoop σ κ).execute p.main).takePendingOps

/-- The loop after so many steps. -/
def run (n : ℕ) : EventLoop σ κ := (fun s => s.step p)^[n] (p.start clock)

end Program

end AmlaSandbox.Node
