import AmlaSandbox.Library.Reachability
import AmlaSandbox.Runtime.Basic
import AmlaSandbox.Scheduler.Machine
import AmlaSandbox.Timer.Basic

/-!
# The scheduler of a runtime with all its parts

The scheduler, its host channel and its timers, together with the futures of the shells. What a
future does while it is polled is a list of calls, which it chooses freely; nothing else of it is
known.
-/

namespace AmlaSandbox.Runtimes

open Library Host

/-- What is kept beside the scheduler and the timers. `polls` counts the polls of the host's steps
and `reads` those of the clock; `trace` records the events of the scheduler, each with the state
before it, and `shells` which command a spawn runs. The code does not keep these. -/
structure World (Q : MinHeap Timer.TimerEntry Timer.TimerEntry.deadline) where
  sched : Scheduling.Machine := {}
  timers : Timer.Machine Q
  buffers : CommandHandle → UInt8 → Bytes := fun _ _ => []
  polls : Nat := 0
  reads : Nat := 0
  trace : List (Scheduling.Machine × Scheduling.Event) := []
  shells : List (TaskHandle × CommandHandle × Text) := []

/-- What a future can do when it is dropped. -/
inductive DropCall
  | wake (waker : Async.Waker)
  | dropOp (i : Nat)
  | dropSleep (i : Nat)

/-- What a polled future can do, also while others are dropped. `runStep` and `pollReturn` belong to
the runs of the scheduler that it makes within its poll. -/
inductive GuestCall
  | spawn
  | pollHandle (handle : TaskHandle) (waker : Async.Waker)
  | tryGet (handle : TaskHandle)
  | cancel (handle : TaskHandle)
  | run
  | runStep
  | pollReturn (result : Option Scheduling.TaskResult)
  | hostOp (kind : HostOpKind)
  | pollOp (i : Nat) (waker : Async.Waker)
  | sleepUntil (deadline : Timer.TimeNanos)
  | pollSleep (i : Nat) (waker : Async.Waker)
  | write (handle : CommandHandle) (stream : UInt8) (data : Bytes)
  | drop (call : DropCall)

/-- The waker with which the timers are polled. -/
def noopWaker : Async.Waker := 0

/-- What a waker wakes. -/
def wakes : Async.Waker → Scheduling.Waker
  | 0 => none
  | i + 1 => some i

/-- `TaskId::to_repr` -/
def toRepr (id : Scheduling.TaskId) : TaskIdRepr := ⟨id.slot, id.generation⟩

def isCommandExit : HostOpKind → Bool
  | .commandExit _ => true
  | _ => false

namespace World

variable {Q : MinHeap Timer.TimerEntry Timer.TimerEntry.deadline}
  (willWake : Async.Waker → Async.Waker → Bool) (w : World Q)

def host : Host.Machine := w.timers.timers.host

/-! ### Events of the scheduler -/

/-- An event of the scheduler, if it can happen. -/
def schedule (e : Scheduling.Event) : Option Scheduling.Output × World Q :=
  match w.sched.step e with
  | some (sched, out) => (out, { w with sched, trace := w.trace ++ [(w.sched, e)] })
  | none => (none, w)

/-- The future of a spawn was spawned within a poll; its handle was given to the polled future. -/
def spawnedByGuest (handle : TaskHandle) : Bool := (w.sched.spawner[handle]?.join).isSome

/-- `TaskHandle::cancel`, which does nothing while the spawn is queued. -/
def cancelHandle (handle : TaskHandle) : World Q :=
  match (w.sched.sched.slot? handle).bind (·.taskId) with
  | some id => (w.schedule (.cancelTask id)).2
  | none => w

/-- `set_current_task` of the host channel follows the current root. -/
def syncTask : World Q :=
  { w with
    timers := { w.timers with
      timers := { w.timers.timers with
        host := w.timers.timers.host.setTask (w.sched.sched.currentRoot.map toRepr) } } }

/-! ### Timers and host operations -/

/-- The wakers that are woken between two states of the timers. -/
def wokenBetween (before after : Timer.Machine Q) : List Async.Waker :=
  after.timers.woken.drop before.timers.woken.length ++
    after.timers.host.chan.woken.drop before.timers.host.chan.woken.length

/-- Wake tasks from a poll or from outside. -/
def wakeAll (wakers : List Async.Waker) : World Q :=
  wakers.foldl (fun w waker => (w.schedule (.wake (wakes waker))).2) w

/-- The timers or the host channel change, and wake tasks. -/
def setTimers (timers : Timer.Machine Q) : World Q :=
  { w with timers }.wakeAll (wokenBetween w.timers timers)

def timerEvent (e : Timer.Event) : World Q := w.setTimers (w.timers.step willWake e)

/-- `TimerState::process`, with the tasks that it wakes. -/
def processTimers : List Nat × World Q :=
  let timers := w.timers.process willWake noopWaker
  ((wokenBetween w.timers timers).filterMap wakes, { w with timers })

/-! ### Steps of the scheduler -/

/-- `run_step` up to the poll of a future, or to its end when no task is ready. -/
def beginStep : Option Scheduling.Output × World Q :=
  let (fired, w) := w.processTimers willWake
  if (w.sched.polled (.runStep fired [])).isSome then
    let (out, w) := w.schedule (.runStep fired [])
    (out, w.syncTask)
  else
    let (late, w) := w.processTimers willWake
    let (out, w) := w.schedule (.runStep fired late)
    (out, w.syncTask)

/-- The rest of `run_step` once the polled future has returned. -/
def endPoll (result : Option Scheduling.TaskResult) : Option Scheduling.Output × World Q :=
  let w := { w with timers := { w.timers with
    timers := { w.timers.timers with host := w.timers.timers.host.setTask none } } }
  let (late, w) := w.processTimers willWake
  let (out, w) := w.schedule (.pollReturn result late)
  (out, w.syncTask)

/-! ### The futures -/

def dropCall : DropCall → World Q
  | .wake waker => (w.schedule (.wake (wakes waker))).2
  | .dropOp i => w.timerEvent willWake (.host (.drop i))
  | .dropSleep i => w.timerEvent willWake (.drop i)

/-- A call of the future that is polled. The handles of commands are out of its reach, and it
submits no exit. -/
def act : GuestCall → World Q
  | .spawn => (w.schedule .spawn).2
  | .pollHandle handle waker =>
    if w.spawnedByGuest handle then (w.schedule (.pollHandle handle (wakes waker))).2 else w
  | .tryGet handle => if w.spawnedByGuest handle then (w.schedule (.tryGet handle)).2 else w
  | .cancel handle => if w.spawnedByGuest handle then w.cancelHandle handle else w
  | .run => (w.schedule .run).2
  | .runStep => w
  | .pollReturn result => if 2 ≤ w.sched.stack.length then (w.endPoll willWake result).2 else w
  | .hostOp kind =>
    if isCommandExit kind then w else w.timerEvent willWake (.host (.create kind))
  | .pollOp i waker => w.timerEvent willWake (.host (.poll i waker))
  | .sleepUntil deadline => w.timerEvent willWake (.sleepUntil deadline)
  | .pollSleep i waker => w.timerEvent willWake (.poll i waker)
  | .write handle stream data =>
    { w with buffers := fun h s =>
        if h = handle ∧ s = stream then w.buffers h s ++ data else w.buffers h s }
  | .drop call => w.dropCall willWake call

/-- A call is made by the future on top; the loop of a `run` makes nothing but steps. -/
def perform (call : GuestCall) : World Q :=
  match call with
  | .runStep => if w.sched.stack.isEmpty then w else (w.beginStep willWake).2
  | call => if w.sched.top?.isSome then w.act willWake call else w

def performAll (calls : List GuestCall) : World Q := calls.foldl (perform willWake) w

end World

/-- What is not the scheduler: the futures, the clock, `Waker::will_wake` and the order in which the
table of commands is iterated. A future that is polled makes calls and then returns a result or
waits; no poll that it begins goes on when it returns. -/
structure Outside (Q : MinHeap Timer.TimerEntry Timer.TimerEntry.deadline) where
  willWake : Async.Waker → Async.Waker → Bool
  calls : World Q → List GuestCall
  result : World Q → Option Scheduling.TaskResult
  drops : World Q → List DropCall
  clock : Nat → UInt64
  order : List CommandHandle → List CommandHandle
  order_perm : ∀ handles, (order handles).Perm handles
  returns : ∀ w : World Q, w.sched.stack.length = 1 →
    (w.performAll willWake (calls w)).sched.stack.length = 1

namespace World

variable {Q : MinHeap Timer.TimerEntry Timer.TimerEntry.deadline} (o : Outside Q) (w : World Q)

/-- The polled future runs until it returns. -/
def poll : World Q :=
  let w := { w with polls := w.polls + 1 }
  w.performAll o.willWake (o.calls w)

/-- `Scheduler::run_step`, called from outside. -/
def runStep : Scheduling.SchedulerState × World Q :=
  match w.beginStep o.willWake with
  | (some (.state state), w) => (state, w)
  | (_, w) =>
    let w := w.poll o
    match w.endPoll o.willWake (o.result w) with
    | (some (.state state), w) => (state, w)
    | (_, w) => (.progress, w)

/-- Spawn the shell of a command. -/
def spawnShell (command : CommandHandle) (text : Text) : TaskHandle × World Q :=
  let handle := w.sched.sched.completions.length
  (handle, { (w.schedule .spawn).2 with shells := w.shells ++ [(handle, command, text)] })

/-- Cancel the task of a command; its futures and those of its children are dropped. -/
def cancelCommand (handle : TaskHandle) : World Q :=
  let w := w.cancelHandle handle
  (o.drops w).foldl (dropCall o.willWake) w

/-- The host takes a request from the queue. -/
def takeHostOp : Option HostOpRequest × World Q :=
  (w.host.take.1, w.timerEvent o.willWake (.host .take))

/-- The host makes a call under an id. -/
def hostCall (id : HostOpId) (call : Host.HostCall) : World Q :=
  w.timerEvent o.willWake (.host (.call id call))

/-- Whether a chunk completed its operation. -/
def appendChunk (id : HostOpId) (data : Bytes) (eof : Bool) : Option Bool × World Q :=
  ((w.host.chan.appendChunk id data eof).1.toOption, w.hostCall o id (.chunk data eof))

/-- `Display` of an error. -/
def errorText : Scheduling.Error → String
  | .io message => "I/O error: " ++ message
  | .command message => message

/-- `TaskHandle::try_get`, with the code of the exit or the text of the error. -/
def tryGet (handle : TaskHandle) : Option (Except String Int32) × World Q :=
  match w.schedule (.tryGet handle) with
  | (some (.resolved _ result), w) =>
    (some ((result.mapError errorText).map (·.code)), w)
  | (_, w) => (none, w)

def hasReadyTasks : Bool :=
  !w.sched.sched.readyQueue.isEmpty || !w.sched.sched.spawnQueue.isEmpty

def takeBuffered (handle : CommandHandle) (stream : UInt8) : Bytes × World Q :=
  (w.buffers handle stream,
    { w with buffers := fun h s => if h = handle ∧ s = stream then [] else w.buffers h s })

end World

end AmlaSandbox.Runtimes
