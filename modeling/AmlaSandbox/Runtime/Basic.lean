import AmlaSandbox.Host.Channel
import AmlaSandbox.Scheduler.Basic
import AmlaSandbox.Text.Basic
import Mathlib.Data.List.AList

/-!
# Runtimes

A runtime owns a scheduler and a table of commands. It spawns one shell task for each command, hands
the operations that the tasks submit to the host under the command whose task is at the root of
their spawn chain, and reports the exit of each command.

The scheduler with its tasks, its clock and the buffers of the I/O handles is an `Engine`: an
automaton of which only the operations that the runtime calls are known.
-/

namespace AmlaSandbox.Runtimes

open Host Async Scheduling

/-- Command handle; the counter of a runtime is not expected to reach the end of a `u64`. -/
abbrev CommandHandle := Nat

abbrev RuntimeId := Nat

/-- The number of a spawn, by which its handle is known. -/
abbrev TaskHandle := Nat

abbrev Bytes := List UInt8

/-! ### Requests to the host -/

/-- A request as the host sees it; the parameters of a tool call are kept as the JSON text they are
parsed from. -/
inductive Request
  | wakeAt (deadlineNanos : UInt64)
  | toolCall (tool : String) (params : Bytes)
  | vfsRead (path : String) (offset : UInt64) (len : Nat)
  | output (stream : UInt8) (data : Bytes)
  | commandExit (code : Int32) (elapsedNs userTimeNs : Option UInt64)
  | readStdin (maxBytes : Nat)
deriving DecidableEq

/-- A request with what is needed to route its result back. -/
structure PendingHostOp where
  id : HostOpId
  runtimeId : RuntimeId
  command : Option CommandHandle
  request : Request
deriving DecidableEq

/-- The id of notifications, which expect no answer. -/
def notificationId : HostOpId := ⟨0⟩

/-- `usize::MAX` -/
def usizeMax : Nat := 2 ^ 64 - 1

/-- Every operation of the scheduler is exposed. -/
def convertHostOp : HostOpKind → Option Request
  | .wakeAt deadline => some (.wakeAt deadline)
  | .fileRead path => some (.vfsRead path 0 usizeMax)
  | .fileReadRange path offset length => some (.vfsRead path offset length.toNat)
  | .custom name data => some (.toolCall name data)
  | .print stream data => some (.output stream data)
  | .commandExit code => some (.commandExit code none none)
  | .readStdin maxBytes => some (.readStdin maxBytes)

/-! ### Answers of the host -/

/-- An answer; the value of a tool result is kept as its JSON text. -/
inductive HostOpResponse
  | wokeAt (currentTimeNanos : UInt64)
  | toolResult (result : Bytes)
  | toolResultChunk (data : Bytes) (eof : Bool)
  | toolResultError (message : String)
  | vfsData (data : Bytes)
  | outputAck
  | exitAck
  | stdinData (data : Bytes) (eof : Bool)
  | delegateResult (newPca : Bytes)
  | error (code message : String)
deriving DecidableEq

structure HostOpResult where
  id : HostOpId
  runtimeId : RuntimeId
  result : HostOpResponse
deriving DecidableEq

/-- A host error code by its canonical text, with the kind of I/O error it stands for. -/
def hostErrorCode (code : String) : String × ErrorKind :=
  match code with
  | "not_found" => ("not_found", .notFound)
  | "permission_denied" => ("permission_denied", .permissionDenied)
  | "timeout" | "timed_out" => ("timeout", .timedOut)
  | "connection_refused" => ("connection_refused", .connectionRefused)
  | "connection_reset" => ("connection_reset", .connectionReset)
  | "already_exists" => ("already_exists", .alreadyExists)
  | "invalid_input" | "invalid_argument" => ("invalid_input", .invalidInput)
  | "invalid_data" => ("invalid_data", .invalidData)
  | "would_block" => ("would_block", .wouldBlock)
  | "interrupted" => ("interrupted", .interrupted)
  | "unsupported" => ("unsupported", .unsupported)
  | "out_of_memory" => ("out_of_memory", .outOfMemory)
  | other => (other, .other)

/-- `u64::to_le_bytes` -/
def toLeBytes (n : UInt64) : Bytes :=
  (List.range 8).map fun i => (n >>> UInt64.ofNat (8 * i)).toUInt8

def toolCallFailed (message : String) : IoError := ⟨.other, "Tool call failed: " ++ message⟩

/-- Convert an answer to bytes for the completion of its operation. -/
def responseToBytes : HostOpResponse → Except IoError Bytes
  | .wokeAt currentTimeNanos => .ok (toLeBytes currentTimeNanos)
  | .vfsData data | .stdinData data _ => .ok data
  | .toolResult result => .ok result
  | .toolResultChunk data _ => .ok data
  | .toolResultError message => .error (toolCallFailed message)
  | .delegateResult newPca => .ok newPca
  | .outputAck | .exitAck => .ok []
  | .error code message =>
    .error ⟨(hostErrorCode code).2, (hostErrorCode code).1 ++ ": " ++ message⟩

/-! ### The scheduler, as a runtime uses it -/

/-- A scheduler with the tasks of its commands. `tryGet` answers the exit code or the text of the
error; `takeBuffered` takes what is buffered for a stream of a command; `queueLength` bounds how
many operations can be taken; `order` is the order in which the command table is iterated. No task
submits an exit itself. -/
structure Engine where
  State : Type
  nowMonotonic : State → UInt64 × State
  spawnShell : CommandHandle → Text → State → TaskHandle × State
  runStep : State → SchedulerState × State
  queueLength : State → Nat
  takeHostOp : State → Option HostOpRequest × State
  completeHostOp : HostOpId → Bytes → State → State
  completeHostOpErr : HostOpId → IoError → State → State
  appendChunk : HostOpId → Bytes → Bool → State → Option Bool × State
  idRepr : TaskHandle → State → Option TaskIdRepr
  tryGet : TaskHandle → State → Option (Except String Int32) × State
  cancel : TaskHandle → State → State
  hasReadyTasks : State → Bool
  takeBuffered : CommandHandle → UInt8 → State → Bytes × State
  order : List CommandHandle → List CommandHandle
  noGuestExit : ∀ s req, (takeHostOp s).1 = some req → ∀ code, req.kind ≠ .commandExit code

/-! ### Runtime state -/

/-- State of a command. `execution` says that the command still refers to its scheduler. -/
structure CommandState where
  command : Text
  cancelled : Bool := false
  exitCode : Option Int32 := none
  taskHandle : Option TaskHandle := none
  execution : Bool := false
  startTimeNs : UInt64
  userTimeNs : UInt64 := 0

/-- The command has not reported an exit. -/
def CommandState.active (cmd : CommandState) : Bool := cmd.exitCode.isNone && !cmd.cancelled

inductive CommandStatus
  | running
  | needHostOps
  | exit
  | cancelled
deriving DecidableEq

inductive RuntimeStatus
  | allDone
  | running
  | allBlocked
deriving DecidableEq

/-- The entries of the audit buffer that the runtime writes. -/
inductive LogEntry
  | commandCreate (handle : CommandHandle) (command : Text)
  | streamChunk (handle : CommandHandle) (streamName : String) (data : Bytes)
  | commandExit (handle : CommandHandle) (code : Int32) (elapsedNs : UInt64)

structure StepResponse where
  hostOps : List PendingHostOp
  status : RuntimeStatus
deriving DecidableEq

variable {E : Engine}

structure Runtime (E : Engine) where
  id : RuntimeId
  engine : E.State
  commands : AList fun _ : CommandHandle => CommandState
  nextHandle : CommandHandle
  stdinClosedCommands : List CommandHandle
  pendingStdinOps : AList fun _ : HostOpId => CommandHandle
  auditBuffer : List LogEntry

namespace Runtime

variable (rt : Runtime E)

/-- The handles of the table, in the order of iteration. -/
def handles : List CommandHandle := E.order rt.commands.keys

def audit (entry : LogEntry) : Runtime E := { rt with auditBuffer := rt.auditBuffer ++ [entry] }

/-- `now_monotonic` -/
def now : UInt64 × Runtime E :=
  let (time, engine) := E.nowMonotonic rt.engine
  (time, { rt with engine })

def setCommand (handle : CommandHandle) (cmd : CommandState) : Runtime E :=
  { rt with commands := rt.commands.insert handle cmd }

/-! ### Commands -/

/-- Create a command; an empty one gets the handle 0. -/
def createCommand (command : Text) : CommandHandle × Runtime E :=
  let command := command.trim
  if command.isEmpty then (0, rt)
  else
    let handle := rt.nextHandle
    let rt := { rt with nextHandle := handle + 1 }.audit (.commandCreate handle command)
    let (startTimeNs, rt) := rt.now
    (handle, rt.setCommand handle { command, startTimeNs })

def deleteCommand (handle : CommandHandle) : Runtime E :=
  { rt with commands := rt.commands.erase handle }

/-- A notification about a command. -/
def notification (handle : CommandHandle) (request : Request) : PendingHostOp :=
  { id := notificationId, runtimeId := rt.id, command := some handle, request }

/-- Flush what is buffered for one stream of a command. -/
def flushStream (handle : CommandHandle) (stream : UInt8) (streamName : String) :
    List PendingHostOp × Runtime E :=
  let (data, engine) := E.takeBuffered handle stream rt.engine
  let rt := { rt with engine }
  if data.isEmpty then ([], rt)
  else
    ([rt.notification handle (.output stream data)],
      rt.audit (.streamChunk handle streamName data))

/-- The error message of a command, if there is one. -/
def flushError (handle : CommandHandle) : Option String → List PendingHostOp × Runtime E
  | some msg =>
    let data := msg.toUTF8.toList
    ([rt.notification handle (.output 2 data)], rt.audit (.streamChunk handle "stderr" data))
  | none => ([], rt)

/-- Subtraction that stops at 0. -/
def saturatingSub (a b : UInt64) : UInt64 := if a < b then 0 else a - b

/-- Flush the buffered output of a command and emit its exit. -/
def flushOutputAndExit (cmd : CommandState) (handle : CommandHandle) (exitCode : Int32)
    (errorMsg : Option String) (currentTimeNs : UInt64) : List PendingHostOp × Runtime E :=
  let (stdout, rt) := rt.flushStream handle 1 "stdout"
  let (stderr, rt) := rt.flushStream handle 2 "stderr"
  let (error, rt) := rt.flushError handle errorMsg
  let elapsedNs := saturatingSub currentTimeNs cmd.startTimeNs
  (stdout ++ stderr ++ error ++
      [rt.notification handle (.commandExit exitCode (some elapsedNs) (some cmd.userTimeNs))],
    rt.audit (.commandExit handle exitCode elapsedNs))

/-- Cancel the task of a command, if it was spawned. -/
def cancelTask (taskHandle : Option TaskHandle) : Runtime E :=
  { rt with engine := taskHandle.elim rt.engine (E.cancel · rt.engine) }

/-- Forget what is tracked about the stdin of a command. -/
def forgetStdin (handle : CommandHandle) : Runtime E :=
  { rt with
    stdinClosedCommands := rt.stdinClosedCommands.filter (· ≠ handle)
    pendingStdinOps := ((rt.pendingStdinOps.keys.filter fun id =>
      rt.pendingStdinOps.lookup id = some handle).foldl
        (fun ops id => ops.erase id) rt.pendingStdinOps) }

/-- Cancel a running command. -/
def cancelCommand (handle : CommandHandle) : List PendingHostOp × Runtime E :=
  match rt.commands.lookup handle with
  | none => ([], rt)
  | some cmd =>
    if !cmd.active then ([], rt)
    else
      let taskHandle := cmd.taskHandle
      let cmd := { cmd with
        cancelled := true, exitCode := some (-1), taskHandle := none, execution := false }
      let rt := (rt.setCommand handle cmd).forgetStdin handle
      let (time, rt) := (rt.cancelTask taskHandle).now
      rt.flushOutputAndExit cmd handle (-1) none time

/-- The status of a command. -/
def commandStatus (cmd : CommandState) : CommandStatus :=
  if cmd.cancelled then .cancelled
  else if cmd.exitCode.isSome then .exit
  else if cmd.execution && !E.hasReadyTasks rt.engine then .needHostOps
  else .running

/-! ### Stepping -/

/-- Phase 1: spawn the task of a command that has not started. -/
def startCommand (handle : CommandHandle) : Runtime E :=
  match rt.commands.lookup handle with
  | none => rt
  | some cmd =>
    if !cmd.active || cmd.taskHandle.isSome then rt
    else
      let (taskHandle, engine) := E.spawnShell handle cmd.command rt.engine
      { rt with engine }.setCommand handle
        { cmd with taskHandle := some taskHandle, execution := true }

/-- The command whose task is the root of a submitted operation. -/
def ownerOf (root : TaskIdRepr) : Option CommandHandle :=
  rt.handles.find? fun handle =>
    ((rt.commands.lookup handle).bind (·.taskHandle)).bind (E.idRepr · rt.engine) = some root

/-- Complete an operation that the host does not see. -/
def completeSilently (id : HostOpId) : Runtime E :=
  { rt with engine := E.completeHostOp id [] rt.engine }

/-- Handle one submitted operation: expose it, or answer it at once when it reads a closed stdin. -/
def collectOp (req : HostOpRequest) : List PendingHostOp × Runtime E :=
  match convertHostOp req.kind with
  | none => ([], rt.completeSilently req.id)
  | some request =>
    let command := req.taskId.bind rt.ownerOf
    let op : PendingHostOp := { id := req.id, runtimeId := rt.id, command, request }
    match request, command with
    | .readStdin _, some handle =>
      if handle ∈ rt.stdinClosedCommands then ([], rt.completeSilently req.id)
      else ([op], { rt with pendingStdinOps := rt.pendingStdinOps.insert req.id handle })
    | _, _ => ([op], rt)

/-- The loop that takes the submitted operations, at most as many as the queue holds. -/
def collectOps : Nat → Runtime E → List PendingHostOp × Runtime E
  | 0, rt => ([], rt)
  | fuel + 1, rt =>
    match E.takeHostOp rt.engine with
    | (none, engine) => ([], { rt with engine })
    | (some req, engine) =>
      let (op, rt) := { rt with engine }.collectOp req
      let (ops, rt) := collectOps fuel rt
      (op ++ ops, rt)

/-- Phase 2: run the scheduler until it is blocked or done, at most so many steps. -/
def runScheduler : Nat → Runtime E → List PendingHostOp × Runtime E
  | 0, rt => ([], rt)
  | steps + 1, rt =>
    let (state, engine) := E.runStep rt.engine
    let rt := { rt with engine }
    let (ops, rt) := collectOps (E.queueLength rt.engine) rt
    if state = .progress then
      let (later, rt) := runScheduler steps rt
      (ops ++ later, rt)
    else (ops, rt)

/-- Add the time of a step to an active command. -/
def accumulateTime (elapsedNs : UInt64) (handle : CommandHandle) : Runtime E :=
  match rt.commands.lookup handle with
  | none => rt
  | some cmd =>
    if cmd.active then
      rt.setCommand handle { cmd with userTimeNs := cmd.userTimeNs + elapsedNs }
    else rt

/-- The exit code and the error message of a finished task. -/
def exitOf : Except String Int32 → Int32 × Option String
  | .ok code => (code, none)
  | .error message => (1, some (message ++ "\n"))

/-- Phase 3: report the exit of a command whose task has completed. -/
def finishCommand (stepEndNs : UInt64) (handle : CommandHandle) :
    List PendingHostOp × Runtime E :=
  match rt.commands.lookup handle with
  | none => ([], rt)
  | some cmd =>
    if !cmd.active then ([], rt)
    else
      match cmd.taskHandle with
      | none => ([], rt)
      | some taskHandle =>
        match E.tryGet taskHandle rt.engine with
        | (none, engine) => ([], { rt with engine })
        | (some result, engine) =>
          let (code, errorMsg) := exitOf result
          let cmd := { cmd with exitCode := some code, taskHandle := none, execution := false }
          ({ rt with engine }.setCommand handle cmd).flushOutputAndExit cmd handle code errorMsg
            stepEndNs

def finishCommands (stepEndNs : UInt64) : List CommandHandle → Runtime E →
    List PendingHostOp × Runtime E
  | [], rt => ([], rt)
  | handle :: rest, rt =>
    let (ops, rt) := rt.finishCommand stepEndNs handle
    let (later, rt) := finishCommands stepEndNs rest rt
    (ops ++ later, rt)

/-- The overall status. -/
def collectStatus : RuntimeStatus :=
  let statuses := rt.commands.entries.map fun entry => rt.commandStatus entry.2
  if .running ∈ statuses then .running
  else if .needHostOps ∈ statuses then .allBlocked
  else .allDone

def maxSteps : Nat := 10000

/-- Step the commands and collect the response. -/
def step : StepResponse × Runtime E :=
  let handles := rt.handles
  let rt := handles.foldl startCommand rt
  let (stepStartNs, rt) := rt.now
  let (ops, rt) := runScheduler maxSteps rt
  let (stepEndNs, rt) := rt.now
  let rt := handles.foldl (accumulateTime · (saturatingSub stepEndNs stepStartNs)) rt
  let (exits, rt) := finishCommands stepEndNs handles rt
  (⟨ops ++ exits, rt.collectStatus⟩, rt)

/-! ### Results -/

/-- Track the end of a command's stdin. -/
def trackStdin (result : HostOpResult) : Runtime E :=
  match result.result with
  | .stdinData _ true =>
    match rt.pendingStdinOps.lookup result.id with
    | some handle =>
      { rt with
        pendingStdinOps := rt.pendingStdinOps.erase result.id
        stdinClosedCommands := handle :: rt.stdinClosedCommands }
    | none => rt
  | .stdinData _ false => { rt with pendingStdinOps := rt.pendingStdinOps.erase result.id }
  | _ => rt

/-- Complete the operation of a result, or add a chunk to it; the flag says whether it counts. -/
def completeResult (result : HostOpResult) : Bool × Runtime E :=
  match result.result with
  | .toolResultChunk data eof =>
    let (completed, engine) := E.appendChunk result.id data eof rt.engine
    (completed == some true, { rt with engine })
  | .toolResultError message =>
    (true, { rt with engine := E.completeHostOpErr result.id (toolCallFailed message) rt.engine })
  | response =>
    match responseToBytes response with
    | .ok data => (true, { rt with engine := E.completeHostOp result.id data rt.engine })
    | .error e => (true, { rt with engine := E.completeHostOpErr result.id e rt.engine })

/-- One turn of the loop of `submit_results`; a result for another runtime is skipped. -/
def submitResult (result : HostOpResult) : Nat × Runtime E :=
  if result.runtimeId ≠ rt.id then (0, rt)
  else
    let (counts, rt) := (rt.trackStdin result).completeResult result
    (counts.toNat, rt)

/-- Submit results of host operations; the number of those that were processed. -/
def submitResults : List HostOpResult → Runtime E → Nat × Runtime E
  | [], rt => (0, rt)
  | result :: rest, rt =>
    let (processed, rt) := rt.submitResult result
    let (later, rt) := submitResults rest rt
    (processed + later, rt)

end Runtime

end AmlaSandbox.Runtimes
