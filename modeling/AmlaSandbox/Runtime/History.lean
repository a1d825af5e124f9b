import AmlaSandbox.Runtime.Basic

/-!
# What the host sees of a runtime

A run of calls on one runtime, with the history of the operations exposed to the host and of the
results it submitted.
-/

namespace AmlaSandbox.Runtimes

open Host

variable {E : Engine}

/-- An operation exposed to the host, or a result submitted by it. -/
inductive Note
  | exposed (op : PendingHostOp)
  | submitted (result : HostOpResult)
deriving DecidableEq

def Request.isExit : Request → Bool
  | .commandExit .. => true
  | _ => false

def Request.isReadStdin : Request → Bool
  | .readStdin _ => true
  | _ => false

def HostOpResponse.isStdinData : HostOpResponse → Bool
  | .stdinData _ _ => true
  | _ => false

def HostOpResponse.isEof : HostOpResponse → Bool
  | .stdinData _ eof => eof
  | _ => false

namespace Note

/-- The command an exposed operation is attributed to. -/
def command : Note → Option CommandHandle
  | exposed op => op.command
  | submitted _ => none

/-- The command whose exit is reported. -/
def exitOf : Note → Option CommandHandle
  | exposed op => if op.request.isExit then op.command else none
  | submitted _ => none

/-- A read of stdin of a command is exposed under an id. -/
def Asks (id : HostOpId) (handle : CommandHandle) : Note → Prop
  | exposed op => op.request.isReadStdin ∧ op.id = id ∧ op.command = some handle
  | submitted _ => False

/-- A read of stdin is exposed under an id, or stdin data is submitted for it. -/
def Mentions (runtimeId : RuntimeId) (id : HostOpId) : Note → Prop
  | exposed op => op.request.isReadStdin ∧ op.id = id ∧ op.command.isSome
  | submitted result => result.runtimeId = runtimeId ∧ result.id = id ∧ result.result.isStdinData

/-- The end of stdin is submitted for an id. -/
def EndsStdin (runtimeId : RuntimeId) (id : HostOpId) : Note → Prop
  | exposed _ => False
  | submitted result => result.runtimeId = runtimeId ∧ result.id = id ∧ result.result.isEof

end Note

/-- Newest first. -/
abbrev History := List Note

namespace History

/-- A read of the command's stdin is exposed under the id and not yet answered with stdin data. -/
def Asked (runtimeId : RuntimeId) (id : HostOpId) (handle : CommandHandle) : History → Prop
  | [] => False
  | note :: earlier =>
    note.Asks id handle ∨ ¬ note.Mentions runtimeId id ∧ Asked runtimeId id handle earlier

/-- The host has answered a read of the command's stdin with the end of it. -/
def AnsweredEof (runtimeId : RuntimeId) (handle : CommandHandle) : History → Prop
  | [] => False
  | note :: earlier =>
    AnsweredEof runtimeId handle earlier ∨
      ∃ id, note.EndsStdin runtimeId id ∧ Asked runtimeId id handle earlier

def expose (ops : List PendingHostOp) (history : History) : History :=
  (ops.map Note.exposed).reverse ++ history

def submit (results : List HostOpResult) (history : History) : History :=
  (results.map Note.submitted).reverse ++ history

@[simp] lemma expose_nil (history : History) : expose [] history = history := rfl

lemma expose_cons (op : PendingHostOp) (ops : List PendingHostOp) (history : History) :
    expose (op :: ops) history = expose ops (.exposed op :: history) := by
  simp [expose]

lemma expose_append (ops later : List PendingHostOp) (history : History) :
    expose (ops ++ later) history = expose later (expose ops history) := by
  simp [expose]

lemma submit_cons (result : HostOpResult) (results : List HostOpResult) (history : History) :
    submit (result :: results) history = submit results (.submitted result :: history) := by
  simp [submit]

end History

/-! ### Runs -/

/-- A call on one runtime. -/
inductive Event
  | createCommand (command : Text)
  | step
  | submitResults (results : List HostOpResult)
  | cancelCommand (handle : CommandHandle)
  | deleteCommand (handle : CommandHandle)

/-- A runtime with its history. -/
structure Run (E : Engine) where
  runtime : Runtime E
  history : History

/-- A new runtime. -/
def Runtime.new (id : RuntimeId) (engine : E.State) : Runtime E where
  id := id
  engine := engine
  commands := ∅
  nextHandle := 1
  stdinClosedCommands := []
  pendingStdinOps := ∅
  auditBuffer := []

namespace Run

def start (id : RuntimeId) (engine : E.State) : Run E := ⟨.new id engine, []⟩

def apply (run : Run E) : Event → Run E
  | .createCommand command => ⟨(run.runtime.createCommand command).2, run.history⟩
  | .step =>
    let (response, runtime) := run.runtime.step
    ⟨runtime, .expose response.hostOps run.history⟩
  | .submitResults results =>
    ⟨(Runtime.submitResults results run.runtime).2, .submit results run.history⟩
  | .cancelCommand handle =>
    let (ops, runtime) := run.runtime.cancelCommand handle
    ⟨runtime, .expose ops run.history⟩
  | .deleteCommand handle => ⟨run.runtime.deleteCommand handle, run.history⟩

def exec (events : List Event) (run : Run E) : Run E := events.foldl apply run

end Run

/-! ### Exit reports -/

section Reports

variable (E)

/-- What a stream of a command holds, as an output. -/
def bufferedOutput (id : RuntimeId) (handle : CommandHandle) (stream : UInt8) (s : E.State) :
    List PendingHostOp :=
  let data := (E.takeBuffered handle stream s).1
  if data.isEmpty then []
  else [{ id := notificationId, runtimeId := id, command := some handle,
          request := .output stream data }]

def errorOutput (id : RuntimeId) (handle : CommandHandle) (errorMsg : Option String) :
    List PendingHostOp :=
  errorMsg.toList.map fun msg =>
    { id := notificationId, runtimeId := id, command := some handle,
      request := .output 2 msg.toUTF8.toList }

/-- The report of an exit in a state of the scheduler: what the two streams of the command hold,
the error message if there is one, and the exit. -/
def exitReport (id : RuntimeId) (handle : CommandHandle) (s : E.State) (code : Int32)
    (errorMsg : Option String) (elapsedNs userTimeNs : UInt64) : List PendingHostOp :=
  bufferedOutput E id handle 1 s ++
    bufferedOutput E id handle 2 (E.takeBuffered handle 1 s).2 ++
    errorOutput id handle errorMsg ++
    [{ id := notificationId, runtimeId := id, command := some handle,
       request := .commandExit code (some elapsedNs) (some userTimeNs) }]

/-- Operations in which every exit ends a whole report, made in a state in which it has a cause. -/
inductive Reports (id : RuntimeId)
    (cause : CommandHandle → E.State → Int32 → Option String → Prop) : List PendingHostOp → Prop
  | nil : Reports id cause []
  | op {op : PendingHostOp} {ops : List PendingHostOp} :
    op.request.isExit = false → Reports id cause ops → Reports id cause (op :: ops)
  | report {handle : CommandHandle} {s : E.State} {code : Int32} {errorMsg : Option String}
    {ops : List PendingHostOp} (elapsedNs userTimeNs : UInt64) :
    cause handle s code errorMsg → Reports id cause ops →
      Reports id cause (exitReport E id handle s code errorMsg elapsedNs userTimeNs ++ ops)

variable {E}

/-- The third phase of the step that starts here, when it has seen some of the commands. -/
def Runtime.finishing (rt : Runtime E) (seen : List CommandHandle) : Runtime E :=
  let (stepStartNs, started) := (rt.handles.foldl Runtime.startCommand rt).now
  let (stepEndNs, ran) := (runScheduler maxSteps started).2.now
  let elapsedNs := saturatingSub stepEndNs stepStartNs
  (finishCommands stepEndNs seen (rt.handles.foldl (accumulateTime · elapsedNs) ran)).2

lemma Runtime.finishCommands_snd (stepEndNs : UInt64) (handles : List CommandHandle)
    (rt : Runtime E) : (finishCommands stepEndNs handles rt).2 =
      handles.foldl (fun rt handle => (rt.finishCommand stepEndNs handle).2) rt := by
  induction handles generalizing rt with
  | nil => rfl
  | cons handle rest ih => exact ih _

/-- In its turn, the task that a command has in the step that starts here gives its result. -/
def Runtime.Finished (rt : Runtime E) (handle : CommandHandle) (s : E.State) (code : Int32)
    (errorMsg : Option String) : Prop :=
  ∃ cmd taskHandle seen later result, rt.handles = seen ++ handle :: later ∧
    (rt.handles.foldl Runtime.startCommand rt).commands.lookup handle = some cmd ∧
      cmd.taskHandle = some taskHandle ∧
      E.tryGet taskHandle (rt.finishing seen).engine = (some result, s) ∧
      Runtime.exitOf result = (code, errorMsg)

/-- The task of a command has just been cancelled, and the clock read. -/
def Runtime.Cancelled (rt : Runtime E) (handle : CommandHandle) (s : E.State) (code : Int32)
    (errorMsg : Option String) : Prop :=
  (∃ cmd, rt.commands.lookup handle = some cmd ∧ cmd.active ∧
    s = (rt.cancelTask cmd.taskHandle).now.2.engine) ∧ code = -1 ∧ errorMsg = none

lemma Reports.append {id : RuntimeId}
    {cause : CommandHandle → E.State → Int32 → Option String → Prop}
    {ops later : List PendingHostOp} (h : Reports E id cause ops)
    (hlater : Reports E id cause later) : Reports E id cause (ops ++ later) := by
  induction h with
  | nil => exact hlater
  | op hop _ ih => exact .op hop ih
  | report elapsedNs userTimeNs hcause _ ih =>
    rw [List.append_assoc]
    exact .report elapsedNs userTimeNs hcause ih

lemma Reports.of_noExit {id : RuntimeId}
    {cause : CommandHandle → E.State → Int32 → Option String → Prop}
    {ops : List PendingHostOp} (h : ∀ op ∈ ops, op.request.isExit = false) :
    Reports E id cause ops := by
  induction ops with
  | nil => exact .nil
  | cons op ops ih =>
    obtain ⟨hop, hops⟩ := List.forall_mem_cons.mp h
    exact .op hop (ih hops)

end Reports

/-! ### The lifecycle of a command -/

/-- What holds after every run. -/
structure Lifecycle (run : Run E) : Prop where
  exitLast : run.history.Pairwise fun later earlier =>
    ∀ handle, earlier.exitOf = some handle → later.command ≠ some handle
  reports : Reports E run.runtime.id run.runtime.Finished run.runtime.step.1.hostOps
  cancelReports : ∀ handle, Reports E run.runtime.id run.runtime.Cancelled
    (run.runtime.cancelCommand handle).1
  cancelled : ∀ handle cmd, run.runtime.commands.lookup handle = some cmd → cmd.cancelled →
    run.runtime.commandStatus cmd = .cancelled ∧
      ∀ op, Note.exposed op ∈ run.history → op.command = some handle →
        ∀ code elapsedNs userTimeNs, op.request = .commandExit code elapsedNs userTimeNs →
          code = -1
  staysCancelled : ∀ handle cmd, run.runtime.commands.lookup handle = some cmd → cmd.cancelled →
    ∀ events cmd', (run.exec events).runtime.commands.lookup handle = some cmd' → cmd'.cancelled
  stdinClosed : ∀ newer op older handle, run.history = newer ++ .exposed op :: older →
    op.command = some handle → op.request.isReadStdin →
      ¬ History.AnsweredEof run.runtime.id handle older
  stdinOwn : ∀ handle ∈ run.runtime.stdinClosedCommands,
    History.AnsweredEof run.runtime.id handle run.history

end AmlaSandbox.Runtimes
