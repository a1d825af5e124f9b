import AmlaSandbox.Pipe.Machine
import Mathlib.Data.Int.Notation

/-!
# Pipelines

The shell spawns a task for each command of a pipeline, with a bounded pipe between neighbours. Then
it awaits the tasks in order and closes the pipe behind each. The tasks run in any order meanwhile;
each reads and writes as it likes.
-/

namespace AmlaSandbox.Pipelines

open Async Library Pipes

/-- The capacity of the pipes between commands. -/
def pipeCapacity : ℕ := 4096

/-- The task of a command. A parked task polled a pipe that was not ready; a waiting one waits for
the host. A task that is done has an exit code, or `none` for an error. -/
inductive Stage
  | unspawned
  | running
  | reading (parked : Parked)
  | writing (parked : Parked)
  | waiting
  | done (exit : Option ℤ)
deriving DecidableEq

namespace Stage

def isDone : Stage → Bool
  | done _ => true
  | _ => false

/-- A task polls for a read while it runs, and again after the poll parked it. -/
def canRead : Stage → Bool
  | running | reading _ => true
  | _ => false

def canWrite : Stage → Bool
  | running | writing _ => true
  | _ => false

def afterRead : Option Parked → Stage
  | some parked => reading parked
  | none => running

def afterWrite : Option Parked → Stage
  | some parked => writing parked
  | none => running

end Stage

/-- Where `execute_pipeline` stands: it expands the words of a command to spawn it, it has failed to
do so, it awaits a handle, or it has returned. -/
inductive Progress
  | spawning (i : ℕ)
  | failed
  | awaiting (i : ℕ) (firstFailure : Option ℤ) (lastCode : ℤ)
  | finished (code : ℤ)
deriving DecidableEq

/-- Command `i` reads pipe `i - 1` and writes pipe `i`. -/
structure Pipeline where
  size : ℕ
  pipefail : Bool
  pipes : ℕ → PipeInner
  stages : ℕ → Stage
  shell : Progress

/-- What a task does at a pipe is told by the pipe: the writer of pipe `i` is command `i`, and its
reader is command `i + 1`. -/
inductive Event
  | spawn
  | fail
  | read (i : ℕ) (bufLen : ℕ)
  | write (i : ℕ) (data : List UInt8)
  | ask (i : ℕ)
  | reply (i : ℕ)
  | exit (i : ℕ) (exit : Option ℤ)
  | join

/-- `first_failure` and `last_code` after a handle. -/
def noteExit (pipefail : Bool) (exit firstFailure : Option ℤ) : Option ℤ × ℤ :=
  match exit with
  | some code =>
    (if pipefail && code != 0 && firstFailure.isNone then some code else firstFailure, code)
  | none => (if pipefail && firstFailure.isNone then some 1 else firstFailure, 1)

namespace Pipeline

def new (size : ℕ) (pipefail : Bool) : Pipeline :=
  { size
    pipefail
    pipes := fun _ => .new pipeCapacity
    stages := fun _ => .unspawned
    shell := if size = 0 then .finished 0 else .spawning 0 }

variable (p : Pipeline)

def setStage (i : ℕ) (stage : Stage) : Pipeline :=
  { p with stages := Function.update p.stages i stage }

def setPipe (i : ℕ) (pipe : PipeInner) : Pipeline :=
  { p with pipes := Function.update p.pipes i pipe }

section

variable {p} {i j : ℕ} {stage : Stage} {pipe : PipeInner}

@[simp] lemma stages_setStage_self : (p.setStage i stage).stages i = stage :=
  Function.update_self ..

@[simp] lemma stages_setStage_of_ne (h : j ≠ i) : (p.setStage i stage).stages j = p.stages j :=
  Function.update_of_ne h ..

@[simp] lemma pipes_setPipe_self : (p.setPipe i pipe).pipes i = pipe := Function.update_self ..

@[simp] lemma pipes_setPipe_of_ne (h : j ≠ i) : (p.setPipe i pipe).pipes j = p.pipes j :=
  Function.update_of_ne h ..

@[simp] lemma pipes_setStage : (p.setStage i stage).pipes = p.pipes := rfl

@[simp] lemma stages_setPipe : (p.setPipe i pipe).stages = p.stages := rfl

@[simp] lemma size_setStage : (p.setStage i stage).size = p.size := rfl

@[simp] lemma size_setPipe : (p.setPipe i pipe).size = p.size := rfl

end

/-- The command behind pipe `i` polls for a read. -/
def pollRead (i bufLen : ℕ) : Pipeline :=
  let (result, pipe) := (p.pipes i).pollRead (i + 1) bufLen
  (p.setPipe i pipe).setStage (i + 1) (.afterRead (parkedBy result (i + 1) pipe.woken))

/-- The command before pipe `i` polls for a write. -/
def pollWrite (i : ℕ) (data : List UInt8) : Pipeline :=
  let (result, pipe) := (p.pipes i).pollWrite i data
  (p.setPipe i pipe).setStage i (.afterWrite (parkedBy result i pipe.woken))

/-- Command `i` is spawned with its words expanded and its redirects applied. -/
def spawn (i : ℕ) : Pipeline :=
  { p.setStage i .running with
    shell := if i + 1 = p.size then .awaiting 0 none 0 else .spawning (i + 1) }

/-- Close the pipe that command `i` was writing to, if any. -/
def closeBehind (i : ℕ) : Pipeline :=
  if i < p.size - 1 then p.setPipe i (p.pipes i).close else p

@[simp] lemma stages_closeBehind (i : ℕ) : (p.closeBehind i).stages = p.stages := by
  unfold closeBehind
  split_ifs <;> rfl

@[simp] lemma size_closeBehind (i : ℕ) : (p.closeBehind i).size = p.size := by
  unfold closeBehind
  split_ifs <;> rfl

/-- The handle of command `i` is ready. -/
def join (i : ℕ) (exit firstFailure : Option ℤ) : Pipeline :=
  let (firstFailure, lastCode) := noteExit p.pipefail exit firstFailure
  { p.closeBehind i with
    shell :=
      if i + 1 = p.size then .finished (firstFailure.getD lastCode)
      else .awaiting (i + 1) firstFailure lastCode }

/-- `none` where the event cannot happen. -/
def step : Event → Option Pipeline
  | .spawn =>
    match p.shell with
    | .spawning i => some (p.spawn i)
    | _ => none
  | .fail =>
    match p.shell with
    | .spawning _ => some { p with shell := .failed }
    | _ => none
  | .read i bufLen =>
    if i + 1 < p.size ∧ (p.stages (i + 1)).canRead then some (p.pollRead i bufLen) else none
  | .write i data =>
    if i + 1 < p.size ∧ (p.stages i).canWrite then some (p.pollWrite i data) else none
  | .ask i => if p.stages i = .running then some (p.setStage i .waiting) else none
  | .reply i => if p.stages i = .waiting then some (p.setStage i .running) else none
  | .exit i exit => if p.stages i = .running then some (p.setStage i (.done exit)) else none
  | .join =>
    match p.shell with
    | .awaiting i firstFailure _ =>
      match p.stages i with
      | .done exit => some (p.join i exit firstFailure)
      | _ => none
    | _ => none

/-- The states of all runs of a pipeline whose events meet a condition. -/
abbrev Reachable (ok : Pipeline → Event → Prop) (size : ℕ) (pipefail : Bool) (p : Pipeline) :
    Prop :=
  Reach (fun p e p' => p.step e = some p') ok (new size pipefail) p

/-- Any event is admitted. -/
def anyEvent (_ : Pipeline) (_ : Event) : Prop := True

instance (e : Event) : Decidable (anyEvent p e) := inferInstanceAs (Decidable True)

/-- The state after a list of events. -/
def run (size : ℕ) (pipefail : Bool) (events : List Event) : Option Pipeline :=
  events.foldlM step (new size pipefail)

lemma reachable_run {ok : Pipeline → Event → Prop} {size : ℕ} {pipefail : Bool}
    {events : List Event} (h : Meets ok step (new size pipefail) events) {p : Pipeline}
    (hrun : run size pipefail events = some p) : Reachable ok size pipefail p :=
  reach_foldlM h hrun

/-! ### What keeps a task from running -/

/-- The task is running, or was woken since it parked. -/
def canRun (i : ℕ) : Bool :=
  match p.stages i with
  | .running => true
  | .reading parked => parked.Woken (p.pipes (i - 1)).woken
  | .writing parked => parked.Woken (p.pipes i).woken
  | _ => false

/-- The shell spawns, or the handle that it awaits is ready. -/
def shellCanRun : Bool :=
  match p.shell with
  | .spawning _ => true
  | .awaiting i _ _ => (p.stages i).isDone
  | _ => false

/-- The task is parked at a write and has not been woken. -/
def writerWaits (i : ℕ) : Bool :=
  match p.stages i with
  | .writing parked => !decide (parked.Woken (p.pipes i).woken)
  | _ => false

/-- No task of the pipeline can run, that of the shell included, and none waits for the host. -/
def Quiet : Prop :=
  p.shellCanRun = false ∧ ∀ i < p.size, p.canRun i = false ∧ p.stages i ≠ .waiting

instance : Decidable p.Quiet := inferInstanceAs (Decidable (_ ∧ _))

/-- Every command has completed. -/
def Completed : Prop := ∀ i < p.size, (p.stages i).isDone = true

instance : Decidable p.Completed := inferInstanceAs (Decidable (∀ i < p.size, _))

/-- Where nothing can run and nothing is expected from the host, all is done. -/
def NeverStuck : Prop := p.Quiet → p.Completed

end Pipeline

end AmlaSandbox.Pipelines
