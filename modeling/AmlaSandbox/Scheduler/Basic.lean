import AmlaSandbox.Library.GenTable

/-!
# Scheduler state and operations

The fields and functions of the single-threaded scheduler. Spawns are numbered: the number of a
spawn names its completion slot, its handle and its future. Futures themselves are not part of the
state; what they do while they are polled is the business of the machine.
-/

namespace AmlaSandbox.Scheduling

open Library

/-- Task identifier: slot index and generation. -/
abbrev TaskId := Key

structure SideEffects where
  cwd : Option String := none
  envSet : List (String × String) := []
  envUnset : List String := []
  pipefail : Option Bool := none
deriving DecidableEq

/-- Command exit status. -/
structure Exit where
  code : Int32
  effects : SideEffects := {}
deriving DecidableEq

inductive Error
  | io (message : String)
  | command (message : String)
deriving DecidableEq

abbrev TaskResult := Except Error Exit

/-- The result of a task that was cancelled before it finished. -/
def cancelled : TaskResult := .error (.command "Task cancelled (parent completed)")

/-- What a handle answers once `try_get` took its result. -/
def alreadyTaken : TaskResult := .error (.command "TaskHandle result already taken via try_get()")

/-- A waker puts the task index it was made for into the ready queue; `none` is `noop_waker`. -/
abbrev Waker := Option Nat

/-- Slot for completion notification, shared between the scheduler and the task's handle. The flag
`resultTaken` belongs to the handle. -/
structure TaskSlot where
  result : Option TaskResult := none
  waker : Option Waker := none
  taskId : Option TaskId := none
  resultTaken : Bool := false
deriving DecidableEq

/-- A task in the scheduler. `slot` is the number of its spawn. -/
structure Task where
  slot : Nat
  parent : Option TaskId
  root : Option TaskId
  children : List TaskId
deriving DecidableEq

/-- An unfinished task gets the cancellation error; its waker is taken. -/
def TaskSlot.cancel (slot : TaskSlot) : TaskSlot :=
  { slot with result := slot.result.or (some cancelled), waker := none }

/-- A finished task gets its result; its waker is taken. -/
def TaskSlot.finish (result : TaskResult) (slot : TaskSlot) : TaskSlot :=
  { slot with result := some result, waker := none }

inductive SchedulerState
  | done
  | blocked
  | progress
deriving DecidableEq

/-- The last free slot is the head of `freeSlots`; `completions` holds the completion slots of all
spawns so far. -/
structure Scheduler where
  tasks : List (Option Task) := []
  generations : List Nat := []
  readyQueue : List Nat := []
  spawnQueue : List Task := []
  activeCount : Nat := 0
  freeSlots : List Nat := []
  currentTask : Option TaskId := none
  currentRoot : Option TaskId := none
  completions : List TaskSlot := []
deriving DecidableEq

namespace Scheduler

/-- The slot table inside the scheduler. -/
def table (s : Scheduler) : GenTable Task := ⟨s.tasks, s.generations, s.freeSlots, s.activeCount⟩

def task? (s : Scheduler) (i : Nat) : Option Task := s.table.get? i

/-- `generations.get(i).copied().unwrap_or(0)` -/
def gen (s : Scheduler) (i : Nat) : Nat := s.table.gen i

def keyAt (s : Scheduler) (i : Nat) : TaskId := s.table.keyAt i

/-- The task of an id whose generation is still the current one. -/
def lookup (s : Scheduler) (id : TaskId) : Option Task := s.table.lookup id

def slot? (s : Scheduler) (k : Nat) : Option TaskSlot := s.completions[k]?

/-! ### Updates of one entry -/

def modifyTask (s : Scheduler) (i : Nat) (f : Task → Task) : Scheduler :=
  { s with tasks := s.tasks.modify i (Option.map f) }

def modifySlot (s : Scheduler) (k : Nat) (f : TaskSlot → TaskSlot) : Scheduler :=
  { s with completions := s.completions.modify k f }

/-- Drop the task of a slot, unless the slot is empty already. -/
def freeTask (s : Scheduler) (i : Nat) : Scheduler :=
  if (s.task? i).isSome then
    { s with
      tasks := s.tasks.set i none
      freeSlots := i :: s.freeSlots
      activeCount := s.activeCount - 1 }
  else s

def wake (s : Scheduler) : Waker → Scheduler
  | some i => { s with readyQueue := s.readyQueue ++ [i] }
  | none => s

/-- Wake what was taken out of a completion slot. -/
def wakeTaken (s : Scheduler) : Option Waker → Scheduler
  | some waker => s.wake waker
  | none => s

def takenWaker (s : Scheduler) (k : Nat) : Option Waker := (s.slot? k).bind (·.waker)

/-! ### Spawning -/

/-- Queue the spawn request of a new task under the current task and root. -/
def spawn (s : Scheduler) : Scheduler :=
  { s with
    completions := s.completions ++ [{}]
    spawnQueue := s.spawnQueue ++
      [{ slot := s.completions.length, parent := s.currentTask, root := s.currentRoot,
         children := [] }] }

/-- A task without a root becomes its own root. -/
def withRoot (task : Task) (id : TaskId) : Task := { task with root := task.root.or (some id) }

/-- Put a task into the last free slot under a new generation, or into a new slot. -/
def placeTask (s : Scheduler) (task : Task) : Scheduler × TaskId :=
  match s.freeSlots with
  | freeIdx :: rest =>
    let id : TaskId := ⟨freeIdx, s.gen freeIdx + 1⟩
    ({ s with
      generations := s.generations.set freeIdx (s.gen freeIdx + 1)
      freeSlots := rest
      tasks := s.tasks.set freeIdx (some (withRoot task id)) }, id)
  | [] =>
    let id : TaskId := ⟨s.tasks.length, 0⟩
    ({ s with
      tasks := s.tasks ++ [some (withRoot task id)]
      generations := s.generations ++ [0] }, id)

/-- Add a child to its parent, unless the parent's slot was reused. -/
def adoptChild (s : Scheduler) (parent : Option TaskId) (id : TaskId) : Scheduler :=
  match parent with
  | some parentId =>
    if s.gen parentId.slot = parentId.generation then
      s.modifyTask parentId.slot fun t => { t with children := t.children ++ [id] }
    else s
  | none => s

/-- One turn of the loop over the spawn queue. -/
def insertTask (s : Scheduler) (task : Task) : Scheduler :=
  let (s, id) := s.placeTask task
  let s := s.modifySlot task.slot fun slot => { slot with taskId := some id }
  let s := s.adoptChild task.parent id
  { s with activeCount := s.activeCount + 1, readyQueue := s.readyQueue ++ [id.slot] }

/-- Process pending spawn requests, in order. -/
def insertTasks (s : Scheduler) : List Task → Scheduler
  | [] => s
  | task :: rest => insertTasks (s.insertTask task) rest

def processSpawnQueue (s : Scheduler) : Scheduler :=
  insertTasks { s with spawnQueue := [] } s.spawnQueue

/-! ### Cancellation -/

/-- The first half of `cancel_task_internal`: mark the completion slot and take the children. -/
def markCancelled (s : Scheduler) (id : TaskId) (task : Task) : Scheduler :=
  (s.modifySlot task.slot TaskSlot.cancel).modifyTask id.slot fun t => { t with children := [] }

/-- `cancel_task_internal` with a bound on the depth of the recursion. -/
def cancelAux : Nat → TaskId → Scheduler → Scheduler
  | 0, _, s => s
  | fuel + 1, id, s =>
    match s.lookup id with
    | none => s
    | some task =>
      let marked := s.markCancelled id task
      let swept := task.children.foldl (fun s child => cancelAux fuel child s) marked
      (swept.freeTask id.slot).wakeTaken (s.takenWaker task.slot)

/-- Cancel a task and all its children, depth first. A task gives its children away before the
recursion enters them, so no path is longer than the table. -/
def cancelTaskInternal (s : Scheduler) (id : TaskId) : Scheduler :=
  cancelAux (s.tasks.length + 1) id s

/-- Drop an id from the children of the task in a slot. -/
def dropChild (s : Scheduler) (i : Nat) (id : TaskId) : Scheduler :=
  s.modifyTask i fun t => { t with children := t.children.filter (· ≠ id) }

/-- Drop an id from the children of the task in its parent's slot, whichever task that is. -/
def unlink (s : Scheduler) (parent : Option TaskId) (id : TaskId) : Scheduler :=
  match parent with
  | some parentId => s.dropChild parentId.slot id
  | none => s

/-- Drop an id from the children of its parent, unless the parent's slot was reused. -/
def unlinkChecked (s : Scheduler) (parent : Option TaskId) (id : TaskId) : Scheduler :=
  match parent with
  | some parentId =>
    if s.gen parentId.slot = parentId.generation then s.dropChild parentId.slot id else s
  | none => s

/-- Cancel a task and all its children; the flag says whether the task existed. -/
def cancelTask (s : Scheduler) (id : TaskId) : Scheduler × Bool :=
  match s.lookup id with
  | none => (s, false)
  | some task =>
    let s := (s.unlink task.parent id).cancelTaskInternal id
    ({ s with readyQueue := s.readyQueue.filter fun i => (s.task? i).isSome }, true)

/-! ### Polling -/

/-- Pop the first ready entry whose slot is occupied, with its task; the rest of the queue is
left. -/
def popReady (s : Scheduler) : List Nat → Option (Nat × Task) × List Nat
  | [] => (none, [])
  | i :: rest =>
    match s.task? i with
    | some task => (some (i, task), rest)
    | none => popReady s rest

/-- Set the context for the poll of the task in a slot. -/
def enterPoll (s : Scheduler) (i : Nat) (task : Task) : Scheduler :=
  { s with currentTask := some (s.keyAt i), currentRoot := task.root }

def leavePoll (s : Scheduler) : Scheduler :=
  { s with currentTask := none, currentRoot := none }

/-- The `Poll::Ready` branch: whatever task is in the slot now is completed with the result, its
children are cancelled, and the slot is freed. -/
def completeTask (s : Scheduler) (i : Nat) (result : TaskResult) : Scheduler :=
  match s.task? i with
  | none => s
  | some task =>
    let marked := s.modifySlot task.slot (TaskSlot.finish result)
    let swept := task.children.foldl cancelTaskInternal marked
    let unlinked := swept.unlinkChecked task.parent (swept.keyAt i)
    (unlinked.freeTask i).wakeTaken (s.takenWaker task.slot)

/-- Fire the timers that are due: their wakers go into the ready queue. -/
def fireTimers (s : Scheduler) (fired : List Nat) : Scheduler :=
  { s with readyQueue := s.readyQueue ++ fired }

def allTasksDone (s : Scheduler) : Bool := s.activeCount = 0

/-- The state that `run_step` returns. -/
def stepState (s : Scheduler) (madeProgress : Bool) : SchedulerState :=
  if s.allTasksDone then .done
  else if madeProgress then .progress
  else if !s.readyQueue.isEmpty || !s.spawnQueue.isEmpty then .progress
  else .blocked

/-! ### Task handles -/

/-- Poll the handle of a spawn; `none` is `Poll::Pending`. -/
def pollHandle (s : Scheduler) (k : Nat) (waker : Waker) : Option TaskResult × Scheduler :=
  match s.slot? k with
  | none => (none, s)
  | some slot =>
    if slot.resultTaken then (some alreadyTaken, s)
    else
      match slot.result with
      | some result => (some result, s.modifySlot k fun slot => { slot with result := none })
      | none => (none, s.modifySlot k fun slot => { slot with waker := some waker })

/-- Take the result without waiting. -/
def tryGet (s : Scheduler) (k : Nat) : Option TaskResult × Scheduler :=
  match (s.slot? k).bind (·.result) with
  | some result =>
    (some result, s.modifySlot k fun slot => { slot with result := none, resultTaken := true })
  | none => (none, s)

end Scheduler

end AmlaSandbox.Scheduling
