import AmlaSandbox.Library.Reachability
import AmlaSandbox.Scheduler.Ending
import AmlaSandbox.Scheduler.Valid

/-!
# The scheduler and the code that calls it

The host and the polled futures call the scheduler in any order, a future also from inside its own
poll. The machine keeps the stack of calls in progress. An event is one call, one turn of the loop
of a `run` in progress, or the return of the future that is polled on top of the stack.
-/

namespace AmlaSandbox.Scheduling

open Library

/-- A call in progress: a `run` with the context it saved, or the poll of the future of a spawn. The
poll remembers the slot it polls by the id its task had. -/
inductive Frame
  | run (savedTask savedRoot : Option TaskId)
  | poll (id : TaskId) (future : Nat)
deriving DecidableEq

/-- `spawner` tells, for each spawn, the future whose poll was innermost when it was made, and
`outputs` what each finished future returned. The code does not keep these two. -/
structure Machine where
  sched : Scheduler := {}
  stack : List Frame := []
  spawner : List (Option Nat) := []
  outputs : List (Nat × TaskResult) := []
deriving DecidableEq

/-- What can happen next. `fired` and `late` are the timers that are due when a step begins and when
it ends. -/
inductive Event
  | spawn
  | wake (waker : Waker)
  | pollHandle (handle : Nat) (waker : Waker)
  | tryGet (handle : Nat)
  | cancelTask (id : TaskId)
  | run
  | runStep (fired late : List Nat)
  | pollReturn (result : Option TaskResult) (late : List Nat)

/-- What a call returns to its caller. -/
inductive Output
  | state (state : SchedulerState)
  | resolved (handle : Nat) (result : TaskResult)
deriving DecidableEq

def Frame.poll? : Frame → Option (TaskId × Nat)
  | .poll id future => some (id, future)
  | .run _ _ => none

namespace Machine

variable (m : Machine)

/-- The poll whose future is being executed. -/
def top? : Option (TaskId × Nat) := m.stack.head?.bind Frame.poll?

/-- The polls in progress, innermost first. -/
def polls : List (TaskId × Nat) := m.stack.filterMap Frame.poll?

/-- A step of the scheduler is over. A `run` goes on until the state is final and then restores the
context of its caller. -/
def returnState (state : SchedulerState) : Machine × Option Output :=
  match m.stack with
  | .run savedTask savedRoot :: rest =>
    if state = .progress then (m, none)
    else
      ({ m with
          sched := { m.sched with currentTask := savedTask, currentRoot := savedRoot }
          stack := rest },
        some (.state state))
  | _ => (m, some (.state state))

/-- The scheduler once the timers and the spawn queue are processed. -/
def prepared (fired : List Nat) : Scheduler := (m.sched.fireTimers fired).processSpawnQueue

/-- `run_step` up to the poll of a future, or to its end when no task is ready. -/
def runStep (fired late : List Nat) : Machine × Option Output :=
  let s := m.prepared fired
  match s.popReady s.readyQueue with
  | (some (i, task), queue) =>
    ({ m with
        sched := ({ s with readyQueue := queue } : Scheduler).enterPoll i task
        stack := .poll (s.keyAt i) task.slot :: m.stack },
      none)
  | (none, queue) =>
    let s := ({ s with readyQueue := queue } : Scheduler).fireTimers late
    { m with sched := s }.returnState (s.stepState false)

/-- The scheduler once the polled future has returned: a result completes the task in the slot. -/
def returned (id : TaskId) (result : Option TaskResult) : Scheduler :=
  match result with
  | some result => m.sched.leavePoll.completeTask id.slot result
  | none => m.sched.leavePoll

/-- The rest of `run_step` once the polled future has returned. -/
def pollReturn (id : TaskId) (future : Nat) (rest : List Frame) (result : Option TaskResult)
    (late : List Nat) : Machine × Option Output :=
  let s := (m.returned id result).fireTimers late
  let outputs := m.outputs ++ (result.map (future, ·)).toList
  { m with sched := s, stack := rest, outputs }.returnState (s.stepState true)

/-- A call from the host or from the future on top. The loop of a `run` calls nothing but steps. -/
def call (result : Machine × Option Output) : Option (Machine × Option Output) :=
  match m.stack with
  | .run _ _ :: _ => none
  | _ => some result

/-- The effect of an event, if it can happen. -/
def step : Event → Option (Machine × Option Output)
  | .spawn =>
    m.call ({ m with sched := m.sched.spawn, spawner := m.spawner ++ [m.top?.map (·.2)] }, none)
  | .wake waker => m.call ({ m with sched := m.sched.wake waker }, none)
  | .pollHandle handle waker =>
    let (result, s) := m.sched.pollHandle handle waker
    m.call ({ m with sched := s }, result.map (.resolved handle))
  | .tryGet handle =>
    let (result, s) := m.sched.tryGet handle
    m.call ({ m with sched := s }, result.map (.resolved handle))
  | .cancelTask id => m.call ({ m with sched := (m.sched.cancelTask id).1 }, none)
  | .run =>
    m.call ({ m with stack := .run m.sched.currentTask m.sched.currentRoot :: m.stack }, none)
  | .runStep fired late => some (m.runStep fired late)
  | .pollReturn result late =>
    match m.stack with
    | .poll id future :: rest => some (m.pollReturn id future rest result late)
    | _ => none

/-- One event, whatever it returns. -/
def Step (m : Machine) (e : Event) (m' : Machine) : Prop := ∃ out, m.step e = some (m', out)

/-- The states of all runs of a new scheduler whose events meet a condition. -/
abbrev Reachable (ok : Machine → Event → Prop) (m : Machine) : Prop := Reach Step ok {} m

/-- Any event is admitted. -/
def anyEvent (_ : Machine) (_ : Event) : Prop := True

/-! ### Runs of given events -/

/-- The state after an event; an event that cannot happen is skipped. -/
def next (e : Event) : Machine := (m.step e).elim m Prod.fst

def exec (m : Machine) (events : List Event) : Machine := events.foldl next m

lemma next_step (m : Machine) (e : Event) : m.next e = m ∨ Step m e (m.next e) := by
  cases hstep : m.step e with
  | none => exact .inl (by rw [next, hstep, Option.elim_none])
  | some result =>
    have hnext : m.next e = result.1 := by rw [next, hstep, Option.elim_some]
    exact .inr ⟨result.2, by rw [hstep, hnext]⟩

lemma reach_exec {ok : Machine → Event → Prop} (events : List Event) (m : Machine)
    (h : Admits ok next m events) : Reach Step ok m (m.exec events) :=
  reach_foldl next_step events h

lemma reachable_exec (events : List Event) : Reachable anyEvent (exec {} events) :=
  reach_exec events {} (admits_of_forall (fun _ _ => trivial) events)

/-! ### What an event does, told from the state before it -/

/-- The task that ends with an event: the one it cancels, or the one in the slot whose poll returns
ready. -/
def ending : Event → Option TaskId
  | .cancelTask id => (m.sched.lookup id).map fun _ => id
  | .pollReturn (some _) _ =>
    m.top?.bind fun (id, _) => (m.sched.task? id.slot).map fun _ => m.sched.keyAt id.slot
  | _ => none

/-- The event removes the task of an id, as the one that ends or as a descendant of it. -/
def Ends (e : Event) (id : TaskId) : Prop := ∃ root, m.ending e = some root ∧ m.sched.Below root id

lemma not_ends {m : Machine} {e : Event} {id : TaskId} (h : m.ending e = none) : ¬ m.Ends e id :=
  fun ⟨_, hroot, _⟩ => by
    rw [h] at hroot
    cases hroot

/-- The poll that an event starts. -/
def polled : Event → Option (TaskId × Nat)
  | .runStep fired _ =>
    ((m.prepared fired).popReady (m.prepared fired).readyQueue).1.map fun (i, task) =>
      ((m.prepared fired).keyAt i, task.slot)
  | _ => none

/-- The polls in progress that an event does not end. -/
def remaining : Event → List (TaskId × Nat)
  | .pollReturn _ _ => m.polls.tail
  | _ => m.polls

/-- What the future on top returns with an event. -/
def produced : Event → List (Nat × TaskResult)
  | .pollReturn (some result) _ => (m.top?.map fun (_, future) => (future, result)).toList
  | _ => []

/-- The spawner of the spawn that an event makes. -/
def spawned : Event → List (Option Nat)
  | .spawn => [m.top?.map (·.2)]
  | _ => []

end Machine

end AmlaSandbox.Scheduling
