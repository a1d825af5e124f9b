import AmlaSandbox.Runtime.Phases
import AmlaSandbox.Timer.Sleep

/-!
# The status of a runtime

The status of a step is read off the flags of the commands and the lengths of two queues. It can be
relied on where no task outlives the command it belongs to, where the timers wait for nothing but
the host, and where a queue of ready tasks is not left with tasks that have ended.
-/

namespace AmlaSandbox.Runtimes

open Library Host

variable {Q : MinHeap Timer.TimerEntry Timer.TimerEntry.deadline} {o : Outside Q}
  {rt rt' : WorldRuntime o} {handle : CommandHandle} {k : TaskHandle}

namespace Runtime

/-! ### The status in terms of the commands -/

/-- Some command has not reported an exit. -/
def SomeActive (rt : WorldRuntime o) : Prop :=
  ∃ handle cmd, rt.commands.lookup handle = some cmd ∧ cmd.active

lemma mem_statuses {status : CommandStatus} :
    status ∈ rt.commands.entries.map (fun entry => rt.commandStatus entry.2) ↔
      ∃ handle cmd, rt.commands.lookup handle = some cmd ∧ rt.commandStatus cmd = status := by
  rw [List.mem_map]
  constructor
  · rintro ⟨⟨handle, cmd⟩, hmem, hstatus⟩
    exact ⟨handle, cmd, AList.mem_lookup_iff.mpr hmem, hstatus⟩
  · rintro ⟨handle, cmd, hlookup, hstatus⟩
    exact ⟨⟨handle, cmd⟩, AList.mem_lookup_iff.mp hlookup, hstatus⟩

/-- The status of a command that still refers to its scheduler while it is active. -/
lemma commandStatus_eq {cmd : CommandState} (hexecution : cmd.active → cmd.execution) :
    (rt.commandStatus cmd = .running ↔ cmd.active ∧ rt.world.hasReadyTasks) ∧
      (rt.commandStatus cmd = .needHostOps ↔ cmd.active ∧ ¬ rt.world.hasReadyTasks) := by
  have hready : (Runtimes.engine o).hasReadyTasks rt.engine = rt.world.hasReadyTasks := rfl
  rw [commandStatus, hready]
  simp only [CommandState.active] at hexecution ⊢
  cases hcancelled : cmd.cancelled <;> cases hexit : cmd.exitCode <;>
    cases hqueues : rt.world.hasReadyTasks <;> simp_all

/-- The status of a runtime whose active commands refer to their scheduler. -/
lemma collectStatus_iff
    (hexecution : ∀ handle cmd, rt.commands.lookup handle = some cmd → cmd.active →
      cmd.execution) :
    (rt.collectStatus = .running ↔ rt.SomeActive ∧ rt.world.hasReadyTasks) ∧
      (rt.collectStatus = .allBlocked ↔ rt.SomeActive ∧ ¬ rt.world.hasReadyTasks) ∧
      (rt.collectStatus = .allDone ↔ ¬ rt.SomeActive) := by
  have hrunning : .running ∈ rt.commands.entries.map (fun entry => rt.commandStatus entry.2) ↔
      rt.SomeActive ∧ rt.world.hasReadyTasks := by
    rw [mem_statuses]
    constructor
    · rintro ⟨handle, cmd, hlookup, hstatus⟩
      obtain ⟨hactive, hready⟩ := (commandStatus_eq (hexecution handle cmd hlookup)).1.mp hstatus
      exact ⟨⟨handle, cmd, hlookup, hactive⟩, hready⟩
    · rintro ⟨⟨handle, cmd, hlookup, hactive⟩, hready⟩
      exact ⟨handle, cmd, hlookup,
        (commandStatus_eq (hexecution handle cmd hlookup)).1.mpr ⟨hactive, hready⟩⟩
  have hblocked : .needHostOps ∈ rt.commands.entries.map (fun entry => rt.commandStatus entry.2) ↔
      rt.SomeActive ∧ ¬ rt.world.hasReadyTasks := by
    rw [mem_statuses]
    constructor
    · rintro ⟨handle, cmd, hlookup, hstatus⟩
      obtain ⟨hactive, hready⟩ := (commandStatus_eq (hexecution handle cmd hlookup)).2.mp hstatus
      exact ⟨⟨handle, cmd, hlookup, hactive⟩, hready⟩
    · rintro ⟨⟨handle, cmd, hlookup, hactive⟩, hready⟩
      exact ⟨handle, cmd, hlookup,
        (commandStatus_eq (hexecution handle cmd hlookup)).2.mpr ⟨hactive, hready⟩⟩
  rw [collectStatus]
  split_ifs with h₁ h₂
  · simp [hrunning.mp h₁]
  · have h := hblocked.mp h₂
    simp [h]
  · rw [hrunning] at h₁
    rw [hblocked] at h₂
    have hnone : ¬ rt.SomeActive := fun h => (em _).elim (fun hr => h₁ ⟨h, hr⟩) fun hr => h₂ ⟨h, hr⟩
    simp [hnone]

lemma status_step (rt : WorldRuntime o) : rt.step.1.status = rt.step.2.collectStatus := by
  simp only [step]

/-! ### Steps of a resting runtime -/

/-- A step has ended, and neither a task nor the host nor a timer has anything to do. -/
structure Resting (rt : WorldRuntime o) : Prop where
  stepped : Stepped rt
  reported : ∀ handle, rt.Reported handle
  quiet : rt.world.Quiet

/-- Nothing but the trace and what is kept beside the scheduler and the timers has changed. -/
structure Still (rt rt' : WorldRuntime o) : Prop where
  commands : rt'.commands = rt.commands
  sched : rt'.world.sched = rt.world.sched
  timers : rt'.world.timers = rt.world.timers

lemma Still.reported (h : Still rt rt') (hreported : rt.Reported handle) :
    rt'.Reported handle := by
  intro cmd k hlookup hactive htask
  rw [h.commands] at hlookup
  rw [World.Unresolved, h.sched]
  exact hreported cmd k hlookup hactive htask

/-- No command is started where each has a task. -/
lemma started_of_hasTask (h : ∀ handle, rt.HasTask handle) : rt.started = rt.now.2 := by
  have hstart : ∀ handle, rt.startCommand handle = rt := by
    intro handle
    rcases rt.startCommand_cases handle with ⟨heq, _⟩ | ⟨cmd, hlookup, hactive, hnone, _⟩
    · exact heq
    · have htask := h handle cmd hlookup hactive
      rw [hnone] at htask
      cases htask
  have hfold : ∀ handles : List CommandHandle, handles.foldl startCommand rt = rt := by
    intro handles
    induction handles with
    | nil => rfl
    | cons handle rest ih => rw [List.foldl_cons, hstart handle, ih]
  rw [started, hfold]

/-- The scheduler of a quiet world submits nothing. -/
lemma runScheduler_quiet (steps : Nat) (h : rt.world.Quiet) : runScheduler (steps + 1) rt =
    ([], { rt with engine := ((Runtimes.engine o).runStep rt.engine).2 }) := by
  obtain ⟨hstate, hquiet, _⟩ := h.runStep (o := o)
  have hprogress : ((Runtimes.engine o).runStep rt.engine).1 ≠ .progress := hstate
  have hlength : (Runtimes.engine o).queueLength ((Runtimes.engine o).runStep rt.engine).2 = 0 :=
    congrArg List.length hquiet.pendingRequests
  simp only [runScheduler]
  rw [if_neg hprogress, hlength]
  rfl

/-- Where no result waits, no exit is reported. -/
lemma finishCommands_still (stepEndNs : UInt64) (handles : List CommandHandle)
    (hstack : rt.world.sched.stack = []) (hreported : ∀ handle, rt.Reported handle) :
    (finishCommands stepEndNs handles rt).1 = [] ∧
      Still rt (finishCommands stepEndNs handles rt).2 := by
  induction handles generalizing rt with
  | nil => exact ⟨rfl, rfl, rfl, rfl⟩
  | cons handle rest ih =>
    have hfirst : (rt.finishCommand stepEndNs handle).1 = [] ∧
        Still rt (rt.finishCommand stepEndNs handle).2 := by
      rcases rt.finishCommand_steps stepEndNs handle with
        ⟨heq, _⟩ | ⟨cmd, k, hlookup, hactive, htask, hquery⟩
      · rw [heq]
        exact ⟨rfl, rfl, rfl, rfl⟩
      · have hget := World.tryGet_of_unresolved hstack
          (hreported handle cmd k hlookup hactive htask)
        rcases hquery with ⟨_, heq⟩ | ⟨result, code, hresult, _⟩
        · rw [heq]
          have hworld : (rt.queried k).world = (rt.world.tryGet k).2 := rfl
          refine ⟨rfl, rfl, ?_, ?_⟩
          · rw [hworld, hget]
          · rw [hworld, hget]
        · rw [hget] at hresult
          cases hresult
    obtain ⟨hops, hstill⟩ := hfirst
    obtain ⟨hops', hstill'⟩ := ih (hstill.sched ▸ hstack)
      fun other => hstill.reported (hreported other)
    simp only [finishCommands]
    exact ⟨by rw [hops, hops']; rfl, hstill'.commands.trans hstill.commands,
      hstill'.sched.trans hstill.sched, hstill'.timers.trans hstill.timers⟩

lemma quiet_congr {w w' : World Q} (h : w.Quiet)
    (hsched : w'.sched = w.sched) (htimers : w'.timers = w.timers) : w'.Quiet := by
  refine ⟨hsched ▸ h.stack, ?_, ?_, htimers ▸ h.served, htimers ▸ h.withHost⟩
  · rw [World.Idle, hsched]
    exact h.idle
  · rw [World.host, htimers]
    exact h.pendingRequests

/-- The second phase of a step of a resting runtime. -/
lemma Resting.ran (h : Resting rt) : (runScheduler maxSteps rt.started).1 = [] ∧
    rt.ran.world = (rt.now.2.world.runStep o).2 ∧ rt.ran.commands = rt.commands := by
  have hnow : rt.now.2.world.Quiet := quiet_congr h.quiet rfl rfl
  have hrun := runScheduler_quiet 9999 hnow
  have hstarted := started_of_hasTask h.stepped.hasTask
  rw [Runtime.ran, hstarted, maxSteps_eq, hrun]
  exact ⟨rfl, rfl, rfl⟩

/-- It leaves the world quiet and the results as they were. -/
lemma Resting.reported_ran (h : Resting rt) : rt.ran.world.Quiet ∧
    rt.ran.world.sched.sched.readyQueue = [] ∧ ∀ handle, rt.ran.Reported handle := by
  obtain ⟨_, hworld, hcommands⟩ := h.ran
  have hnow : rt.now.2.world.Quiet := quiet_congr h.quiet rfl rfl
  obtain ⟨_, hquiet, hready, hcompletions⟩ := hnow.runStep (o := o)
  rw [← hworld] at hquiet hready hcompletions
  refine ⟨hquiet, hready, fun handle cmd k hlookup hactive htask => ?_⟩
  rw [hcommands] at hlookup
  have hslot : rt.ran.world.sched.sched.slot? k = rt.world.sched.sched.slot? k := by
    rw [Scheduling.Scheduler.slot?, hcompletions]
    rfl
  rw [World.Unresolved, hslot]
  exact h.reported handle cmd k hlookup hactive htask

lemma Timed.reported (h : Timed rt rt') (hreported : rt.Reported handle) :
    rt'.Reported handle := by
  intro cmd k hlookup hactive htask
  obtain ⟨cmd', hlookup', hactive', htask', _⟩ := h.lookup hlookup
  rw [h.world]
  exact hreported cmd' k hlookup' (hactive' ▸ hactive) (htask' ▸ htask)

lemma Timed.someActive (h : Timed rt rt') : rt'.SomeActive ↔ rt.SomeActive := by
  constructor
  · rintro ⟨handle, cmd, hlookup, hactive⟩
    obtain ⟨cmd', hlookup', hactive', _⟩ := h.lookup hlookup
    exact ⟨handle, cmd', hlookup', hactive' ▸ hactive⟩
  · rintro ⟨handle, cmd, hlookup, hactive⟩
    obtain ⟨cmd', hlookup', hactive', _⟩ := h.lookup' hlookup
    exact ⟨handle, cmd', hlookup', hactive'.trans hactive⟩

/-- A step of a resting runtime submits nothing, and leaves it at rest. -/
theorem Resting.step (h : Resting rt) :
    rt.step.1.hostOps = [] ∧ Resting rt.step.2 ∧ rt.step.2.world.hasReadyTasks = false ∧
      (rt.step.2.SomeActive ↔ rt.SomeActive) := by
  obtain ⟨elapsedNs, stepEndNs, hops, hstep⟩ := rt.step_parts
  obtain ⟨hstepped, hreported⟩ := step_spec h.stepped.tracks
  obtain ⟨hnone, _, hcommands⟩ := h.ran
  obtain ⟨hquiet, hready, hran⟩ := h.reported_ran
  have hnow := beside_now rt.ran
  have htimed := timed_foldl elapsedNs rt.handles rt.ran.now.2
  generalize rt.handles.foldl (accumulateTime · elapsedNs) rt.ran.now.2 = timed at hops hstep htimed
  have hworld : timed.world.sched = rt.ran.world.sched ∧
      timed.world.timers = rt.ran.world.timers := by
    rw [htimed.world]
    exact ⟨hnow.sched, hnow.timers⟩
  obtain ⟨hexits, hstill⟩ := finishCommands_still stepEndNs rt.handles
    (by rw [hworld.1]; exact hquiet.stack) fun handle => htimed.reported ((hran handle).beside hnow)
  rw [← hstep] at hstill
  have hsched := hstill.sched.trans hworld.1
  refine ⟨by rw [hops, hexits, hnone]; rfl,
    ⟨hstepped, hreported, quiet_congr hquiet hsched (hstill.timers.trans hworld.2)⟩, ?_, ?_⟩
  · simp [World.hasReadyTasks, hsched, hready, hquiet.idle.1]
  · have hsome : rt.step.2.SomeActive ↔ timed.SomeActive := by
      rw [SomeActive, SomeActive, hstill.commands]
    rw [hsome, htimed.someActive, SomeActive, SomeActive, hnow.commands, hcommands]

/-! ### What the second phase leaves -/

lemma sameQueues_finishCommand (h : Stepped rt) (stepEndNs : UInt64) (handle : CommandHandle) :
    World.SameQueues rt.world (rt.finishCommand stepEndNs handle).2.world := by
  rcases rt.finishCommand_steps stepEndNs handle with
    ⟨heq, _⟩ | ⟨cmd, k, _, _, _, ⟨_, heq⟩ | ⟨result, code, _, hbeside⟩⟩
  · rw [heq]
    exact .of_sched rfl
  · rw [heq]
    exact World.sameQueues_tryGet h.tracks.stack k
  · exact (World.sameQueues_tryGet h.tracks.stack k).trans (.of_sched hbeside.sched)

/-- The task of every active command has given its result. -/
def AllResolved (rt : WorldRuntime o) : Prop :=
  ∀ handle cmd k, rt.commands.lookup handle = some cmd → cmd.active → cmd.taskHandle = some k →
    ¬ rt.world.Unresolved k

lemma AllResolved.finishCommand (h : Stepped rt) (hall : rt.AllResolved) (stepEndNs : UInt64)
    (handle : CommandHandle) : (rt.finishCommand stepEndNs handle).2.AllResolved := by
  rcases rt.finishCommand_steps stepEndNs handle with
    ⟨heq, _⟩ | ⟨cmd, k, hlookup, hactive, htask, ⟨hnone, _⟩ | ⟨result, code, _, hbeside⟩⟩
  · rwa [heq]
  · exact absurd (World.tryGet_eq_none h.tracks.stack hnone)
      (hall handle cmd k hlookup hactive htask)
  · intro other cmd' k' hlookup' hactive' htask'
    rw [hbeside.commands] at hlookup'
    rw [World.Unresolved, hbeside.sched]
    rcases lookup_setCommand hlookup' with ⟨rfl, rfl⟩ | ⟨hne, hlookup'⟩
    · cases htask'
    · -- no two commands have the same task
      have hk : k' ≠ k := by
        rintro rfl
        exact hne (h.tracks.distinct other handle cmd' cmd k' hlookup' hlookup htask' htask)
      exact fun hunresolved => hall other cmd' k' hlookup' hactive' htask'
        ((World.unresolved_tryGet_iff h.tracks.stack hk).mp hunresolved)

/-- The third phase leaves the queues alone, and reports all that has ended. -/
lemma step_of_ran (h : Tracks rt) : World.SameQueues rt.ran.world rt.step.2.world ∧
    (rt.ran.AllResolved → rt.step.2.AllResolved) := by
  obtain ⟨elapsedNs, stepEndNs, _, hstep⟩ := rt.step_parts
  have htimed := timed_foldl elapsedNs rt.handles rt.ran.now.2
  have hnow := beside_now rt.ran
  have hran : Stepped rt.ran.now.2 := (stepped_ran h).beside hnow
  have hstepped := hran.timed htimed
  generalize rt.handles.foldl (accumulateTime · elapsedNs) rt.ran.now.2 = timed
    at hstep htimed hstepped
  have hqueues : World.SameQueues rt.ran.world timed.world :=
    .of_sched ((congrArg World.sched htimed.world).trans hnow.sched)
  have hresolved : rt.ran.AllResolved → timed.AllResolved := by
    intro hall handle cmd k hlookup hactive htask
    obtain ⟨cmd', hlookup', hactive', htask', _⟩ := htimed.lookup hlookup
    rw [hnow.commands] at hlookup'
    rw [World.Unresolved, htimed.world, hnow.sched]
    exact hall handle cmd' k hlookup' (hactive' ▸ hactive) (htask' ▸ htask)
  rw [hstep, finishCommands_snd]
  have hfold := forall_mem_foldl (fun rt handle => (rt.finishCommand stepEndNs handle).2)
    (P := fun _ _ => True)
    (I := fun rt' : WorldRuntime o => Stepped rt' ∧ World.SameQueues rt.ran.world rt'.world ∧
      (rt.ran.AllResolved → rt'.AllResolved))
    (fun rt' handle h => ⟨h.1.finishCommand stepEndNs handle,
      h.2.1.trans (sameQueues_finishCommand h.1 stepEndNs handle),
      fun hall => (h.2.2 hall).finishCommand h.1 stepEndNs handle⟩)
    (fun _ _ _ => trivial) (fun _ _ _ _ _ => trivial) rt.handles ⟨hstepped, hqueues, hresolved⟩
  exact hfold.1.2

/-! ### When the status can be relied on -/

/-- After a step no task can be polled, unless the runtime is said to run. -/
lemma idle_of_status (h : Tracks rt)
    (hkeeps : ∀ entry ∈ rt.step.2.world.trace, entry.1.KeepsParents entry.2)
    (hstatus : rt.step.1.status ≠ .running) : rt.step.2.world.Idle := by
  obtain ⟨hstepped, _⟩ := step_spec h
  obtain ⟨hrunning, hblocked, hdone⟩ := collectStatus_iff hstepped.execution
  rw [status_step] at hstatus
  cases hcollect : rt.step.2.collectStatus with
  | running => exact absurd hcollect hstatus
  | allBlocked =>
    obtain ⟨_, hready⟩ := hblocked.mp hcollect
    simp only [World.hasReadyTasks, Bool.or_eq_true, Bool.not_eq_true', List.isEmpty_eq_false_iff,
      not_or, not_not] at hready
    refine ⟨hready.2, fun i hi => ?_⟩
    rw [hready.1] at hi
    cases hi
  | allDone =>
    -- every root has ended with its command, and every other task with its root
    have hnone := hdone.mp hcollect
    have hroot : ∀ k, ¬ rt.step.2.world.sched.RootActive k := by
      intro k hk
      obtain ⟨handle, cmd, hlookup, hactive, _⟩ := hstepped.tracks.owned k hk
      exact hnone ⟨handle, cmd, hlookup, hactive⟩
    exact World.idle_of_not_active (Scheduling.Machine.not_active_of_no_root
      (hstepped.tracks.replays.reachable hkeeps) hroot)

/-- The second phase does not leave the ready queue with tasks that have ended and no other, while
the task of some command goes on. -/
def LeavesWork (rt : WorldRuntime o) : Prop :=
  rt.ran.world.sched.sched.readyQueue = [] ∨ rt.ran.world.CanPoll ∨ rt.ran.AllResolved

/-- The state after so many further steps. -/
def afterSteps (rt : WorldRuntime o) : Nat → WorldRuntime o
  | 0 => rt
  | n + 1 => rt.step.2.afterSteps n

/-- The status of a step says whether the commands have ended, and whether tasks can be polled now
and in further steps. -/
structure Truthful (rt : WorldRuntime o) : Prop where
  done : rt.step.1.status = .allDone → ∀ handle cmd,
    rt.step.2.commands.lookup handle = some cmd → cmd.exitCode.isSome ∨ cmd.cancelled
  stable : rt.step.1.status ≠ .running → ∀ n,
    (rt.step.2.afterSteps n).step.1 = ⟨[], rt.step.1.status⟩ ∧
      ¬ (rt.step.2.afterSteps n).world.CanPoll
  running : rt.step.1.status = .running → rt.step.2.world.CanPoll

/-- The steps of a resting runtime. -/
lemma Resting.steps (h : Resting rt) {status : RuntimeStatus}
    (hstatus : status = .allDone ∧ ¬ rt.SomeActive ∨ status = .allBlocked ∧ rt.SomeActive)
    (n : Nat) :
    (rt.afterSteps n).step.1 = ⟨[], status⟩ ∧ ¬ (rt.afterSteps n).world.CanPoll := by
  induction n generalizing rt with
  | zero =>
    obtain ⟨hops, hrest, hready, hactive⟩ := h.step
    rw [afterSteps]
    refine ⟨?_, fun hpoll => World.canPoll_iff.mp hpoll h.quiet.idle⟩
    obtain ⟨_, hblocked, hdone⟩ := collectStatus_iff hrest.stepped.execution
    have heq : rt.step.1.status = status := by
      rw [status_step]
      rcases hstatus with ⟨rfl, hnone⟩ | ⟨rfl, hsome⟩
      · exact hdone.mpr fun hsome => hnone (hactive.mp hsome)
      · exact hblocked.mpr ⟨hactive.mpr hsome, by simp [hready]⟩
    rw [← hops, ← heq]
  | succ n ih =>
    obtain ⟨_, hrest, _, hactive⟩ := h.step
    rw [afterSteps]
    exact ih hrest (by rwa [hactive])

/-- The status of one step. -/
theorem truthful_of_tracks (h : Tracks rt)
    (hkeeps : ∀ entry ∈ rt.step.2.world.trace, entry.1.KeepsParents entry.2)
    (hwork : rt.LeavesWork) (hhost : rt.step.2.world.timers.timers.WithHost) : rt.Truthful := by
  obtain ⟨hstepped, hreported⟩ := step_spec h
  obtain ⟨hrunning, hblocked, hdone⟩ := collectStatus_iff hstepped.execution
  refine ⟨fun hstatus handle cmd hlookup => ?_, fun hstatus => ?_, fun hstatus => ?_⟩
  · rw [status_step] at hstatus
    by_contra hneither
    refine hdone.mp hstatus ⟨handle, cmd, hlookup, ?_⟩
    simpa [CommandState.active] using hneither
  · have hrest : Resting rt.step.2 := ⟨hstepped, hreported, hstepped.handed.stack,
      idle_of_status h hkeeps hstatus, hstepped.handed.pendingRequests,
      hstepped.handed.served, hhost⟩
    apply hrest.steps
    rw [status_step] at hstatus ⊢
    cases hcollect : rt.step.2.collectStatus with
    | running => exact absurd hcollect hstatus
    | allBlocked => exact .inr ⟨rfl, (hblocked.mp hcollect).1⟩
    | allDone => exact .inl ⟨rfl, hdone.mp hcollect⟩
  · rw [status_step] at hstatus
    obtain ⟨⟨handle, cmd, hlookup, hactive⟩, hready⟩ := hrunning.mp hstatus
    obtain ⟨hqueues, hresolved⟩ := step_of_ran h
    rw [World.CanPoll, hqueues.spawnQueue, hqueues.readyQueue]
    simp only [hqueues.task]
    rcases hwork with hempty | hpoll | hall
    · left
      simpa [World.hasReadyTasks, hqueues.readyQueue, hqueues.spawnQueue, hempty] using hready
    · exact hpoll
    · -- its result would have been reported
      obtain ⟨k, htask⟩ := Option.isSome_iff_exists.mp (hstepped.hasTask handle cmd hlookup hactive)
      exact absurd (hreported handle cmd k hlookup hactive htask)
        (hresolved hall handle cmd k hlookup hactive htask)

end Runtime

/-! ### Runs -/

/-- No command is deleted while it is active. -/
def Runtime.KeepsActive (rt : WorldRuntime o) : Event → Prop
  | .deleteCommand handle =>
    ∀ cmd, rt.commands.lookup handle = some cmd → cmd.active = false
  | _ => True

/-- A call in which no task outlives the task that spawned it, nor the command it belongs to. -/
def Orderly (run : Run (engine o)) (event : Event) : Prop :=
  World.Onward Scheduling.Machine.KeepsParents (Runtime.world run.runtime)
      (Runtime.world (run.apply event).runtime) ∧
    Runtime.KeepsActive run.runtime event

/-- One call on a runtime. -/
def Run.Calls (run : Run (engine o)) (event : Event) (run' : Run (engine o)) : Prop :=
  run' = run.apply event

/-- What holds of the runtime between two calls. -/
structure Kept (rt : WorldRuntime o) : Prop where
  tracks : rt.Tracks
  placed : rt.Placed
  keeps : ∀ entry ∈ rt.world.trace, entry.1.KeepsParents entry.2

lemma keeps_of_onward {w w' : World Q} (h : World.Onward Scheduling.Machine.KeepsParents w w')
    (hkeeps : ∀ entry ∈ w.trace, entry.1.KeepsParents entry.2) :
    ∀ entry ∈ w'.trace, entry.1.KeepsParents entry.2 := by
  obtain ⟨more, htrace, _, hmore⟩ := h
  rw [htrace]
  exact List.forall_mem_append.mpr ⟨hkeeps, hmore⟩

theorem Kept.apply {run : Run (engine o)} (h : Kept run.runtime) {event : Event}
    (hok : Orderly run event) : Kept (run.apply event).runtime := by
  obtain ⟨honward, hactive⟩ := hok
  have hkeeps := keeps_of_onward honward h.keeps
  cases event with
  | createCommand command =>
    exact ⟨h.tracks.createCommand command, h.placed.createCommand command, hkeeps⟩
  | step =>
    obtain ⟨hstepped, _⟩ := Runtime.step_spec h.tracks
    exact ⟨hstepped.tracks, hstepped.placed, hkeeps⟩
  | submitResults results =>
    have hlater := Runtime.later_submitResults results run.runtime
    exact ⟨h.tracks.aside hlater, h.placed.later h.tracks.replays hlater, hkeeps⟩
  | cancelCommand handle =>
    obtain ⟨htracks, hplaced⟩ := h.tracks.cancelCommand h.placed handle
    exact ⟨htracks, hplaced, hkeeps⟩
  | deleteCommand handle =>
    exact ⟨h.tracks.deleteCommand hactive, h.placed.deleteCommand handle, hkeeps⟩

lemma kept_of_reach {id : RuntimeId} {run : Run (engine o)}
    (h : Reach Run.Calls Orderly (Run.start id (.new Q)) run) : Kept run.runtime := by
  refine h.invariant (I := fun run => Kept run.runtime) ⟨Runtime.tracks_new id, ?_, ?_⟩ ?_
  · intro handle cmd k hlookup
    cases hlookup
  · intro entry hmem
    cases hmem
  · rintro run event run' hkept hok rfl
    exact hkept.apply hok

/-! ### Scripted futures -/

lemma onward_step (rt : WorldRuntime o) :
    World.Onward Scheduling.Machine.anyEvent rt.world rt.step.2.world := by
  have hstart : ∀ (handles : List CommandHandle) (rt : WorldRuntime o),
      World.Onward Scheduling.Machine.anyEvent rt.world
        (handles.foldl Runtime.startCommand rt).world := by
    intro handles
    induction handles with
    | nil => exact fun rt => .refl _
    | cons handle rest ih =>
      intro rt
      refine World.Onward.trans ?_ (ih (rt.startCommand handle))
      rcases rt.startCommand_cases handle with ⟨heq, _⟩ | ⟨cmd, _, _, _, heq⟩
      · rw [heq]
        exact .refl _
      · have hmoves : World.Moves o.willWake Scheduling.Machine.anyEvent rt.world
            (rt.world.spawnShell handle cmd.command).2 :=
          World.moves_spawnShell rt.world handle cmd.command
        rw [heq]
        exact .of_moves hmoves
  have hfinish : ∀ stepEndNs (handles : List CommandHandle) (rt : WorldRuntime o),
      World.Onward Scheduling.Machine.anyEvent rt.world
        (Runtime.finishCommands stepEndNs handles rt).2.world := by
    intro stepEndNs handles
    induction handles with
    | nil => exact fun rt => .refl _
    | cons handle rest ih =>
      intro rt
      refine World.Onward.trans ?_ (ih (rt.finishCommand stepEndNs handle).2)
      have hqueried : ∀ k, World.Onward Scheduling.Machine.anyEvent rt.world (rt.queried k).world :=
        fun k => (Runtime.later_queried rt k).onward.mono fun _ _ _ => trivial
      rcases rt.finishCommand_steps stepEndNs handle with
        ⟨heq, _⟩ | ⟨cmd, k, _, _, _, ⟨_, heq⟩ | ⟨result, code, _, hbeside⟩⟩
      · rw [heq]
        exact .refl _
      · rw [heq]
        exact hqueried k
      · exact (hqueried k).trans hbeside.later.onward
  obtain ⟨elapsedNs, stepEndNs, _, hstep⟩ := rt.step_parts
  have htimed := Runtime.timed_foldl elapsedNs rt.handles rt.ran.now.2
  have hran : World.Onward Scheduling.Machine.anyEvent rt.started.world rt.ran.world :=
    rt.later_ran.onward.mono fun _ _ _ => trivial
  have hend := hfinish stepEndNs rt.handles
    (rt.handles.foldl (Runtime.accumulateTime · elapsedNs) rt.ran.now.2)
  rw [htimed.world] at hend
  rw [hstep]
  have hnow : World.Onward Scheduling.Machine.anyEvent rt.ran.world rt.ran.now.2.world :=
    (Runtime.beside_now rt.ran).later.onward
  have hbegin : World.Onward Scheduling.Machine.anyEvent rt.world rt.started.world :=
    (hstart rt.handles rt).trans (Runtime.beside_now _).later.onward
  exact ((hbegin.trans hran).trans hnow).trans hend

/-- A call that neither runs the scheduler nor returns from a poll. -/
def GuestCall.plain : GuestCall → Bool
  | .spawn | .hostOp _ | .pollOp _ _ => true
  | _ => false

lemma World.stack_schedule (w : World Q) {e : Scheduling.Event}
    (he : e = .spawn ∨ ∃ waker, e = .wake waker) :
    (w.schedule e).2.sched.stack = w.sched.stack := by
  rcases World.schedule_cases w e with ⟨_, heq⟩ | ⟨m, out, hstep, heq⟩
  · rw [heq]
  · rw [heq]
    rcases he with rfl | ⟨waker, rfl⟩
    · obtain ⟨rfl, _⟩ := Prod.mk.inj (Scheduling.Machine.call_eq_some hstep)
      rfl
    · obtain ⟨rfl, _⟩ := Prod.mk.inj (Scheduling.Machine.call_eq_some hstep)
      rfl

lemma World.stack_timerEvent (willWake : Async.Waker → Async.Waker → Bool) (w : World Q)
    (e : Timer.Event) : (w.timerEvent willWake e).sched.stack = w.sched.stack := by
  have hwake : ∀ (wakers : List Async.Waker) (w : World Q),
      (w.wakeAll wakers).sched.stack = w.sched.stack := by
    intro wakers
    induction wakers with
    | nil => exact fun _ => rfl
    | cons waker rest ih => exact fun w => (ih _).trans (w.stack_schedule (.inr ⟨_, rfl⟩))
  exact hwake _ _

lemma World.stack_perform (willWake : Async.Waker → Async.Waker → Bool) (w : World Q)
    {call : GuestCall} (hcall : call.plain) :
    (w.perform willWake call).sched.stack = w.sched.stack := by
  cases call with
  | spawn =>
    simp only [World.perform]
    split_ifs
    · exact w.stack_schedule (.inl rfl)
    · rfl
  | hostOp kind =>
    simp only [World.perform, World.act]
    split_ifs
    · rfl
    · exact w.stack_timerEvent willWake _
    · rfl
  | pollOp i waker =>
    simp only [World.perform]
    split_ifs
    · exact w.stack_timerEvent willWake _
    · rfl
  | _ => cases hcall

/-- Futures that make the given calls in each poll and return the given results. -/
def scripted (calls : Nat → List GuestCall) (result : Nat → Option Scheduling.TaskResult)
    (hplain : ∀ n, ∀ call ∈ calls n, call.plain) : Outside Timer.Machine.listHeap where
  willWake := (· == ·)
  calls w := calls w.polls
  result w := result w.polls
  drops _ := []
  clock _ := 0
  order := id
  order_perm _ := .refl _
  returns w hlength := by
    have hall : ∀ (calls : List GuestCall), (∀ call ∈ calls, call.plain) →
        ∀ w : World Timer.Machine.listHeap,
          (w.performAll (· == ·) calls).sched.stack = w.sched.stack := by
      intro calls
      induction calls with
      | nil => exact fun _ _ => rfl
      | cons call rest ih =>
        intro hcalls w
        obtain ⟨hfirst, hrest⟩ := List.forall_mem_cons.mp hcalls
        exact (ih hrest _).trans (w.stack_perform _ hfirst)
    rw [hall _ (hplain _) w]
    exact hlength

/-- A shell that waits for the host in its first poll. -/
def waiting : Outside Timer.Machine.listHeap :=
  scripted (fun n => if n = 1 then [.hostOp (.print 1 [104, 105]), .pollOp 0 1] else [])
    (fun _ => none) (by intro n; split_ifs <;> simp [GuestCall.plain])

/-- A shell that starts a task in the background and ends in the same poll; the task prints. -/
def background : Outside Timer.Machine.listHeap :=
  scripted (fun n => if n = 1 then [.spawn] else [.hostOp (.print 1 [104, 105]), .pollOp 0 1])
    (fun n => if n = 1 then some (.ok ⟨0, {}⟩) else none)
    (by intro n; split_ifs <;> simp [GuestCall.plain])

/-- A new runtime in which a command was created. -/
def runOf (o : Outside Timer.Machine.listHeap) (command : String) : Run (engine o) :=
  (Run.start (E := engine o) 1 (.new Timer.Machine.listHeap)).exec [.createCommand command.toList]

/-- An event that ends no task, while no poll is in progress if it is a spawn. -/
def harmless (entry : Scheduling.Machine × Scheduling.Event) : Bool :=
  (entry.1.ending entry.2).isNone &&
    match entry.2 with
    | .spawn => entry.1.top?.isNone
    | _ => true

lemma keepsParents_of_harmless {entry : Scheduling.Machine × Scheduling.Event}
    (h : harmless entry) : entry.1.KeepsParents entry.2 := by
  obtain ⟨m, e⟩ := entry
  simp only [harmless, Bool.and_eq_true, Option.isNone_iff_eq_none] at h
  refine Scheduling.Machine.keepsParents_of_ending h.1 ?_
  rintro rfl poll hpoll
  rw [Option.isNone_iff_eq_none.mp h.2] at hpoll
  cases hpoll

/-- A step whose whole trace is harmless. -/
lemma orderly_step {run : Run (engine o)}
    (h : (Runtime.world run.runtime.step.2).trace.all harmless) : Orderly run .step := by
  obtain ⟨more, htrace, hrun, _⟩ := onward_step run.runtime
  refine ⟨⟨more, htrace, hrun, fun entry hmem => keepsParents_of_harmless ?_⟩, trivial⟩
  refine List.all_eq_true.mp h entry ?_
  rw [htrace]
  exact List.mem_append_right _ hmem

lemma orderly_createCommand (run : Run (engine o)) (command : Text) :
    Orderly run (.createCommand command) := by
  have hworld : Runtime.Later Scheduling.Machine.KeepsParents
      { run.runtime with commands := (run.runtime.createCommand command).2.commands
                         nextHandle := (run.runtime.createCommand command).2.nextHandle }
      (run.runtime.createCommand command).2 := by
    simp only [Runtime.createCommand]
    split_ifs <;> exact Runtime.Beside.later ⟨rfl, rfl, rfl, rfl, rfl⟩
  exact ⟨hworld.onward, trivial⟩

/-! ### The status of steps -/

/-- In every run in which no task outlives its parent and no active command is deleted, a step has a
truthful status if its second phase leaves work that can be done and the timers then wait for
nothing but the host. -/
theorem status_truthful {id : RuntimeId} {run : Run (engine o)}
    (h : Reach Run.Calls Orderly (Run.start id (.new Q)) run) (hstep : Orderly run .step)
    (hwork : Runtime.LeavesWork run.runtime)
    (hhost : (Runtime.world run.runtime.step.2).timers.timers.WithHost) :
    Runtime.Truthful run.runtime :=
  Runtime.truthful_of_tracks (kept_of_reach h).tracks
    (keeps_of_onward hstep.1 (kept_of_reach h).keeps) hwork hhost

/-- A command that waits for the host is blocked in this step, and still in the thousandth. -/
theorem status_truthful_waiting :
    (Runtime.afterSteps (runOf waiting "cat").runtime.step.2 1000).step.1 =
      ⟨[], .allBlocked⟩ := by
  have hreach : Reach Run.Calls Orderly (Run.start 1 (.new Timer.Machine.listHeap))
      (runOf waiting "cat") :=
    .tail .refl (orderly_createCommand _ "cat".toList) rfl
  have hfuture : (Runtime.world
      (runOf waiting "cat").runtime.step.2).timers.timers.wakeFuture?.isNone := by
    decide +kernel
  have htruthful := status_truthful hreach (orderly_step (by decide +kernel))
    (.inl (by decide +kernel)) fun f hf => by
      rw [Option.isNone_iff_eq_none.mp hfuture] at hf
      cases hf
  have hstatus : (runOf waiting "cat").runtime.step.1.status = .allBlocked := by decide +kernel
  have hstable := (htruthful.stable (by rw [hstatus]; decide) 1000).1
  rwa [hstatus] at hstable

/-- A background task whose spawn is queued when its command ends prints after all is done. -/
theorem orphan_prints_after_allDone :
    ¬ ∀ (o : Outside Timer.Machine.listHeap) (id : RuntimeId) (events : List Event),
      Runtime.Truthful ((Run.start (E := engine o) id (.new Timer.Machine.listHeap)).exec
        events).runtime := by
  intro h
  have hstable : Runtime.Truthful (runOf background "echo hi &").runtime :=
    h background 1 [.createCommand "echo hi &".toList]
  have hops : (Runtime.afterSteps (runOf background "echo hi &").runtime.step.2
      0).step.1.hostOps ≠ [] := by
    decide +kernel
  exact hops (congrArg StepResponse.hostOps (hstable.stable (by decide +kernel) 0).1)

end AmlaSandbox.Runtimes
