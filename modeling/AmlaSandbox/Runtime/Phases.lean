import AmlaSandbox.Runtime.Tracks

/-!
# The phases of a step

After a step every active command has a task whose result is not there yet, and the host has taken
every request.
-/

namespace AmlaSandbox.Runtimes

open Library Host

variable {Q : MinHeap Timer.TimerEntry Timer.TimerEntry.deadline} {o : Outside Q}
  {rt rt' : WorldRuntime o} {handle : CommandHandle} {k : TaskHandle}

namespace Runtime

/-- An active command has a task. -/
def HasTask (rt : WorldRuntime o) (handle : CommandHandle) : Prop :=
  ∀ cmd, rt.commands.lookup handle = some cmd → cmd.active → cmd.taskHandle.isSome

/-- No result waits for an active command. -/
def Reported (rt : WorldRuntime o) (handle : CommandHandle) : Prop :=
  ∀ cmd k, rt.commands.lookup handle = some cmd → cmd.active → cmd.taskHandle = some k →
    rt.world.Unresolved k

/-! ### Starting commands -/

/-- A command that has no task yet gets one. -/
def shellSpawned (rt : WorldRuntime o) (handle : CommandHandle) (cmd : CommandState) :
    WorldRuntime o :=
  ({ rt with
    engine := ((Runtimes.engine o).spawnShell handle cmd.command rt.engine).2 } :
      WorldRuntime o).setCommand handle { cmd with
    taskHandle := some rt.world.sched.sched.completions.length, execution := true }

lemma startCommand_cases (rt : WorldRuntime o) (handle : CommandHandle) :
    rt.startCommand handle = rt ∧ rt.HasTask handle ∨
      ∃ cmd, rt.commands.lookup handle = some cmd ∧ cmd.active ∧ cmd.taskHandle = none ∧
        rt.startCommand handle = rt.shellSpawned handle cmd := by
  rw [startCommand]
  split
  · next hnone =>
    refine .inl ⟨rfl, fun cmd hlookup => ?_⟩
    cases hnone.symm.trans hlookup
  · next cmd hlookup =>
    split_ifs with hskip
    · refine .inl ⟨rfl, fun cmd' hlookup' hactive => ?_⟩
      obtain rfl := Option.some.inj (hlookup.symm.trans hlookup')
      simpa [hactive] using hskip
    · simp only [Bool.or_eq_true, Bool.not_eq_true', not_or, Bool.not_eq_false,
        Option.not_isSome_iff_eq_none] at hskip
      exact .inr ⟨cmd, hlookup, hskip.1, hskip.2, rfl⟩

lemma Tracks.startCommand (h : Tracks rt) (handle : CommandHandle) :
    Tracks (rt.startCommand handle) := by
  rcases rt.startCommand_cases handle with ⟨heq, _⟩ | ⟨cmd, hlookup, hactive, hnone, heq⟩
  · rw [heq]
    exact h
  · obtain ⟨hstack, honward, hlength, hroots⟩ :=
      World.spawnShell_spec h.replays h.stack handle cmd.command
    rw [heq]
    have hnew : ∀ other cmd', rt.commands.lookup other = some cmd' →
        cmd'.taskHandle ≠ some rt.world.sched.sched.completions.length :=
      fun other cmd' hc htask => Nat.lt_irrefl _ (h.known other cmd' _ hc htask)
    refine ⟨h.replays.onward honward, hstack, ?_, ?_, ?_, ?_, ?_⟩
    · intro k hk
      rcases hroots k hk with hold | rfl
      · obtain ⟨other, cmd', hlookup', hactive', htask⟩ := h.owned k hold
        have hne : other ≠ handle := by
          rintro rfl
          obtain rfl := Option.some.inj (hlookup.symm.trans hlookup')
          cases hnone.symm.trans htask
        exact ⟨other, cmd', (AList.lookup_insert_ne hne).trans hlookup', hactive', htask⟩
      · exact ⟨handle, _, AList.lookup_insert rt.commands, hactive, rfl⟩
    · intro other cmd' k hlookup' htask
      show k < (rt.world.spawnShell handle cmd.command).2.sched.sched.completions.length
      rw [hlength]
      rcases lookup_setCommand hlookup' with ⟨rfl, rfl⟩ | ⟨_, hlookup'⟩
      · cases htask
        exact Nat.lt_succ_self _
      · exact Nat.lt_succ_of_lt (h.known other cmd' k hlookup' htask)
    · intro handle₁ handle₂ cmd₁ cmd₂ k hlookup₁ hlookup₂ htask₁ htask₂
      rcases lookup_setCommand hlookup₁ with ⟨rfl, rfl⟩ | ⟨_, hlookup₁⟩ <;>
        rcases lookup_setCommand hlookup₂ with ⟨rfl, rfl⟩ | ⟨_, hlookup₂⟩
      · rfl
      · cases htask₁
        exact absurd htask₂ (hnew _ _ hlookup₂)
      · cases htask₂
        exact absurd htask₁ (hnew _ _ hlookup₁)
      · exact h.distinct handle₁ handle₂ cmd₁ cmd₂ k hlookup₁ hlookup₂ htask₁ htask₂
    · intro other cmd' hlookup'
      rcases lookup_setCommand hlookup' with ⟨rfl, rfl⟩ | ⟨_, hlookup'⟩
      · rfl
      · exact h.execution other cmd' hlookup'
    · intro other cmd' hlookup'
      rcases lookup_setCommand hlookup' with ⟨rfl, rfl⟩ | ⟨_, hlookup'⟩
      · exact h.fresh other cmd hlookup
      · exact h.fresh other cmd' hlookup'

lemma hasTask_startCommand (rt : WorldRuntime o) (handle : CommandHandle) :
    (rt.startCommand handle).HasTask handle := by
  rcases rt.startCommand_cases handle with ⟨heq, htask⟩ | ⟨cmd, _, _, _, heq⟩
  · rwa [heq]
  · rw [heq]
    intro cmd' hlookup _
    obtain rfl := Option.some.inj ((AList.lookup_insert rt.commands).symm.trans hlookup)
    rfl

lemma HasTask.startCommand {other : CommandHandle} (h : rt.HasTask other)
    (handle : CommandHandle) : (rt.startCommand handle).HasTask other := by
  by_cases heq : other = handle
  · rw [heq]
    exact rt.hasTask_startCommand handle
  · rcases rt.startCommand_cases handle with ⟨hsame, _⟩ | ⟨cmd, _, _, _, hspawned⟩
    · rwa [hsame]
    · rw [hspawned]
      intro cmd' hlookup hactive
      exact h cmd' ((AList.lookup_insert_ne heq).symm.trans hlookup) hactive

/-- The state in which the second phase of a step begins. -/
def started (rt : WorldRuntime o) : WorldRuntime o := (rt.handles.foldl startCommand rt).now.2

lemma started_spec (h : Tracks rt) : Tracks rt.started ∧ ∀ handle, rt.started.HasTask handle := by
  obtain ⟨htracks, hall⟩ := forall_mem_foldl Runtime.startCommand (I := Tracks)
    (P := fun handle rt => rt.HasTask handle) (fun rt handle h => h.startCommand handle)
    (fun rt handle _ => rt.hasTask_startCommand handle)
    (fun rt handle other _ h => h.startCommand handle) rt.handles h
  refine ⟨htracks.beside (beside_now _), fun handle => ?_⟩
  apply hall
  by_cases hmem : handle ∈ rt.handles
  · exact .inl hmem
  · right
    intro cmd hlookup
    refine absurd ((o.order_perm rt.commands.keys).mem_iff.mpr ?_) hmem
    exact AList.mem_keys.mpr (AList.lookup_isSome.mp (by rw [hlookup]; rfl))

/-! ### The time of a step -/

lemma accumulateTime_cases (rt : WorldRuntime o) (elapsedNs : UInt64) (handle : CommandHandle) :
    rt.accumulateTime elapsedNs handle = rt ∨ ∃ cmd, rt.commands.lookup handle = some cmd ∧
      rt.accumulateTime elapsedNs handle =
        rt.setCommand handle { cmd with userTimeNs := cmd.userTimeNs + elapsedNs } := by
  rw [accumulateTime]
  split
  · exact .inl rfl
  · next cmd hlookup =>
    split_ifs
    · exact .inr ⟨cmd, hlookup, rfl⟩
    · exact .inl rfl

/-- Apart from the time that their commands used, two runtimes are the same. -/
structure Timed (rt rt' : WorldRuntime o) : Prop where
  world : rt'.world = rt.world
  nextHandle : rt'.nextHandle = rt.nextHandle
  commands : ∀ handle, ∃ time : CommandState → UInt64, rt'.commands.lookup handle =
    (rt.commands.lookup handle).map fun cmd => { cmd with userTimeNs := time cmd }

lemma Timed.refl (rt : WorldRuntime o) : Timed rt rt :=
  ⟨rfl, rfl, fun handle => ⟨(·.userTimeNs), by simp⟩⟩

lemma Timed.trans {rt'' : WorldRuntime o} (h : Timed rt rt') (h' : Timed rt' rt'') :
    Timed rt rt'' := by
  refine ⟨h'.world.trans h.world, h'.nextHandle.trans h.nextHandle, fun handle => ?_⟩
  obtain ⟨time, htime⟩ := h.commands handle
  obtain ⟨time', htime'⟩ := h'.commands handle
  refine ⟨fun cmd => time' { cmd with userTimeNs := time cmd }, ?_⟩
  rw [htime', htime, Option.map_map]
  rfl

lemma timed_accumulateTime (rt : WorldRuntime o) (elapsedNs : UInt64) (handle : CommandHandle) :
    Timed rt (rt.accumulateTime elapsedNs handle) := by
  rcases rt.accumulateTime_cases elapsedNs handle with heq | ⟨cmd, hlookup, heq⟩
  · rw [heq]
    exact .refl rt
  · rw [heq]
    refine ⟨rfl, rfl, fun other => ?_⟩
    by_cases hother : other = handle
    · subst hother
      refine ⟨fun cmd => cmd.userTimeNs + elapsedNs, ?_⟩
      rw [hlookup]
      exact AList.lookup_insert rt.commands
    · refine ⟨(·.userTimeNs), ?_⟩
      rw [show (rt.setCommand handle _).commands.lookup other = rt.commands.lookup other from
        AList.lookup_insert_ne hother]
      simp

lemma timed_foldl (elapsedNs : UInt64) (handles : List CommandHandle) (rt : WorldRuntime o) :
    Timed rt (handles.foldl (accumulateTime · elapsedNs) rt) := by
  induction handles generalizing rt with
  | nil => exact .refl rt
  | cons handle rest ih => exact (timed_accumulateTime rt elapsedNs handle).trans (ih _)

/-- A command of the later runtime is one of the earlier, with another time. -/
lemma Timed.lookup (h : Timed rt rt') {cmd' : CommandState}
    (hlookup : rt'.commands.lookup handle = some cmd') :
    ∃ cmd, rt.commands.lookup handle = some cmd ∧ cmd'.active = cmd.active ∧
      cmd'.taskHandle = cmd.taskHandle ∧ cmd'.execution = cmd.execution := by
  obtain ⟨time, htime⟩ := h.commands handle
  rw [htime] at hlookup
  obtain ⟨cmd, hcmd, rfl⟩ := Option.map_eq_some_iff.mp hlookup
  exact ⟨cmd, hcmd, rfl, rfl, rfl⟩

lemma Timed.lookup' (h : Timed rt rt') {cmd : CommandState}
    (hlookup : rt.commands.lookup handle = some cmd) :
    ∃ cmd', rt'.commands.lookup handle = some cmd' ∧ cmd'.active = cmd.active ∧
      cmd'.taskHandle = cmd.taskHandle := by
  obtain ⟨time, htime⟩ := h.commands handle
  rw [hlookup] at htime
  exact ⟨_, htime, rfl, rfl⟩

lemma Timed.tracks (h : Timed rt rt') (htracks : Tracks rt) : Tracks rt' := by
  refine ⟨?_, ?_, ?_, ?_, ?_, ?_, ?_⟩
  · rw [h.world]
    exact htracks.replays
  · rw [h.world]
    exact htracks.stack
  · rw [h.world]
    intro k hk
    obtain ⟨handle, cmd, hlookup, hactive, htask⟩ := htracks.owned k hk
    obtain ⟨cmd', hlookup', hactive', htask'⟩ := h.lookup' hlookup
    exact ⟨handle, cmd', hlookup', hactive'.trans hactive, htask'.trans htask⟩
  · rw [h.world]
    intro handle cmd' k hlookup' htask'
    obtain ⟨cmd, hlookup, _, htask, _⟩ := h.lookup hlookup'
    exact htracks.known handle cmd k hlookup (htask.symm.trans htask')
  · intro handle₁ handle₂ cmd₁ cmd₂ k hlookup₁ hlookup₂ htask₁ htask₂
    obtain ⟨cmd₁', hlookup₁', _, heq₁, _⟩ := h.lookup hlookup₁
    obtain ⟨cmd₂', hlookup₂', _, heq₂, _⟩ := h.lookup hlookup₂
    exact htracks.distinct handle₁ handle₂ cmd₁' cmd₂' k hlookup₁' hlookup₂'
      (heq₁.symm.trans htask₁) (heq₂.symm.trans htask₂)
  · intro handle cmd' hlookup'
    obtain ⟨cmd, hlookup, _, htask, hexecution⟩ := h.lookup hlookup'
    rw [hexecution, htask]
    exact htracks.execution handle cmd hlookup
  · intro handle cmd' hlookup'
    obtain ⟨cmd, hlookup, _⟩ := h.lookup hlookup'
    rw [h.nextHandle]
    exact htracks.fresh handle cmd hlookup

/-! ### Finishing commands -/

/-- The result of a task was asked for. -/
def queried (rt : WorldRuntime o) (k : TaskHandle) : WorldRuntime o :=
  { rt with engine := ((Runtimes.engine o).tryGet k rt.engine).2 }

/-- A command whose task has given its result. -/
def finished (rt : WorldRuntime o) (handle : CommandHandle) (cmd : CommandState)
    (k : TaskHandle) (code : Int32) : WorldRuntime o :=
  (rt.queried k).setCommand handle
    { cmd with exitCode := some code, taskHandle := none, execution := false }

lemma later_queried (rt : WorldRuntime o) (k : TaskHandle) :
    Later World.Aside rt (rt.queried k) := by
  have hmoves : World.Moves o.willWake World.Aside rt.world (rt.world.tryGet k).2 :=
    World.moves_tryGet rt.world k
  exact later_engine (.of_moves hmoves)

/-- Nothing is due, the result is not there yet, or the exit is reported. -/
lemma finishCommand_steps (rt : WorldRuntime o) (stepEndNs : UInt64) (handle : CommandHandle) :
    rt.finishCommand stepEndNs handle = ([], rt) ∧ rt.Reported handle ∨
      ∃ cmd k, rt.commands.lookup handle = some cmd ∧ cmd.active ∧ cmd.taskHandle = some k ∧
        ((rt.world.tryGet k).1 = none ∧
            rt.finishCommand stepEndNs handle = ([], rt.queried k) ∨
          ∃ result code, (rt.world.tryGet k).1 = some result ∧
            Beside (rt.finished handle cmd k code) (rt.finishCommand stepEndNs handle).2) := by
  rw [finishCommand]
  split
  · next hnone =>
    refine .inl ⟨rfl, fun cmd k hlookup => ?_⟩
    cases hnone.symm.trans hlookup
  · next cmd hlookup =>
    split_ifs with hidle
    · refine .inl ⟨rfl, fun cmd' k hlookup' hactive => ?_⟩
      obtain rfl := Option.some.inj (hlookup.symm.trans hlookup')
      simp [hactive] at hidle
    · split
      · next hnone =>
        refine .inl ⟨rfl, fun cmd' k hlookup' _ htask => ?_⟩
        obtain rfl := Option.some.inj (hlookup.symm.trans hlookup')
        cases hnone.symm.trans htask
      · next k htask =>
        refine .inr ⟨cmd, k, hlookup, by simpa using hidle, htask, ?_⟩
        have hfst : ((Runtimes.engine o).tryGet k rt.engine).1 = (rt.world.tryGet k).1 := rfl
        simp only [← hfst, finished, queried]
        generalize (Runtimes.engine o).tryGet k rt.engine = answer
        obtain ⟨_ | result, engine'⟩ := answer
        · exact .inl ⟨rfl, rfl⟩
        · exact .inr ⟨result, (exitOf result).1, rfl, beside_flushOutputAndExit _ _ _ _ _ _⟩

lemma timers_queried (rt : WorldRuntime o) (k : TaskHandle) :
    (rt.queried k).world.timers = rt.world.timers := by
  show (rt.world.tryGet k).2.timers = _
  rw [World.tryGet_snd]
  exact (World.schedule_frame rt.world _).1

/-- Where the second phase has ended. -/
structure Stepped (rt : WorldRuntime o) : Prop where
  tracks : Tracks rt
  placed : Placed rt
  handed : Handed rt.world
  hasTask : ∀ handle, rt.HasTask handle

namespace Stepped

/-- An active command refers to its scheduler. -/
lemma execution (h : Stepped rt) (handle : CommandHandle) (cmd : CommandState)
    (hlookup : rt.commands.lookup handle = some cmd) (hactive : cmd.active) : cmd.execution := by
  rw [h.tracks.execution handle cmd hlookup]
  exact h.hasTask handle cmd hlookup hactive

lemma aside (h : Stepped rt) (hlater : Later World.Aside rt rt')
    (htimers : rt'.world.timers = rt.world.timers) : Stepped rt' where
  tracks := h.tracks.aside hlater
  placed := h.placed.later h.tracks.replays hlater
  handed := by
    refine ⟨hlater.onward.stack.trans h.handed.stack, ?_, ?_⟩
    · rw [World.host, htimers]
      exact h.handed.pendingRequests
    · rw [htimers]
      exact h.handed.served
  hasTask handle := by
    rw [HasTask, hlater.commands]
    exact h.hasTask handle

lemma beside (h : Stepped rt) (hbeside : Beside rt rt') : Stepped rt' :=
  h.aside hbeside.later hbeside.timers

lemma timed (h : Stepped rt) (htimed : Timed rt rt') : Stepped rt' where
  tracks := htimed.tracks h.tracks
  placed handle cmd' k hlookup' htask' := by
    obtain ⟨cmd, hlookup, _, htask, _⟩ := htimed.lookup hlookup'
    rw [htimed.world]
    exact h.placed handle cmd k hlookup (htask.symm.trans htask')
  handed := by
    rw [htimed.world]
    exact h.handed
  hasTask handle cmd' hlookup' hactive' := by
    obtain ⟨cmd, hlookup, hactive, htask, _⟩ := htimed.lookup hlookup'
    rw [htask]
    exact h.hasTask handle cmd hlookup (hactive.symm.trans hactive')

lemma queried (h : Stepped rt) (k : TaskHandle) : Stepped (rt.queried k) :=
  h.aside (later_queried rt k) (timers_queried rt k)

/-- A task whose result was there is not active any more. -/
lemma finished (h : Stepped rt) {cmd : CommandState} {code : Int32}
    (hlookup : rt.commands.lookup handle = some cmd) (htask : cmd.taskHandle = some k)
    (hresult : (rt.world.tryGet k).1 ≠ none) : Stepped (rt.finished handle cmd k code) := by
  have hqueried := h.queried k
  have hgone : ¬ (rt.queried k).world.sched.RootActive k := by
    intro hactive
    have hbefore := h.tracks.replays.rootActive (later_queried rt k).within.onward hactive
    refine h.tracks.replays.not_active (fun hunresolved => hresult ?_) hbefore.2
    rw [World.tryGet_of_unresolved h.tracks.stack hunresolved]
  refine ⟨hqueried.tracks.setCommand (h.tracks.fresh handle cmd hlookup) rfl rfl ?_,
    hqueried.placed.setCommand (by simp), hqueried.handed, ?_⟩
  · intro cmd' k' hlookup' htask' hk'
    obtain rfl := Option.some.inj (hlookup.symm.trans hlookup')
    obtain rfl := Option.some.inj (htask.symm.trans htask')
    exact absurd hk' hgone
  · intro other cmd' hlookup' hactive'
    rcases lookup_setCommand hlookup' with ⟨rfl, rfl⟩ | ⟨_, hlookup'⟩
    · cases hactive'
    · exact h.hasTask other cmd' hlookup' hactive'

lemma finishCommand (h : Stepped rt) (stepEndNs : UInt64) (handle : CommandHandle) :
    Stepped (rt.finishCommand stepEndNs handle).2 := by
  rcases rt.finishCommand_steps stepEndNs handle with
    ⟨heq, _⟩ | ⟨cmd, k, hlookup, _, htask, ⟨_, heq⟩ | ⟨result, code, hresult, hbeside⟩⟩
  · rw [heq]
    exact h
  · rw [heq]
    exact h.queried k
  · exact (h.finished hlookup htask (by rw [hresult]; simp)).beside hbeside

end Stepped

/-! ### No result waits -/

lemma Reported.beside (h : rt.Reported handle) (hbeside : Beside rt rt') :
    rt'.Reported handle := by
  intro cmd k hlookup hactive htask
  rw [hbeside.commands] at hlookup
  rw [World.Unresolved, hbeside.sched]
  exact h cmd k hlookup hactive htask

lemma Reported.queried (h : rt.Reported handle) (hstack : rt.world.sched.stack = [])
    (k : TaskHandle) : (rt.queried k).Reported handle :=
  fun cmd k' hlookup hactive htask =>
    World.unresolved_tryGet hstack k (.inl (h cmd k' hlookup hactive htask))

lemma Reported.finishCommand {other : CommandHandle} (h : Stepped rt) (hother : rt.Reported other)
    (stepEndNs : UInt64) (handle : CommandHandle) :
    (rt.finishCommand stepEndNs handle).2.Reported other := by
  rcases rt.finishCommand_steps stepEndNs handle with
    ⟨heq, _⟩ | ⟨cmd, k, _, _, _, ⟨_, heq⟩ | ⟨result, code, _, hbeside⟩⟩
  · rwa [heq]
  · rw [heq]
    exact hother.queried h.tracks.stack k
  · refine Reported.beside (fun cmd' k' hlookup' hactive' htask' => ?_) hbeside
    rcases lookup_setCommand hlookup' with ⟨rfl, rfl⟩ | ⟨_, hlookup'⟩
    · cases htask'
    · exact hother.queried h.tracks.stack k cmd' k' hlookup' hactive' htask'

lemma reported_finishCommand (h : Stepped rt) (stepEndNs : UInt64) (handle : CommandHandle) :
    (rt.finishCommand stepEndNs handle).2.Reported handle := by
  rcases rt.finishCommand_steps stepEndNs handle with
    ⟨heq, hreported⟩ | ⟨cmd, k, hlookup, _, htask, ⟨_, heq⟩ | ⟨result, code, _, hbeside⟩⟩
  · rwa [heq]
  · rw [heq]
    intro cmd' k' hlookup' _ htask'
    obtain rfl := Option.some.inj (hlookup.symm.trans hlookup')
    obtain rfl := Option.some.inj (htask.symm.trans htask')
    exact World.unresolved_tryGet h.tracks.stack k (.inr rfl)
  · refine Reported.beside (fun cmd' k' hlookup' hactive' htask' => ?_) hbeside
    rcases lookup_setCommand hlookup' with ⟨_, rfl⟩ | ⟨hne, _⟩
    · cases htask'
    · exact absurd rfl hne

/-! ### A whole step -/

/-- The state in which the second phase of a step ends. -/
def ran (rt : WorldRuntime o) : WorldRuntime o := (runScheduler maxSteps rt.started).2

lemma maxSteps_eq : maxSteps = 9999 + 1 := rfl

/-- A step in its parts. -/
lemma step_parts (rt : WorldRuntime o) : ∃ elapsedNs stepEndNs,
    rt.step.1.hostOps = (runScheduler maxSteps rt.started).1 ++ (finishCommands stepEndNs rt.handles
        (rt.handles.foldl (accumulateTime · elapsedNs) rt.ran.now.2)).1 ∧
      rt.step.2 = (finishCommands stepEndNs rt.handles
        (rt.handles.foldl (accumulateTime · elapsedNs) rt.ran.now.2)).2 := by
  refine ⟨saturatingSub rt.ran.now.1 (rt.handles.foldl startCommand rt).now.1, rt.ran.now.1, ?_⟩
  rw [ran, started]
  simp only [step, and_self]

lemma later_ran (rt : WorldRuntime o) : Later World.Within rt.started rt.ran :=
  later_runScheduler maxSteps rt.started

lemma stepped_ran (h : Tracks rt) : Stepped rt.ran := by
  obtain ⟨hstarted, htask⟩ := started_spec h
  have hlater := rt.later_ran
  have hhanded : Handed rt.ran.world := by
    rw [ran, maxSteps_eq]
    exact handed_runScheduler 9999 hstarted.stack
  refine ⟨hstarted.later hlater hhanded.stack, ?_, hhanded, ?_⟩
  · intro handle cmd k hlookup htaskHandle
    rw [hlater.commands] at hlookup
    rw [ran, maxSteps_eq]
    exact taskId?_runScheduler 9999 hstarted.replays hstarted.stack
      (hstarted.known handle cmd k hlookup htaskHandle)
  · intro handle cmd hlookup
    rw [hlater.commands] at hlookup
    exact htask handle cmd hlookup

/-- A step works on all commands that are in the table when it ends its second phase. -/
lemma mem_handles_of_ran {cmd : CommandState} (hlookup : rt.ran.commands.lookup handle = some cmd) :
    handle ∈ rt.handles := by
  have hstart : ∀ (handles : List CommandHandle) (rt : WorldRuntime o),
      ((handles.foldl startCommand rt).commands.lookup handle).isSome →
        (rt.commands.lookup handle).isSome := by
    intro handles
    induction handles with
    | nil => exact fun _ h => h
    | cons first rest ih =>
      intro rt h
      have hfirst := ih (rt.startCommand first) h
      rcases rt.startCommand_cases first with ⟨heq, _⟩ | ⟨cmd', hlookup', _, _, heq⟩
      · rwa [heq] at hfirst
      · rw [heq] at hfirst
        obtain ⟨cmd, hcmd⟩ := Option.isSome_iff_exists.mp hfirst
        rcases lookup_setCommand hcmd with ⟨rfl, _⟩ | ⟨_, hcmd⟩
        · rw [hlookup']
          rfl
        · exact Option.isSome_of_eq_some hcmd
  rw [rt.later_ran.commands] at hlookup
  have hsome := hstart rt.handles rt (Option.isSome_of_eq_some hlookup)
  refine (o.order_perm rt.commands.keys).mem_iff.mpr ?_
  exact AList.mem_keys.mpr (AList.lookup_isSome.mp hsome)

/-- Where a step ends. -/
theorem step_spec (h : Tracks rt) :
    Stepped rt.step.2 ∧ ∀ handle, rt.step.2.Reported handle := by
  obtain ⟨elapsedNs, stepEndNs, _, hstep⟩ := rt.step_parts
  have htimed := timed_foldl elapsedNs rt.handles rt.ran.now.2
  have hran : Stepped rt.ran.now.2 := (stepped_ran h).beside (beside_now _)
  obtain ⟨hstepped, hall⟩ := forall_mem_foldl
    (fun rt handle => (rt.finishCommand stepEndNs handle).2) (I := Stepped)
    (P := fun handle rt => rt.Reported handle)
    (fun rt handle h => h.finishCommand stepEndNs handle)
    (fun rt handle h => reported_finishCommand h stepEndNs handle)
    (fun rt handle other h hother => hother.finishCommand h stepEndNs handle)
    rt.handles (hran.timed htimed)
  rw [hstep, finishCommands_snd]
  refine ⟨hstepped, fun handle => hall handle ?_⟩
  by_cases hmem : handle ∈ rt.handles
  · exact .inl hmem
  · right
    intro cmd k hlookup
    obtain ⟨cmd', hlookup', _⟩ := htimed.lookup hlookup
    rw [(beside_now rt.ran).commands] at hlookup'
    exact absurd (mem_handles_of_ran hlookup') hmem

end Runtime

end AmlaSandbox.Runtimes
