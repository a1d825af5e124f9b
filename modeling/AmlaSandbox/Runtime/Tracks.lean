import AmlaSandbox.Runtime.Ledger
import AmlaSandbox.Runtime.Owners

/-!
# Commands and their tasks

A runtime over the scheduler in its world. Every root that is active is the task of a command that
has not reported an exit, in all runs in which no such command is deleted.
-/

namespace AmlaSandbox.Runtimes

open Library Host

/-- A runtime over the scheduler in its world. -/
abbrev WorldRuntime {Q : MinHeap Timer.TimerEntry Timer.TimerEntry.deadline} (o : Outside Q) :=
  Runtime (engine o)

variable {Q : MinHeap Timer.TimerEntry Timer.TimerEntry.deadline} {o : Outside Q}
  {rt rt' : WorldRuntime o} {P P' : Scheduling.Machine → Scheduling.Event → Prop}
  {handle : CommandHandle} {k : TaskHandle}

namespace Runtime

/-- The scheduler of a runtime, in its world. -/
def world (rt : WorldRuntime o) : World Q := Subtype.val (p := World.NoExit) rt.engine

/-! ### What does not touch the commands -/

/-- The scheduler has moved on; the commands are the same. -/
structure Later (P : Scheduling.Machine → Scheduling.Event → Prop) (rt rt' : WorldRuntime o) :
    Prop where
  commands : rt'.commands = rt.commands
  nextHandle : rt'.nextHandle = rt.nextHandle
  onward : World.Onward P rt.world rt'.world

namespace Later

lemma refl (rt : WorldRuntime o) : Later P rt rt := ⟨rfl, rfl, .refl _⟩

lemma trans {rt'' : WorldRuntime o} (h : Later P rt rt') (h' : Later P rt' rt'') :
    Later P rt rt'' :=
  ⟨h'.commands.trans h.commands, h'.nextHandle.trans h.nextHandle, h.onward.trans h'.onward⟩

lemma mono (h : Later P rt rt') (himp : ∀ m e, P m e → P' m e) : Later P' rt rt' :=
  ⟨h.commands, h.nextHandle, h.onward.mono himp⟩

end Later

/-- Nothing has changed but what is kept beside the scheduler and the timers. -/
structure Beside (rt rt' : WorldRuntime o) : Prop where
  commands : rt'.commands = rt.commands
  nextHandle : rt'.nextHandle = rt.nextHandle
  sched : rt'.world.sched = rt.world.sched
  timers : rt'.world.timers = rt.world.timers
  trace : rt'.world.trace = rt.world.trace

namespace Beside

lemma refl (rt : WorldRuntime o) : Beside rt rt := ⟨rfl, rfl, rfl, rfl, rfl⟩

lemma trans {rt'' : WorldRuntime o} (h : Beside rt rt') (h' : Beside rt' rt'') : Beside rt rt'' :=
  ⟨h'.commands.trans h.commands, h'.nextHandle.trans h.nextHandle, h'.sched.trans h.sched,
    h'.timers.trans h.timers, h'.trace.trans h.trace⟩

lemma later (h : Beside rt rt') : Later P rt rt' := by
  refine ⟨h.commands, h.nextHandle, [], ?_, ?_, fun _ hmem => absurd hmem List.not_mem_nil⟩
  · rw [List.append_nil]
    exact h.trace
  · rw [h.sched]
    exact .nil

end Beside

lemma beside_now (rt : WorldRuntime o) : Beside rt rt.now.2 := ⟨rfl, rfl, rfl, rfl, rfl⟩

lemma beside_flushStream (rt : WorldRuntime o) (handle : CommandHandle) (stream : UInt8)
    (streamName : String) : Beside rt (rt.flushStream handle stream streamName).2 := by
  simp only [flushStream]
  split_ifs <;> exact ⟨rfl, rfl, rfl, rfl, rfl⟩

lemma beside_flushError (rt : WorldRuntime o) (handle : CommandHandle) (errorMsg : Option String) :
    Beside rt (rt.flushError handle errorMsg).2 := by
  cases errorMsg <;> exact ⟨rfl, rfl, rfl, rfl, rfl⟩

lemma beside_flushOutputAndExit (rt : WorldRuntime o) (cmd : CommandState) (handle : CommandHandle)
    (exitCode : Int32) (errorMsg : Option String) (currentTimeNs : UInt64) :
    Beside rt (rt.flushOutputAndExit cmd handle exitCode errorMsg currentTimeNs).2 := by
  obtain ⟨hcommands, hnext, hsched, htimers, htrace⟩ :=
    ((beside_flushStream rt handle 1 "stdout").trans (beside_flushStream _ handle 2 "stderr")).trans
      (beside_flushError _ handle errorMsg)
  exact ⟨hcommands, hnext, hsched, htimers, htrace⟩

/-! ### Calls of the host channel -/

lemma later_engine {engine' : (Runtimes.engine o).State}
    (h : World.Onward P rt.world (Subtype.val (p := World.NoExit) engine')) :
    Later P rt { rt with engine := engine' } :=
  ⟨rfl, rfl, h⟩

lemma world_completeSilently (rt : WorldRuntime o) (id : HostOpId) :
    (rt.completeSilently id).world = rt.world.hostCall o id (.complete (.ok [])) := rfl

/-- A submitted operation is exposed, or answered at once. -/
lemma collectOp_cases (rt : WorldRuntime o) (req : HostOpRequest) :
    Beside rt (rt.collectOp req).2 ∨ (rt.collectOp req).2 = rt.completeSilently req.id := by
  simp only [collectOp]
  split
  · exact .inr rfl
  · split
    · split_ifs
      · exact .inr rfl
      · exact .inl ⟨rfl, rfl, rfl, rfl, rfl⟩
    · exact .inl (.refl rt)

lemma later_collectOp (rt : WorldRuntime o) (req : HostOpRequest) :
    Later World.Aside rt (rt.collectOp req).2 := by
  rcases rt.collectOp_cases req with hbeside | heq
  · exact hbeside.later
  · rw [heq]
    exact later_engine (.of_moves (World.moves_hostCall rt.world req.id _))

lemma later_takeHostOp (rt : WorldRuntime o) :
    Later World.Aside rt
      { rt with engine := ((Runtimes.engine o).takeHostOp rt.engine).2 } :=
  later_engine (.of_moves (World.moves_takeHostOp rt.world))

lemma pendingRequests_collectOp (rt : WorldRuntime o) (req : HostOpRequest) :
    (rt.collectOp req).2.world.host.chan.pendingRequests =
      rt.world.host.chan.pendingRequests := by
  rcases rt.collectOp_cases req with hbeside | heq
  · rw [World.host, hbeside.timers]
    rfl
  · rw [heq, world_completeSilently]
    exact World.pendingRequests_hostCall _ _ _

lemma served_collectOp {req : HostOpRequest} (h : rt.world.timers.timers.Served) :
    (rt.collectOp req).2.world.timers.timers.Served := by
  rcases rt.collectOp_cases req with hbeside | heq
  · rw [hbeside.timers]
    exact h
  · rw [heq, world_completeSilently]
    exact World.served_hostEvent h _

/-- One turn of the loop that takes the submitted operations. -/
lemma collectOps_succ (fuel : Nat) (rt : WorldRuntime o) :
    (collectOps (fuel + 1) rt).2 =
      let taken : WorldRuntime o :=
        { rt with engine := ((Runtimes.engine o).takeHostOp rt.engine).2 }
      match (rt.world.takeHostOp o).1 with
      | none => taken
      | some req => (collectOps fuel (taken.collectOp req).2).2 := by
  rw [collectOps]
  have hfst : ((Runtimes.engine o).takeHostOp rt.engine).1 = (rt.world.takeHostOp o).1 := rfl
  rw [← hfst]
  generalize (Runtimes.engine o).takeHostOp rt.engine = taken
  obtain ⟨_ | req, engine'⟩ := taken <;> rfl

/-- What taking an operation and exposing it keep, the whole loop keeps. -/
lemma collectOps_induction {I : WorldRuntime o → Prop}
    (htake : ∀ rt : WorldRuntime o, I rt →
      I { rt with engine := ((Runtimes.engine o).takeHostOp rt.engine).2 })
    (hcollect : ∀ (rt : WorldRuntime o) req, I rt → I (rt.collectOp req).2) (fuel : Nat)
    (rt : WorldRuntime o) (h : I rt) : I (collectOps fuel rt).2 := by
  induction fuel generalizing rt with
  | zero => exact h
  | succ fuel ih =>
    rw [collectOps_succ]
    dsimp only
    split
    · exact htake rt h
    · exact ih _ (hcollect _ _ (htake rt h))

lemma later_collectOps (fuel : Nat) (rt : WorldRuntime o) :
    Later World.Aside rt (collectOps fuel rt).2 :=
  collectOps_induction (I := Later World.Aside rt) (fun rt' h => h.trans (later_takeHostOp rt'))
    (fun rt' req h => h.trans (later_collectOp rt' req)) fuel rt (.refl rt)

lemma served_collectOps (fuel : Nat) (h : rt.world.timers.timers.Served) :
    (collectOps fuel rt).2.world.timers.timers.Served :=
  collectOps_induction (I := fun rt => rt.world.timers.timers.Served)
    (fun _ h => World.served_hostEvent h _) (fun _ _ h => served_collectOp h) fuel rt h

/-- The loop empties the queue. -/
lemma pendingRequests_collectOps {fuel : Nat} {rt : WorldRuntime o}
    (h : rt.world.host.chan.pendingRequests.length ≤ fuel) :
    (collectOps fuel rt).2.world.host.chan.pendingRequests = [] := by
  induction fuel generalizing rt with
  | zero => exact List.eq_nil_of_length_eq_zero (Nat.le_zero.mp h)
  | succ fuel ih =>
    obtain ⟨hlength, hempty⟩ := World.pendingRequests_takeHostOp (o := o) rt.world
    rw [collectOps_succ]
    dsimp only
    split
    · next hnone => exact hempty hnone
    · apply ih
      rw [pendingRequests_collectOp]
      exact Nat.le_trans hlength (Nat.sub_le_of_le_add h)

/-! ### The second phase of a step -/

/-- One step of the scheduler, and the requests that it submitted are taken. -/
def turn (rt : WorldRuntime o) : WorldRuntime o :=
  let engine' := ((Runtimes.engine o).runStep rt.engine).2
  (collectOps ((Runtimes.engine o).queueLength engine') { rt with engine := engine' }).2

lemma runScheduler_succ (steps : Nat) (rt : WorldRuntime o) :
    (runScheduler (steps + 1) rt).2 =
      if (rt.world.runStep o).1 = .progress then (runScheduler steps rt.turn).2 else rt.turn := by
  have hstate : ((Runtimes.engine o).runStep rt.engine).1 = (rt.world.runStep o).1 := rfl
  simp only [runScheduler]
  rw [hstate]
  split_ifs <;> rfl

lemma later_runStep (rt : WorldRuntime o) : Later World.Within rt
    { rt with engine := ((Runtimes.engine o).runStep rt.engine).2 } :=
  later_engine (.of_moves (World.moves_runStep rt.world))

lemma Later.within (h : Later World.Aside rt rt') : Later World.Within rt rt' :=
  h.mono World.within_of_aside

lemma later_turn (rt : WorldRuntime o) : Later World.Within rt rt.turn :=
  (later_runStep rt).trans (later_collectOps _ _).within

lemma later_runScheduler (steps : Nat) (rt : WorldRuntime o) :
    Later World.Within rt (runScheduler steps rt).2 := by
  induction steps generalizing rt with
  | zero => exact .refl rt
  | succ steps ih =>
    rw [runScheduler_succ]
    split_ifs
    · exact (later_turn rt).trans (ih rt.turn)
    · exact later_turn rt

/-- No poll is in progress, the host has taken every request and the timers have been processed. -/
structure Handed (w : World Q) : Prop where
  stack : w.sched.stack = []
  pendingRequests : w.host.chan.pendingRequests = []
  served : w.timers.timers.Served

lemma handed_turn (hstack : rt.world.sched.stack = []) : Handed rt.turn.world := by
  obtain ⟨hstack', hserved⟩ := World.runStep_spec (o := o) hstack
  refine ⟨?_, pendingRequests_collectOps (Nat.le_refl _), served_collectOps _ hserved⟩
  exact (later_collectOps _ _).onward.stack.trans hstack'

lemma handed_runScheduler (steps : Nat) (hstack : rt.world.sched.stack = []) :
    Handed (runScheduler (steps + 1) rt).2.world := by
  induction steps generalizing rt with
  | zero =>
    rw [runScheduler_succ]
    split_ifs <;> exact handed_turn hstack
  | succ steps ih =>
    rw [runScheduler_succ]
    split_ifs
    · exact ih (handed_turn hstack).stack
    · exact handed_turn hstack

/-- All that was spawned before has an id after the second phase. -/
lemma taskId?_runScheduler (steps : Nat) (hw : rt.world.Replays)
    (hstack : rt.world.sched.stack = []) (hk : k < rt.world.sched.sched.completions.length) :
    ((runScheduler (steps + 1) rt).2.world.sched.sched.taskId? k).isSome := by
  obtain ⟨id, hid⟩ := Option.isSome_iff_exists.mp (World.taskId?_runStep (o := o) hw hstack hk)
  have hrun : World.Replays (rt.world.runStep o).2 := hw.onward (later_runStep rt).onward
  have hturn : rt.turn.world.sched.sched.taskId? k = some id :=
    hrun.taskId? (later_collectOps _ _).onward hid
  rw [runScheduler_succ]
  split_ifs
  · have hlater := (later_runScheduler steps rt.turn).onward
    rw [(hw.onward (later_turn rt).onward).taskId? hlater hturn]
    rfl
  · rw [hturn]
    rfl

/-! ### The tasks of the commands -/

/-- Each root that is active is the task of a command that has not reported an exit. -/
structure Tracks (rt : WorldRuntime o) : Prop where
  replays : rt.world.Replays
  stack : rt.world.sched.stack = []
  owned : ∀ k, rt.world.sched.RootActive k → ∃ handle cmd,
    rt.commands.lookup handle = some cmd ∧ cmd.active ∧ cmd.taskHandle = some k
  known : ∀ handle cmd k, rt.commands.lookup handle = some cmd → cmd.taskHandle = some k →
    k < rt.world.sched.sched.completions.length
  distinct : ∀ handle handle' cmd cmd' k, rt.commands.lookup handle = some cmd →
    rt.commands.lookup handle' = some cmd' → cmd.taskHandle = some k → cmd'.taskHandle = some k →
      handle = handle'
  execution : ∀ handle cmd, rt.commands.lookup handle = some cmd →
    cmd.execution = cmd.taskHandle.isSome
  fresh : ∀ handle cmd, rt.commands.lookup handle = some cmd → handle < rt.nextHandle

/-- The tasks of the commands have been inserted into the table of the scheduler. -/
def Placed (rt : WorldRuntime o) : Prop :=
  ∀ handle cmd k, rt.commands.lookup handle = some cmd → cmd.taskHandle = some k →
    (rt.world.sched.sched.taskId? k).isSome

lemma lookup_setCommand {cmd cmd' : CommandState} {h : CommandHandle}
    (hc : (rt.setCommand handle cmd').commands.lookup h = some cmd) :
    (h = handle ∧ cmd = cmd') ∨ (h ≠ handle ∧ rt.commands.lookup h = some cmd) :=
  Ledger.lookup_setCommand (l := rt.ledger) hc

namespace Tracks

/-- The scheduler moves on by itself. -/
lemma later (h : Tracks rt) (hlater : Later World.Within rt rt')
    (hstack : rt'.world.sched.stack = []) : Tracks rt' where
  replays := h.replays.onward hlater.onward
  stack := hstack
  owned k hk := by
    rw [hlater.commands]
    exact h.owned k (h.replays.rootActive hlater.onward hk)
  known handle cmd k hlookup htask := by
    rw [hlater.commands] at hlookup
    exact Nat.lt_of_lt_of_le (h.known handle cmd k hlookup htask)
      (hlater.onward.length_completions h.replays)
  distinct := by
    rw [hlater.commands]
    exact h.distinct
  execution handle cmd hlookup := by
    rw [hlater.commands] at hlookup
    exact h.execution handle cmd hlookup
  fresh handle cmd hlookup := by
    rw [hlater.commands] at hlookup
    rw [hlater.nextHandle]
    exact h.fresh handle cmd hlookup

lemma aside (h : Tracks rt) (hlater : Later World.Aside rt rt') : Tracks rt' :=
  h.later hlater.within (hlater.onward.stack.trans h.stack)

lemma beside (h : Tracks rt) (hbeside : Beside rt rt') : Tracks rt' := h.aside hbeside.later

/-- A command has no task any more, and none that was its own is active. -/
lemma setCommand (h : Tracks rt) {cmd' : CommandState} (hfresh : handle < rt.nextHandle)
    (hexecution : cmd'.execution = false) (htask' : cmd'.taskHandle = none)
    (hold : ∀ cmd k, rt.commands.lookup handle = some cmd → cmd.taskHandle = some k →
      ¬ rt.world.sched.RootActive k) : Tracks (rt.setCommand handle cmd') where
  replays := h.replays
  stack := h.stack
  owned k hk := by
    obtain ⟨other, cmd, hlookup, hactive, htask⟩ := h.owned k hk
    by_cases heq : other = handle
    · subst heq
      exact absurd hk (hold cmd k hlookup htask)
    · exact ⟨other, cmd, (AList.lookup_insert_ne heq).trans hlookup, hactive, htask⟩
  known other cmd k hlookup htask := by
    rcases lookup_setCommand hlookup with ⟨rfl, rfl⟩ | ⟨_, hlookup⟩
    · cases htask'.symm.trans htask
    · exact h.known other cmd k hlookup htask
  distinct handle₁ handle₂ cmd₁ cmd₂ k hlookup₁ hlookup₂ htask₁ htask₂ := by
    rcases lookup_setCommand hlookup₁ with ⟨rfl, rfl⟩ | ⟨_, hlookup₁⟩
    · cases htask'.symm.trans htask₁
    · rcases lookup_setCommand hlookup₂ with ⟨rfl, rfl⟩ | ⟨_, hlookup₂⟩
      · cases htask'.symm.trans htask₂
      · exact h.distinct handle₁ handle₂ cmd₁ cmd₂ k hlookup₁ hlookup₂ htask₁ htask₂
  execution other cmd hlookup := by
    rcases lookup_setCommand hlookup with ⟨rfl, rfl⟩ | ⟨_, hlookup⟩
    · rw [hexecution, htask']
      rfl
    · exact h.execution other cmd hlookup
  fresh other cmd hlookup := by
    rcases lookup_setCommand hlookup with ⟨rfl, rfl⟩ | ⟨_, hlookup⟩
    · exact hfresh
    · exact h.fresh other cmd hlookup

end Tracks

namespace Placed

lemma later (h : Placed rt) (hw : rt.world.Replays) (hlater : Later P rt rt') : Placed rt' := by
  intro handle cmd k hlookup htask
  rw [hlater.commands] at hlookup
  obtain ⟨id, hid⟩ := Option.isSome_iff_exists.mp (h handle cmd k hlookup htask)
  rw [hw.taskId? hlater.onward hid]
  rfl

lemma setCommand (h : Placed rt) {cmd' : CommandState}
    (hplaced : ∀ k, cmd'.taskHandle = some k → (rt.world.sched.sched.taskId? k).isSome) :
    Placed (rt.setCommand handle cmd') := by
  intro other c k hc htask
  rcases lookup_setCommand hc with ⟨rfl, rfl⟩ | ⟨_, hc⟩
  · exact hplaced k htask
  · exact h other c k hc htask

end Placed

/-! ### The calls but for a step -/

lemma tracks_new (id : RuntimeId) : Tracks (Runtime.new (E := Runtimes.engine o) id (.new Q)) where
  replays := .nil
  stack := rfl
  owned k hk := by
    obtain ⟨hroot, _⟩ := hk
    cases hroot
  known _ _ _ hlookup := by cases hlookup
  distinct _ _ _ _ _ hlookup := by cases hlookup
  execution _ _ hlookup := by cases hlookup
  fresh _ _ hlookup := by cases hlookup

lemma Tracks.createCommand (h : Tracks rt) (command : Text) :
    Tracks (rt.createCommand command).2 := by
  simp only [Runtime.createCommand]
  split_ifs
  · exact h
  · have hnext : Tracks ({ rt with nextHandle := rt.nextHandle + 1 } : WorldRuntime o) :=
      ⟨h.replays, h.stack, h.owned, h.known, h.distinct, h.execution, fun handle cmd hlookup =>
        Nat.lt_succ_of_lt (h.fresh handle cmd hlookup)⟩
    have haudit : Tracks (Runtime.audit
        ({ rt with nextHandle := rt.nextHandle + 1 } : WorldRuntime o)
        (.commandCreate rt.nextHandle command.trim)) :=
      hnext.beside ⟨rfl, rfl, rfl, rfl, rfl⟩
    refine (haudit.beside (beside_now _)).setCommand (Nat.lt_succ_self _) rfl rfl ?_
    intro cmd k hlookup
    exact absurd (h.fresh _ cmd hlookup) (Nat.lt_irrefl _)

lemma Tracks.deleteCommand (h : Tracks rt)
    (hidle : ∀ cmd, rt.commands.lookup handle = some cmd → cmd.active = false) :
    Tracks (rt.deleteCommand handle) := by
  have hlookup : ∀ {other cmd}, (rt.deleteCommand handle).commands.lookup other = some cmd →
      rt.commands.lookup other = some cmd := fun hc => Ledger.lookup_erase (l := rt.ledger) hc
  refine ⟨h.replays, h.stack, ?_, fun other cmd k hc => h.known other cmd k (hlookup hc),
    fun handle₁ handle₂ cmd₁ cmd₂ k hc₁ hc₂ =>
      h.distinct handle₁ handle₂ cmd₁ cmd₂ k (hlookup hc₁) (hlookup hc₂),
    fun other cmd hc => h.execution other cmd (hlookup hc),
    fun other cmd hc => h.fresh other cmd (hlookup hc)⟩
  intro k hk
  obtain ⟨other, cmd, hc, hactive, htask⟩ := h.owned k hk
  have hne : other ≠ handle := by
    rintro rfl
    exact absurd (hactive.symm.trans (hidle cmd hc)) (by simp)
  exact ⟨other, cmd, (AList.lookup_erase_ne hne).trans hc, hactive, htask⟩

lemma Placed.createCommand (h : Placed rt) (command : Text) :
    Placed (rt.createCommand command).2 := by
  simp only [Runtime.createCommand]
  split_ifs
  · exact h
  · exact h.setCommand fun k htask => by cases htask

lemma Placed.deleteCommand (h : Placed rt) (handle : CommandHandle) :
    Placed (rt.deleteCommand handle) :=
  fun other cmd k hc => h other cmd k (Ledger.lookup_erase (l := rt.ledger) hc)

/-- A result is handed to the host channel. -/
lemma later_submitResults (results : List HostOpResult) (rt : WorldRuntime o) :
    Later World.Aside rt (submitResults results rt).2 := by
  have htrack : ∀ (rt : WorldRuntime o) result, Beside rt (rt.trackStdin result) := by
    intro rt result
    rw [trackStdin]
    split
    · split <;> exact ⟨rfl, rfl, rfl, rfl, rfl⟩
    · exact ⟨rfl, rfl, rfl, rfl, rfl⟩
    · exact .refl rt
  have hcomplete : ∀ (rt : WorldRuntime o) result,
      Later World.Aside rt (rt.completeResult result).2 := by
    intro rt result
    have hcall : ∀ call, World.Onward World.Aside rt.world (rt.world.hostCall o result.id call) :=
      fun call => .of_moves (World.moves_hostCall rt.world result.id call)
    rw [completeResult]
    split
    · exact later_engine (hcall _)
    · exact later_engine (hcall _)
    · split
      · exact later_engine (hcall _)
      · exact later_engine (hcall _)
  induction results generalizing rt with
  | nil => exact .refl rt
  | cons result rest ih =>
    rw [submitResults]
    dsimp only
    refine Later.trans ?_ (ih _)
    rw [submitResult]
    split_ifs
    · exact .refl rt
    · exact (htrack rt result).later.trans (hcomplete _ result)

/-- A command is cancelled, and its task with it. -/
def cancelled (rt : WorldRuntime o) (handle : CommandHandle) (cmd : CommandState) :
    WorldRuntime o :=
  (rt.cancelTask cmd.taskHandle).setCommand handle { cmd with
    cancelled := true, exitCode := some (-1), taskHandle := none, execution := false }

lemma beside_cancelled (rt : WorldRuntime o) (handle : CommandHandle) :
    (rt.cancelCommand handle).2 = rt ∨ ∃ cmd, rt.commands.lookup handle = some cmd ∧ cmd.active ∧
      Beside (rt.cancelled handle cmd) (rt.cancelCommand handle).2 := by
  rw [Runtime.cancelCommand]
  split
  · exact .inl rfl
  · next cmd hlookup =>
    split_ifs with hactive
    · exact .inl rfl
    · refine .inr ⟨cmd, hlookup, by simpa using hactive, ?_⟩
      dsimp only
      generalize hcmd : { cmd with
        cancelled := true, exitCode := some (-1), taskHandle := none, execution := false } = cmd'
      have hcancel : Beside (rt.cancelled handle cmd)
          (((rt.setCommand handle cmd').forgetStdin handle).cancelTask cmd.taskHandle).now.2 := by
        rw [cancelled, hcmd]
        exact ⟨rfl, rfl, rfl, rfl, rfl⟩
      exact hcancel.trans (beside_flushOutputAndExit _ _ _ _ _ _)

lemma later_cancel (rt : WorldRuntime o) (taskHandle : Option TaskHandle) :
    Later World.Aside rt (rt.cancelTask taskHandle) := by
  cases taskHandle with
  | none => exact .refl rt
  | some k => exact later_engine (.of_moves (World.moves_cancelCommand rt.world k))

lemma Tracks.cancelCommand (h : Tracks rt) (hplaced : Placed rt) (handle : CommandHandle) :
    Tracks (rt.cancelCommand handle).2 ∧ Placed (rt.cancelCommand handle).2 := by
  rcases rt.beside_cancelled handle with heq | ⟨cmd, hlookup, hactive, hbeside⟩
  · rw [heq]
    exact ⟨h, hplaced⟩
  · have hlater := rt.later_cancel cmd.taskHandle
    have htracks : Tracks (rt.cancelled handle cmd) := by
      refine (h.aside hlater).setCommand (h.fresh handle cmd hlookup) rfl rfl ?_
      intro cmd' k hlookup' htask hk
      obtain rfl := Option.some.inj (hlookup.symm.trans hlookup')
      -- the task was cancelled just before
      rw [htask] at hk
      exact absurd hk (h.replays.not_rootActive_cancelCommand h.stack
        (hplaced handle cmd k hlookup htask))
    refine ⟨htracks.beside hbeside, Placed.later ?_ htracks.replays
      (hbeside.later (P := World.Aside))⟩
    exact (hplaced.later h.replays hlater).setCommand (by simp)

end Runtime

end AmlaSandbox.Runtimes
