import AmlaSandbox.Runtime.Steps

/-!
# Quiet worlds and the owners of tasks

Nothing is spawned or ready, the queue of the host channel is empty and the timers wait for the
host. A step of the scheduler finds nothing to do then, and leaves the world quiet.

Between two calls on a runtime no future is polled. Each task that the runtime has spawned and that
is still active is the task of a command that has not reported an exit, unless the command was
deleted while it ran.
-/

namespace AmlaSandbox

/-! ## Idle steps of the scheduler -/

namespace Scheduling

variable {m : Machine} {s : Scheduler}

/-- Entries of empty slots are skipped. -/
lemma Scheduler.popReady_stale {queue : List Nat} (h : ∀ i ∈ queue, s.task? i = none) :
    s.popReady queue = (none, []) := by
  induction queue with
  | nil => rfl
  | cons i rest ih =>
    obtain ⟨hfirst, hrest⟩ := List.forall_mem_cons.mp h
    rw [Scheduler.popReady, hfirst]
    exact ih hrest

/-- Without timers to fire and spawns to insert there is nothing to prepare. -/
lemma Machine.prepared_nil (h : m.sched.spawnQueue = []) : m.prepared [] = m.sched := by
  have hqueue : (m.sched.fireTimers []).spawnQueue = [] := h
  rw [Machine.prepared, Scheduler.processSpawnQueue, hqueue, Scheduler.insertTasks,
    Scheduler.fireTimers, List.append_nil, ← h]

end Scheduling

/-! ## Quiet worlds -/

namespace Runtimes

open Library Host

variable {Q : MinHeap Timer.TimerEntry Timer.TimerEntry.deadline}

namespace World

variable {W : Async.Waker → Async.Waker → Bool} {o : Outside Q} {w w' : World Q}

/-- No task can be polled, whatever is in the ready queue. -/
def Idle (w : World Q) : Prop :=
  w.sched.sched.spawnQueue = [] ∧ ∀ i ∈ w.sched.sched.readyQueue, w.sched.sched.task? i = none

/-- Some task can be polled. -/
def CanPoll (w : World Q) : Prop :=
  w.sched.sched.spawnQueue ≠ [] ∨
    ∃ i ∈ w.sched.sched.readyQueue, (w.sched.sched.task? i).isSome

lemma canPoll_iff : w.CanPoll ↔ ¬ w.Idle := by
  simp only [CanPoll, Idle, not_and_or, not_forall, exists_prop, ← Option.isSome_iff_ne_none, Ne]

lemma idle_of_not_active (h : ∀ k, ¬ w.sched.Active k) : w.Idle := by
  have hholds : ∀ k, ¬ w.sched.sched.Holds w.sched.sched.spawnQueue k :=
    fun k hk => h k (Scheduling.Machine.active_iff_holds.mpr hk)
  constructor
  · refine List.eq_nil_iff_forall_not_mem.mpr fun task hmem => ?_
    exact hholds task.slot (.inl ⟨task, hmem, rfl⟩)
  · intro i _
    cases htask : w.sched.sched.task? i with
    | none => rfl
    | some t => exact absurd (.inr ⟨i, t, htask, rfl⟩) (hholds t.slot)

/-- No task can be polled, and neither the host nor the timers have anything to deliver. -/
structure Quiet (w : World Q) : Prop where
  stack : w.sched.stack = []
  idle : w.Idle
  pendingRequests : w.host.chan.pendingRequests = []
  served : w.timers.timers.Served
  withHost : w.timers.timers.WithHost

lemma processTimers_rests (hserved : w.timers.timers.Served)
    (hhost : w.timers.timers.WithHost) :
    (w.processTimers W).1 = [] ∧
      w.timers.timers.Rests (w.processTimers W).2.timers.timers ∧
      (w.processTimers W).2.timers.timers.WithHost := by
  obtain ⟨hrests, hhost'⟩ : w.timers.timers.Rests (w.timers.timers.process W noopWaker) ∧
      (w.timers.timers.process W noopWaker).WithHost :=
    Timer.TimerStateInner.process_rests hserved hhost
  have hwoken : wokenBetween w.timers (w.timers.process W noopWaker) = [] := by
    rw [wokenBetween, Timer.Machine.process, hrests.woken, hrests.hostWoken, List.drop_length,
      List.drop_length]
    rfl
  refine ⟨?_, hrests, hhost'⟩
  rw [processTimers, hwoken]
  rfl

/-- A step finds nothing to poll; it empties the ready queue. -/
lemma Quiet.beginStep (h : w.Quiet) :
    let s : Scheduling.Scheduler := { w.sched.sched with readyQueue := [] }
    ∃ w', w.beginStep W = (some (.state (s.stepState false)), w') ∧
      w'.sched = { w.sched with sched := s } ∧ w.timers.timers.Rests w'.timers.timers ∧
      w'.timers.timers.WithHost := by
  obtain ⟨hfired, hrests, hhost⟩ := processTimers_rests (W := W) h.served h.withHost
  obtain ⟨hlate, hrests', hhost'⟩ := processTimers_rests (W := W)
    (w := (w.processTimers W).2) (h.served.congr hrests.heap hrests.wakeAtState) hhost
  have hprepared : w.sched.prepared [] = w.sched.sched := Scheduling.Machine.prepared_nil h.idle.1
  have hpolled : w.sched.polled (.runStep [] []) = none := by
    rw [Scheduling.Machine.polled, hprepared, Scheduling.Scheduler.popReady_stale h.idle.2]
    rfl
  have hrun := Scheduling.Machine.runStep_unpolled [] hpolled h.stack
  rw [hprepared] at hrun
  obtain ⟨trace, hbegin⟩ := beginStep_unpolled (W := W)
    (by rw [hfired]; exact hpolled) (by rw [hfired, hlate]; exact congrArg some hrun)
  obtain ⟨hheap, hstate, hwoken, hhostWoken, hpending⟩ := hrests.trans hrests'
  exact ⟨_, hbegin, rfl, ⟨hheap, hstate, hwoken, hhostWoken, hpending⟩, hhost'⟩

/-- What a step leaves of a quiet world. -/
theorem Quiet.runStep (h : w.Quiet) :
    (w.runStep o).1 ≠ .progress ∧ (w.runStep o).2.Quiet ∧
      (w.runStep o).2.sched.sched.readyQueue = [] ∧
      (w.runStep o).2.sched.sched.completions = w.sched.sched.completions := by
  obtain ⟨w', hbegin, hsched, hrests, hhost⟩ := h.beginStep (W := o.willWake)
  rw [World.runStep, hbegin]
  have hready : w'.sched.sched.readyQueue = [] := by rw [hsched]
  have hqueue : w'.sched.sched.spawnQueue = [] := by rw [hsched]; exact h.idle.1
  refine ⟨?_, ⟨by rw [hsched]; exact h.stack, ⟨hqueue, ?_⟩, ?_, ?_, hhost⟩, hready, by rw [hsched]⟩
  · have hidle := h.idle.1
    simp only [Scheduling.Scheduler.stepState]
    split_ifs <;> simp_all
  · intro i hi
    rw [hready] at hi
    cases hi
  · exact hrests.pendingRequests.trans h.pendingRequests
  · exact h.served.congr hrests.heap hrests.wakeAtState

end World

end Runtimes

/-! ## Whose tasks are in the scheduler -/

namespace Runtimes

open Library Host

variable {Q : MinHeap Timer.TimerEntry Timer.TimerEntry.deadline}

namespace World

variable {W : Async.Waker → Async.Waker → Bool} {o : Outside Q} {w w' : World Q} {k : Nat}
  {P P' : Scheduling.Machine → Scheduling.Event → Prop}

lemma Onward.mono (h : Onward P w w') (himp : ∀ m e, P m e → P' m e) : Onward P' w w' := by
  obtain ⟨more, htrace, hrun, hok⟩ := h
  exact ⟨more, htrace, hrun, fun entry hentry => himp _ _ (hok entry hentry)⟩

/-- What is done from outside leaves the stack alone. -/
lemma Onward.stack (h : Onward Aside w w') : w'.sched.stack = w.sched.stack := by
  refine h.reach.invariant (I := fun m => m.stack = w.sched.stack) rfl ?_
  rintro m e m' hm haside ⟨out, hstep⟩
  cases e with
  | wake | pollHandle | tryGet | cancelTask =>
    obtain ⟨rfl, _⟩ := Prod.mk.inj (Scheduling.Machine.call_eq_some hstep)
    exact hm
  | _ => cases haside

/-! ### The host channel and the timers -/

@[simp] lemma timers_wakeAll (wakers : List Async.Waker) (w : World Q) :
    (w.wakeAll wakers).timers = w.timers := by
  induction wakers generalizing w with
  | nil => rfl
  | cons waker rest ih => exact (ih _).trans (schedule_frame w _).1

@[simp] lemma timers_timerEvent (w : World Q) (e : Timer.Event) :
    (w.timerEvent W e).timers = w.timers.step W e := timers_wakeAll _ _

lemma host_takeHostOp (w : World Q) : (w.takeHostOp o).2.host = w.host.take.2 := by
  simp [takeHostOp, host, Timer.Machine.step, Timer.TimerStateInner.hostStep,
    Timer.TimerStateInner.Concerns, Host.Machine.step]

lemma host_hostCall (w : World Q) (id : HostOpId) (call : Host.HostCall) :
    (w.hostCall o id call).host = w.host.hostCall id call := by
  simp [hostCall, host, Timer.Machine.step, Timer.TimerStateInner.hostStep,
    Timer.TimerStateInner.Concerns, Host.Machine.step]

lemma served_hostEvent (h : w.timers.timers.Served) (e : Host.Event) :
    (w.timerEvent W (.host e)).timers.timers.Served := by
  rw [timers_timerEvent]
  obtain ⟨hheap, hstate⟩ := w.timers.timers.hostStep_frame (W := W) e
  exact h.congr hheap hstate

lemma pendingRequests_hostCall (w : World Q) (id : HostOpId) (call : Host.HostCall) :
    (w.hostCall o id call).host.chan.pendingRequests = w.host.chan.pendingRequests := by
  rw [host_hostCall]
  obtain ⟨wakers, heq⟩ := HostChannelInner.call_eq w.host.chan id call
  simp [Host.Machine.hostCall, heq, HostChannelInner.wakeAll]

/-- A take shortens the queue, or finds nothing and leaves it empty. -/
lemma pendingRequests_takeHostOp (w : World Q) :
    (w.takeHostOp o).2.host.chan.pendingRequests.length ≤
        w.host.chan.pendingRequests.length - 1 ∧
      ((w.takeHostOp o).1 = none → (w.takeHostOp o).2.host.chan.pendingRequests = []) := by
  rw [host_takeHostOp]
  exact Host.Machine.pendingRequests_takeLoop w.host.chan.pendingRequests (Nat.le_refl _)

/-! ### Results -/

/-- The query of a task while no future is polled. -/
lemma tryGet_eq (hstack : w.sched.stack = []) (handle : TaskHandle) :
    w.tryGet handle =
      ((w.sched.sched.tryGet handle).1.map fun result => (result.mapError errorText).map (·.code),
        { w with
          sched := { w.sched with sched := (w.sched.sched.tryGet handle).2 }
          trace := w.trace ++ [(w.sched, .tryGet handle)] }) := by
  have hstep : w.sched.step (.tryGet handle) =
      some ({ w.sched with sched := (w.sched.sched.tryGet handle).2 },
        (w.sched.sched.tryGet handle).1.map (.resolved handle)) := by
    simp only [Scheduling.Machine.step, Scheduling.Machine.call, hstack]
  rw [tryGet, schedule_of_step hstep]
  cases (w.sched.sched.tryGet handle).1 <;> rfl

/-- No result waits for a handle. -/
def Unresolved (w : World Q) (k : TaskHandle) : Prop :=
  (w.sched.sched.slot? k).bind (·.result) = none

lemma tryGet_of_unresolved (hstack : w.sched.stack = []) (h : w.Unresolved k) :
    w.tryGet k = (none, { w with trace := w.trace ++ [(w.sched, .tryGet k)] }) := by
  have hnone : w.sched.sched.tryGet k = (none, w.sched.sched) := by
    rw [Scheduling.Scheduler.tryGet, h]
  rw [tryGet_eq hstack, hnone]
  rfl

/-- A query leaves no result behind. -/
lemma unresolved_tryGet (hstack : w.sched.stack = []) (handle : TaskHandle)
    (h : w.Unresolved k ∨ k = handle) : (w.tryGet handle).2.Unresolved k := by
  rw [tryGet_eq hstack]
  show (Scheduling.Scheduler.slot? _ k).bind _ = none
  rw [Scheduling.Scheduler.tryGet]
  split
  · rw [Scheduling.Scheduler.slot?_modifySlot]
    split_ifs with hk
    · cases w.sched.sched.slot? k <;> rfl
    · exact h.resolve_right hk
  · next hnone =>
    rcases h with h | rfl
    · exact h
    · exact hnone

/-- A query of one handle leaves the results of the others. -/
lemma unresolved_tryGet_iff {handle : TaskHandle} (hstack : w.sched.stack = []) (hne : k ≠ handle) :
    (w.tryGet handle).2.Unresolved k ↔ w.Unresolved k := by
  rw [tryGet_eq hstack]
  show (Scheduling.Scheduler.slot? _ k).bind _ = none ↔ _
  rw [Scheduling.Scheduler.tryGet]
  split
  · rw [Scheduling.Scheduler.slot?_modifySlot, if_neg hne]
    rfl
  · exact Iff.rfl

lemma tryGet_eq_none (hstack : w.sched.stack = []) {handle : TaskHandle}
    (h : (w.tryGet handle).1 = none) : w.Unresolved handle := by
  rw [tryGet_eq hstack] at h
  rw [Unresolved]
  cases hresult : (w.sched.sched.slot? handle).bind (·.result) with
  | none => rfl
  | some result => simp [Scheduling.Scheduler.tryGet, hresult] at h

/-- The same tasks are ready, in the table and to be spawned. -/
structure SameQueues (w w' : World Q) : Prop where
  readyQueue : w'.sched.sched.readyQueue = w.sched.sched.readyQueue
  spawnQueue : w'.sched.sched.spawnQueue = w.sched.sched.spawnQueue
  task : ∀ i, w'.sched.sched.task? i = w.sched.sched.task? i

lemma SameQueues.of_sched (h : w'.sched = w.sched) : SameQueues w w' :=
  ⟨by rw [h], by rw [h], fun i => by rw [h]⟩

lemma SameQueues.trans {w'' : World Q} (h : SameQueues w w') (h' : SameQueues w' w'') :
    SameQueues w w'' :=
  ⟨h'.readyQueue.trans h.readyQueue, h'.spawnQueue.trans h.spawnQueue,
    fun i => (h'.task i).trans (h.task i)⟩

lemma sameQueues_tryGet (hstack : w.sched.stack = []) (handle : TaskHandle) :
    SameQueues w (w.tryGet handle).2 := by
  rw [tryGet_eq hstack]
  simp only [Scheduling.Scheduler.tryGet]
  split <;> exact ⟨rfl, rfl, fun _ => rfl⟩

/-- A task whose result is there is not active. -/
lemma Replays.not_active (hw : w.Replays) (h : ¬ w.Unresolved k) : ¬ w.sched.Active k := by
  intro hactive
  apply h
  cases hslot : w.sched.sched.slot? k with
  | none => simp [Unresolved, hslot]
  | some slot =>
    have hresult := hw.sound.unfinished k slot
      (Scheduling.Machine.active_iff_holds.mp hactive) hslot
    simp [Unresolved, hslot, hresult]

/-- A cancelled task is gone, unless its spawn is queued. -/
lemma Replays.not_active_cancelHandle (hw : w.Replays) (hstack : w.sched.stack = [])
    (hk : (w.sched.sched.taskId? k).isSome) : ¬ (w.cancelHandle k).sched.Active k := by
  obtain ⟨id, hid⟩ := Option.isSome_iff_exists.mp hk
  have hstep : w.sched.step (.cancelTask id) =
      some ({ w.sched with sched := (w.sched.sched.cancelTask id).1 }, none) := by
    simp only [Scheduling.Machine.step, Scheduling.Machine.call, hstack]
  have heffect := Scheduling.Machine.effect_of_step hstep
  have hcancel : w.cancelHandle k = (w.schedule (.cancelTask id)).2 := by
    have hbind : (w.sched.sched.slot? k).bind (·.taskId) = some id := hid
    rw [cancelHandle, hbind]
  have hvalid' := hw.valid.of_step hstep
  rw [hcancel, schedule_of_step hstep, Scheduling.Machine.active_iff_holds]
  have hgone : (w.sched.sched.cancelTask id).1.lookup id = none := by
    cases hlookup : w.sched.sched.lookup id with
    | some task =>
      refine heffect.lookup_of_ends ⟨id, ?_, .refl⟩
      simp [Scheduling.Machine.ending, hlookup]
    | none =>
      rw [Scheduling.Scheduler.cancelTask_of_lookup_eq_none hlookup]
      exact hlookup
  have hid' : (w.sched.sched.cancelTask id).1.taskId? k = some id :=
    heffect.taskId? hw.valid.sched hid
  -- what is active under the id would still be in the table under it
  rintro (⟨task, hmem, hslot⟩ | ⟨i, t, ht, hslot⟩)
  · have hnone := hvalid'.sched.pending_taskId task hmem
    rw [hslot] at hnone
    cases hnone.symm.trans hid'
  · have hkey := hvalid'.sched.occupant i t ht
    rw [hslot] at hkey
    have hid : id = (w.sched.sched.cancelTask id).1.keyAt i :=
      Option.some.inj (hid'.symm.trans hkey)
    have hlookup : (w.sched.sched.cancelTask id).1.lookup id = some t :=
      (congrArg _ hid).trans (Scheduling.Scheduler.lookup_keyAt.trans ht)
    cases hgone.symm.trans hlookup

/-- A root that is cancelled with its command is not active any more. -/
lemma Replays.not_rootActive_cancelCommand (hw : w.Replays) (hstack : w.sched.stack = [])
    (hk : (w.sched.sched.taskId? k).isSome) :
    ¬ (w.cancelCommand o k).sched.RootActive k := by
  intro hactive
  have hcancel : Onward Within w (w.cancelHandle k) :=
    .of_moves (moves_cancelHandle (W := o.willWake) (fun _ _ => within_of_ne (by simp)) w k)
  have hdrops : Onward Within (w.cancelHandle k) (w.cancelCommand o k) :=
    (Onward.of_moves (moves_drops _ _)).mono within_of_aside
  exact hw.not_active_cancelHandle hstack hk ((hw.onward hcancel).rootActive hdrops hactive).2

/-! ### The shell of a command -/

/-- A new root is spawned. -/
lemma spawnShell_spec (hw : w.Replays) (hstack : w.sched.stack = []) (command : CommandHandle)
    (text : Text) :
    (w.spawnShell command text).2.sched.stack = [] ∧
      Onward Scheduling.Machine.anyEvent w (w.spawnShell command text).2 ∧
      (w.spawnShell command text).2.sched.sched.completions.length =
        w.sched.sched.completions.length + 1 ∧
      ∀ k, (w.spawnShell command text).2.sched.RootActive k →
        w.sched.RootActive k ∨ k = w.sched.sched.completions.length := by
  have hstep : w.sched.step .spawn = some ({ w.sched with
      sched := w.sched.sched.spawn
      spawner := w.sched.spawner ++ [w.sched.top?.map (·.2)] }, none) := by
    simp only [Scheduling.Machine.step, Scheduling.Machine.call, hstack]
  have hsched : (w.spawnShell command text).2.sched = { w.sched with
      sched := w.sched.sched.spawn
      spawner := w.sched.spawner ++ [w.sched.top?.map (·.2)] } := by
    rw [spawnShell, schedule_of_step hstep]
  have hmoves : Moves (fun _ _ => false) Scheduling.Machine.anyEvent w
    (w.spawnShell command text).2 := moves_spawnShell w command text
  refine ⟨by rw [hsched]; exact hstack, .of_moves hmoves, ?_, ?_⟩
  · rw [hsched]
    simp [Scheduling.Scheduler.spawn]
  · rw [hsched]
    rintro k ⟨hroot, hactive⟩
    rcases Scheduling.Machine.holds_of_effect hw.valid .spawn
      (Scheduling.Machine.active_iff_holds.mp hactive) with hold | ⟨_, hlast⟩
    · left
      refine ⟨?_, Scheduling.Machine.active_iff_holds.mpr hold⟩
      rwa [List.getElem?_append_left (hw.valid.spawner.symm ▸ hold.lt hw.valid.sched)] at hroot
    · exact .inr hlast

end World

end Runtimes

end AmlaSandbox
