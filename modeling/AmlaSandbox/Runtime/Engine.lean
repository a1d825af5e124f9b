import AmlaSandbox.Runtime.World
import AmlaSandbox.Timer.Kinds

/-!
# The scheduler as the engine of a runtime

Whatever the runtime asks of the scheduler is made of events of the scheduler, events of the timers
and changes of what is kept beside them. Since no future submits an exit, the queue of the host
channel never holds one.
-/

namespace AmlaSandbox.Runtimes

open Library Host

variable {Q : MinHeap Timer.TimerEntry Timer.TimerEntry.deadline}

namespace World

/-- One change of the world; the events of the scheduler meet a condition. -/
inductive Move (W : Async.Waker → Async.Waker → Bool)
    (P : Scheduling.Machine → Scheduling.Event → Prop) : World Q → World Q → Prop
  | schedule {w : World Q} (e : Scheduling.Event) : P w.sched e →
    Move W P w (w.schedule e).2
  | timers {w : World Q} (e : Timer.Event) :
    (∀ kind, e = .host (.create kind) → isCommandExit kind = false) →
    Move W P w { w with timers := w.timers.step W e }
  | task {w : World Q} (task : Option TaskIdRepr) :
    Move W P w { w with timers := { w.timers with
      timers := { w.timers.timers with host := w.timers.timers.host.setTask task } } }
  | beside {w : World Q} (buffers : CommandHandle → UInt8 → Bytes) (polls reads : Nat)
    (shells : List (TaskHandle × CommandHandle × Text)) :
    Move W P w { w with buffers, polls, reads, shells }

abbrev Moves (W : Async.Waker → Async.Waker → Bool)
    (P : Scheduling.Machine → Scheduling.Event → Prop) : World Q → World Q → Prop :=
  Relation.ReflTransGen (Move W P)

/-- Every spawn is made within a poll. -/
def Within (m : Scheduling.Machine) (e : Scheduling.Event) : Prop := e = .spawn → m.top?.isSome

/-- What is done from outside while no future is polled, but for steps and spawns. -/
def Aside (_ : Scheduling.Machine) : Scheduling.Event → Prop
  | .wake _ | .pollHandle _ _ | .tryGet _ | .cancelTask _ => True
  | _ => False

/-- What the polled future does until it returns. -/
def Inside (m : Scheduling.Machine) (e : Scheduling.Event) : Prop :=
  Within m e ∧ ∀ result late, e = .pollReturn result late → 2 ≤ m.stack.length

variable {W : Async.Waker → Async.Waker → Bool}
  {P P' : Scheduling.Machine → Scheduling.Event → Prop} {w w' : World Q}

lemma Move.mono (h : Move W P w w') (himp : ∀ m e, P m e → P' m e) :
    Move W P' w w' := by
  cases h with
  | schedule e hok => exact .schedule e (himp _ _ hok)
  | timers e he => exact .timers e he
  | task task => exact .task task
  | beside => exact .beside _ _ _ _

lemma Moves.mono (h : Moves W P w w') (himp : ∀ m e, P m e → P' m e) :
    Moves W P' w w' := by
  induction h with
  | refl => exact .refl
  | tail _ hmove ih => exact ih.tail (hmove.mono himp)

/-! ### The operations as moves -/

lemma moves_wakeAll (hok : ∀ m waker, P m (.wake waker)) (wakers : List Async.Waker)
    (w : World Q) : Moves W P w (w.wakeAll wakers) := by
  induction wakers generalizing w with
  | nil => exact .refl
  | cons waker rest ih => exact .head (.schedule _ (hok _ _)) (ih _)

lemma moves_timerEvent (hok : ∀ m waker, P m (.wake waker)) (w : World Q) {e : Timer.Event}
    (he : ∀ kind, e = .host (.create kind) → isCommandExit kind = false) :
    Moves W P w (w.timerEvent W e) :=
  .head (.timers e he) (moves_wakeAll hok _ _)

lemma moves_processTimers (w : World Q) : Moves W P w (w.processTimers W).2 :=
  .single (.timers (.process noopWaker) (by simp))

lemma moves_cancelHandle (hok : ∀ m id, P m (.cancelTask id)) (w : World Q)
    (handle : TaskHandle) : Moves W P w (w.cancelHandle handle) := by
  rw [cancelHandle]
  split
  · exact .single (.schedule _ (hok _ _))
  · exact .refl

lemma moves_dropCall (hok : ∀ m waker, P m (.wake waker)) (w : World Q) (call : DropCall) :
    Moves W P w (w.dropCall W call) := by
  cases call with
  | wake waker => exact .single (.schedule _ (hok _ _))
  | dropOp i => exact moves_timerEvent hok w (by simp)
  | dropSleep i => exact moves_timerEvent hok w (by simp)

lemma moves_beginStep (hok : ∀ m fired late, P m (.runStep fired late)) (w : World Q) :
    Moves W P w (w.beginStep W).2 := by
  simp only [beginStep]
  split_ifs
  · exact (moves_processTimers w).trans (.tail (.single (.schedule _ (hok _ _ _))) (.task _))
  · exact ((moves_processTimers w).trans (moves_processTimers _)).trans
      (.tail (.single (.schedule _ (hok _ _ _))) (.task _))

lemma moves_endPoll (w : World Q) (result : Option Scheduling.TaskResult)
    (hok : ∀ late, P w.sched (.pollReturn result late)) :
    Moves W P w (w.endPoll W result).2 :=
  .head (.task none) ((moves_processTimers _).trans
    (.tail (.single (.schedule (.pollReturn _ _) (hok _))) (.task _)))

lemma inside_of_ne {m : Scheduling.Machine} {e : Scheduling.Event} (hspawn : e ≠ .spawn)
    (hreturn : ∀ result late, e ≠ .pollReturn result late) : Inside m e :=
  ⟨fun heq => absurd heq hspawn, fun result late heq => absurd heq (hreturn result late)⟩

lemma moves_act (w : World Q) (call : GuestCall) (htop : w.sched.top?.isSome) :
    Moves W Inside w (w.act W call) := by
  have hwake : ∀ m waker, Inside m (.wake waker) :=
    fun _ _ => inside_of_ne (by simp) (by simp)
  cases call with
  | spawn => exact .single (.schedule .spawn ⟨fun _ => htop, by simp⟩)
  | pollHandle handle waker =>
    simp only [act]
    split_ifs
    · exact .single (.schedule (.pollHandle _ _) (inside_of_ne (by simp) (by simp)))
    · exact .refl
  | tryGet handle =>
    simp only [act]
    split_ifs
    · exact .single (.schedule (.tryGet _) (inside_of_ne (by simp) (by simp)))
    · exact .refl
  | cancel handle =>
    simp only [act]
    split_ifs
    · exact moves_cancelHandle (fun _ _ => inside_of_ne (by simp) (by simp)) w handle
    · exact .refl
  | run => exact .single (.schedule .run (inside_of_ne (by simp) (by simp)))
  | runStep => exact .refl
  | pollReturn result =>
    simp only [act]
    split_ifs with hlength
    · exact moves_endPoll w result fun late => ⟨by simp [Within], fun _ _ _ => hlength⟩
    · exact .refl
  | hostOp kind =>
    simp only [act]
    split_ifs with hexit
    · exact .refl
    · refine moves_timerEvent hwake w ?_
      rintro _ ⟨⟩
      exact Bool.eq_false_iff.mpr hexit
  | pollOp i waker => exact moves_timerEvent hwake w (by simp)
  | sleepUntil deadline => exact moves_timerEvent hwake w (by simp)
  | pollSleep i waker => exact moves_timerEvent hwake w (by simp)
  | write handle stream data => exact .single (.beside _ _ _ _)
  | drop call => exact moves_dropCall hwake w call

lemma moves_perform (w : World Q) (call : GuestCall) :
    Moves W Inside w (w.perform W call) := by
  unfold perform
  split
  · split
    · exact .refl
    · exact moves_beginStep (fun _ _ _ => inside_of_ne (by simp) (by simp)) w
  · split
    · next htop => exact moves_act w call htop
    · exact .refl

lemma moves_performAll (calls : List GuestCall) (w : World Q) :
    Moves W Inside w (w.performAll W calls) := by
  induction calls generalizing w with
  | nil => exact .refl
  | cons call rest ih => exact (moves_perform w call).trans (ih _)

lemma within_of_ne {m : Scheduling.Machine} {e : Scheduling.Event} (h : e ≠ .spawn) : Within m e :=
  fun heq => absurd heq h

variable {o : Outside Q}

lemma moves_poll (w : World Q) : Moves o.willWake Inside w (w.poll o) :=
  .head (.beside w.buffers (w.polls + 1) w.reads w.shells) (moves_performAll _ _)

lemma moves_runStep (w : World Q) : Moves o.willWake Within w (w.runStep o).2 := by
  have hbegin := moves_beginStep (W := o.willWake) (P := Within)
    (fun _ _ _ => within_of_ne (by simp)) w
  rw [runStep]
  split
  · next heq =>
    rw [heq] at hbegin
    exact hbegin
  · next began _ heq =>
    rw [heq] at hbegin
    have hpoll : Moves o.willWake Within began (began.poll o) :=
      (moves_poll began).mono fun _ _ h => h.1
    have hend := moves_endPoll (W := o.willWake) (P := Within) (began.poll o)
      (o.result (began.poll o)) fun _ => within_of_ne (by simp)
    dsimp only
    split
    · next heq =>
      rw [heq] at hend
      exact (hbegin.trans hpoll).trans hend
    · next heq =>
      rw [heq] at hend
      exact (hbegin.trans hpoll).trans hend

lemma within_of_aside (m : Scheduling.Machine) (e : Scheduling.Event) (h : Aside m e) :
    Within m e := by
  rintro rfl
  cases h

lemma moves_drops (drops : List DropCall) (w : World Q) :
    Moves o.willWake Aside w (drops.foldl (dropCall o.willWake) w) := by
  induction drops generalizing w with
  | nil => exact .refl
  | cons call rest ih => exact (moves_dropCall (fun _ _ => trivial) w call).trans (ih _)

lemma moves_cancelCommand (w : World Q) (handle : TaskHandle) :
    Moves o.willWake Aside w (w.cancelCommand o handle) :=
  (moves_cancelHandle (fun _ _ => trivial) w handle).trans (moves_drops _ _)

lemma moves_takeHostOp (w : World Q) : Moves o.willWake Aside w (w.takeHostOp o).2 :=
  moves_timerEvent (fun _ _ => trivial) w (by simp)

lemma moves_hostCall (w : World Q) (id : HostOpId) (call : Host.HostCall) :
    Moves o.willWake Aside w (w.hostCall o id call) :=
  moves_timerEvent (fun _ _ => trivial) w (by simp)

lemma tryGet_snd (w : World Q) (handle : TaskHandle) :
    (w.tryGet handle).2 = (w.schedule (.tryGet handle)).2 := by
  simp only [tryGet]
  split
  · next heq => rw [heq]
  · next heq => rw [heq]

lemma moves_tryGet (w : World Q) (handle : TaskHandle) :
    Moves W Aside w (w.tryGet handle).2 := by
  rw [tryGet_snd]
  exact .single (.schedule (.tryGet handle) trivial)

lemma moves_spawnShell (w : World Q) (command : CommandHandle) (text : Text) :
    Moves W Scheduling.Machine.anyEvent w (w.spawnShell command text).2 :=
  .tail (.single (.schedule .spawn trivial)) (.beside _ _ _ _)

/-! ### No exit is submitted -/

/-- No exit waits in the queue or for room in it. -/
def NoExit (w : World Q) : Prop := w.host.OnlyKinds fun kind => isCommandExit kind = false

lemma schedule_frame (w : World Q) (e : Scheduling.Event) :
    (w.schedule e).2.timers = w.timers ∧ (w.schedule e).2.buffers = w.buffers := by
  simp only [schedule]
  split <;> exact ⟨rfl, rfl⟩

lemma NoExit.of_move (hw : w.NoExit) (h : Move W P w w') : w'.NoExit := by
  cases h with
  | schedule e _ =>
    have hframe := (schedule_frame w e).1
    rw [NoExit, host, hframe]
    exact hw
  | timers e he => exact Timer.Machine.onlyKinds_step hw (fun _ => rfl) he
  | task task => exact ⟨hw.futures, hw.queued⟩
  | beside => exact hw

lemma NoExit.of_moves (hw : w.NoExit) (h : Moves W P w w') : w'.NoExit := by
  induction h with
  | refl => exact hw
  | tail _ hmove ih => exact ih.of_move hmove

end World

/-- A world whose queue holds no exit. -/
abbrev SoundWorld (Q : MinHeap Timer.TimerEntry Timer.TimerEntry.deadline) :=
  { w : World Q // w.NoExit }

/-- An operation made of moves. -/
def SoundWorld.move {W : Async.Waker → Async.Waker → Bool}
    {P : Scheduling.Machine → Scheduling.Event → Prop} (w : SoundWorld Q) (w' : World Q)
    (h : World.Moves W P w.1 w') : SoundWorld Q :=
  ⟨w', w.2.of_moves h⟩

/-- The scheduler of a runtime. -/
def engine (o : Outside Q) : Engine where
  State := SoundWorld Q
  nowMonotonic w :=
    (o.clock w.1.reads, w.move (W := o.willWake) (P := World.Within)
      { w.1 with reads := w.1.reads + 1 } (.single (.beside w.1.buffers w.1.polls _ w.1.shells)))
  spawnShell command text w :=
    ((w.1.spawnShell command text).1, w.move (W := o.willWake)
      (w.1.spawnShell command text).2 (World.moves_spawnShell w.1 command text))
  runStep w := ((w.1.runStep o).1, w.move (w.1.runStep o).2 (World.moves_runStep w.1))
  queueLength w := w.1.host.chan.pendingRequests.length
  takeHostOp w := ((w.1.takeHostOp o).1, w.move (w.1.takeHostOp o).2 (World.moves_takeHostOp w.1))
  completeHostOp id data w :=
    w.move (w.1.hostCall o id (.complete (.ok data))) (World.moves_hostCall w.1 id _)
  completeHostOpErr id error w :=
    w.move (w.1.hostCall o id (.complete (.error error))) (World.moves_hostCall w.1 id _)
  appendChunk id data eof w :=
    ((w.1.appendChunk o id data eof).1,
      w.move (w.1.appendChunk o id data eof).2 (World.moves_hostCall w.1 id _))
  idRepr handle w := ((w.1.sched.sched.slot? handle).bind (·.taskId)).map toRepr
  tryGet handle w :=
    ((w.1.tryGet handle).1, w.move (W := o.willWake) (w.1.tryGet handle).2
      (World.moves_tryGet w.1 handle))
  cancel handle w := w.move (w.1.cancelCommand o handle) (World.moves_cancelCommand w.1 handle)
  hasReadyTasks w := w.1.hasReadyTasks
  takeBuffered handle stream w :=
    ((w.1.takeBuffered handle stream).1,
      w.move (W := o.willWake) (P := World.Within) (w.1.takeBuffered handle stream).2
        (.single (.beside _ w.1.polls w.1.reads w.1.shells)))
  order := o.order
  noGuestExit w req h code hcode := by
    have hkind := w.2.taken h
    rw [hcode] at hkind
    cases hkind

/-- The maximal number of requests in the queue. -/
def queueSize : Nat := 64

/-- A new scheduler. -/
def World.new (Q : MinHeap Timer.TimerEntry Timer.TimerEntry.deadline) : World Q where
  timers := .new queueSize

def SoundWorld.new (Q : MinHeap Timer.TimerEntry Timer.TimerEntry.deadline) : SoundWorld Q :=
  ⟨.new Q, .new queueSize⟩

end AmlaSandbox.Runtimes
