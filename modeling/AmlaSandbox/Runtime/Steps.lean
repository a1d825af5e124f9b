import AmlaSandbox.Runtime.Engine
import AmlaSandbox.Scheduler.Roots
import AmlaSandbox.Timer.WakeAt

/-!
# Steps of the scheduler in its world

The trace of a world replays its scheduler, so that what holds of all runs of the scheduler holds
here. A step that the host makes polls at most one future and waits for it to return, so that it
ends with an empty stack, whatever the futures did within it. All that was spawned before it is in
the table then, and the timers have been processed.
-/

namespace AmlaSandbox

/-! ## Traces -/

namespace Runtimes

open Library Host

variable {Q : MinHeap Timer.TimerEntry Timer.TimerEntry.deadline}

namespace World

variable {W : Async.Waker → Async.Waker → Bool}
  {P P' : Scheduling.Machine → Scheduling.Event → Prop} {w w' : World Q} {k : Nat}

/-! ### The trace -/

/-- The trace is the run of the scheduler. -/
def Replays (w : World Q) : Prop := Recorded Scheduling.Machine.Step {} w.trace w.sched

/-- The later world has been reached by the events that the trace gained, which meet a condition. -/
def Onward (P : Scheduling.Machine → Scheduling.Event → Prop) (w w' : World Q) : Prop :=
  ∃ more, w'.trace = w.trace ++ more ∧ Recorded Scheduling.Machine.Step w.sched more w'.sched ∧
    ∀ entry ∈ more, P entry.1 entry.2

lemma schedule_cases (w : World Q) (e : Scheduling.Event) :
    (w.sched.step e = none ∧ w.schedule e = (none, w)) ∨
      ∃ m out, w.sched.step e = some (m, out) ∧
        w.schedule e = (out, { w with sched := m, trace := w.trace ++ [(w.sched, e)] }) := by
  simp only [schedule]
  cases hstep : w.sched.step e with
  | none => exact .inl ⟨rfl, rfl⟩
  | some result => exact .inr ⟨result.1, result.2, rfl, rfl⟩

lemma schedule_of_step {e : Scheduling.Event} {m : Scheduling.Machine}
    {out : Option Scheduling.Output} (h : w.sched.step e = some (m, out)) :
    w.schedule e = (out, { w with sched := m, trace := w.trace ++ [(w.sched, e)] }) := by
  simp only [schedule, h]

lemma Onward.refl (w : World Q) : Onward P w w :=
  ⟨[], (List.append_nil _).symm, .nil, fun _ h => absurd h List.not_mem_nil⟩

lemma Onward.trans {w'' : World Q} (h : Onward P w w') (h' : Onward P w' w'') :
    Onward P w w'' := by
  obtain ⟨more, htrace, hrun, hok⟩ := h
  obtain ⟨more', htrace', hrun', hok'⟩ := h'
  refine ⟨more ++ more', ?_, hrun.append hrun', List.forall_mem_append.mpr ⟨hok, hok'⟩⟩
  rw [htrace', htrace, List.append_assoc]

lemma Onward.of_move (h : Move W P w w') : Onward P w w' := by
  cases h with
  | schedule e hok =>
    rcases schedule_cases w e with ⟨_, heq⟩ | ⟨m, out, hstep, heq⟩
    · rw [heq]
      exact .refl w
    · rw [heq]
      refine ⟨[(w.sched, e)], rfl, .single ⟨out, hstep⟩, ?_⟩
      exact List.forall_mem_singleton.mpr hok
  | timers | task | beside => exact .refl w

theorem Onward.of_moves (h : Moves W P w w') : Onward P w w' := by
  induction h with
  | refl => exact .refl _
  | tail _ hmove ih => exact ih.trans (.of_move hmove)

lemma Replays.onward (hw : w.Replays) (h : Onward P w w') : w'.Replays := by
  obtain ⟨more, htrace, hrun, _⟩ := h
  rw [Replays, htrace]
  exact hw.append hrun

lemma Onward.reach (h : Onward P w w') :
    Reach Scheduling.Machine.Step P w.sched w'.sched := by
  obtain ⟨more, _, hrun, hok⟩ := h
  exact hrun.reach hok

lemma Replays.reachable (hw : w.Replays) (hok : ∀ entry ∈ w.trace, P entry.1 entry.2) :
    Scheduling.Machine.Reachable P w.sched :=
  Recorded.reach hw hok

lemma Replays.valid (hw : w.Replays) : w.sched.Valid :=
  Scheduling.Machine.valid_of_reachable (hw.reachable (P := Scheduling.Machine.anyEvent)
    fun _ _ => trivial)

lemma Replays.sound (hw : w.Replays) : w.sched.Sound :=
  Scheduling.Machine.sound_of_reachable (hw.reachable (P := Scheduling.Machine.anyEvent)
    fun _ _ => trivial)

/-- Ids that are given stay. -/
lemma Replays.taskId? (hw : w.Replays) (h : Onward P w w') {id : Scheduling.TaskId}
    (hid : w.sched.sched.taskId? k = some id) : w'.sched.sched.taskId? k = some id :=
  Scheduling.Machine.taskId?_of_reach hw.valid h.reach hid

/-- Where every spawn is made within a poll, no root becomes active. -/
lemma Replays.rootActive (hw : w.Replays) (h : Onward Within w w')
    (hk : w'.sched.RootActive k) : w.sched.RootActive k := by
  refine (h.reach.invariant (I := fun m => m.Valid ∧ (m.RootActive k → w.sched.RootActive k))
    ⟨hw.valid, id⟩ ?_).2 hk
  rintro m e m' ⟨hm, hroot⟩ hwithin ⟨out, hstep⟩
  exact ⟨hm.of_step hstep, fun hk => hroot (hm.rootActive_of_step hwithin hstep hk)⟩

end World

end Runtimes

/-! ## Where a step of the scheduler ends -/

namespace Scheduling.Machine

variable {m : Machine} {fired late : List Nat} {id : TaskId} {future : Nat}

lemma runStep_polled {poll : TaskId × Nat} (h : m.polled (.runStep fired late) = some poll) :
    ∃ m', m.runStep fired late = (m', none) ∧ m'.stack = .poll poll.1 poll.2 :: m.stack := by
  obtain ⟨⟨i, task⟩, hpop, rfl⟩ := Option.map_eq_some_iff.mp h
  unfold runStep
  dsimp only
  split
  · next i' task' queue heq =>
    rw [heq] at hpop
    obtain ⟨rfl, rfl⟩ := Prod.mk.inj (Option.some.inj hpop)
    exact ⟨_, rfl, rfl⟩
  · next heq =>
    rw [heq] at hpop
    cases hpop

lemma returnState_of_empty {state : SchedulerState} (h : m.stack = []) :
    m.returnState state = (m, some (.state state)) := by
  simp only [returnState, h]

/-- Without a task to poll the step is over; the ready queue was emptied. -/
lemma runStep_unpolled (late : List Nat) (h : m.polled (.runStep fired late) = none)
    (hstack : m.stack = []) :
    let s := ({ m.prepared fired with readyQueue := [] } : Scheduler).fireTimers late
    m.runStep fired late = ({ m with sched := s }, some (.state (s.stepState false))) := by
  have hempty : ∀ (s : Scheduler) reqs, (s.popReady reqs).1 = none →
      s.popReady reqs = (none, []) := by
    intro s reqs hnone
    induction reqs with
    | nil => rfl
    | cons i rest ih =>
      rw [Scheduler.popReady] at hnone ⊢
      split at hnone
      · cases hnone
      · exact ih hnone
  have hpop := hempty _ _ (Option.map_eq_none_iff.mp h)
  unfold runStep
  dsimp only
  rw [hpop]
  exact returnState_of_empty hstack

/-- The return of the only poll ends the step. -/
lemma pollReturn_of_single (hstack : m.stack = [.poll id future]) (result : Option TaskResult)
    (late : List Nat) :
    ∃ m' state, m.step (.pollReturn result late) = some (m', some (.state state)) ∧
      m'.stack = [] := by
  simp only [step, hstack, pollReturn]
  rw [returnState_of_empty rfl]
  exact ⟨_, _, rfl, rfl⟩

end Scheduling.Machine

/-! ## Steps of a world -/

namespace Runtimes

open Library Host

variable {Q : MinHeap Timer.TimerEntry Timer.TimerEntry.deadline}

namespace World

variable {W : Async.Waker → Async.Waker → Bool} {o : Outside Q} {w w' : World Q} {k : Nat}

lemma served_syncTask (h : w.timers.timers.Served) : w.syncTask.timers.timers.Served := h

lemma served_processTimers (w : World Q) : (w.processTimers W).2.timers.timers.Served :=
  Timer.TimerStateInner.served_process _

/-- A step that finds no task to poll. -/
lemma beginStep_unpolled {m : Scheduling.Machine} {out : Option Scheduling.Output}
    (hnone : w.sched.polled (.runStep (w.processTimers W).1 []) = none)
    (hstep : w.sched.step (.runStep (w.processTimers W).1
      ((w.processTimers W).2.processTimers W).1) = some (m, out)) :
    ∃ trace, w.beginStep W =
      (out, syncTask { ((w.processTimers W).2.processTimers W).2 with
        sched := m, trace }) := by
  have hpolled : ((w.processTimers W).2.sched.polled
      (.runStep (w.processTimers W).1 [])).isSome ≠ true := by
    rw [Ne, Option.not_isSome_iff_eq_none]
    exact hnone
  have hlast : ((w.processTimers W).2.processTimers W).2.sched.step
      (.runStep (w.processTimers W).1
        ((w.processTimers W).2.processTimers W).1) = some (m, out) := hstep
  simp only [beginStep]
  rw [if_neg hpolled, schedule_of_step hlast]
  exact ⟨_, rfl⟩

/-- A step that begins with no poll in progress is over, or polls one future. -/
lemma beginStep_cases (hstack : w.sched.stack = []) :
    (∃ state w', w.beginStep W = (some (.state state), w') ∧ w'.sched.stack = [] ∧
        w'.timers.timers.Served) ∨
      ∃ w' id future, w.beginStep W = (none, w') ∧
        w'.sched.stack = [.poll id future] := by
  by_cases hpolled : ((w.processTimers W).2.sched.polled
      (.runStep (w.processTimers W).1 [])).isSome
  · right
    simp only [beginStep]
    rw [if_pos hpolled]
    obtain ⟨poll, hpoll⟩ := Option.isSome_iff_exists.mp hpolled
    obtain ⟨m, hrun, hm⟩ := Scheduling.Machine.runStep_polled hpoll
    have hstep : (w.processTimers W).2.sched.step
        (.runStep (w.processTimers W).1 []) = some (m, none) := congrArg some hrun
    rw [schedule_of_step hstep]
    refine ⟨_, poll.1, poll.2, rfl, ?_⟩
    show m.stack = _
    rw [hm]
    exact congrArg _ hstack
  · left
    have hnone : w.sched.polled (.runStep (w.processTimers W).1 []) = none :=
      Option.not_isSome_iff_eq_none.mp hpolled
    have hrun := Scheduling.Machine.runStep_unpolled (m := w.sched)
      ((w.processTimers W).2.processTimers W).1 hnone hstack
    have hstep : w.sched.step (.runStep (w.processTimers W).1
        ((w.processTimers W).2.processTimers W).1) = some (_, _) :=
      congrArg some hrun
    obtain ⟨trace, hbegin⟩ := beginStep_unpolled hnone hstep
    exact ⟨_, _, hbegin, hstack, served_syncTask (served_processTimers _)⟩

lemma endPoll_single {id : Scheduling.TaskId} {future : Nat}
    (hstack : w.sched.stack = [.poll id future]) (result : Option Scheduling.TaskResult) :
    ∃ state w', w.endPoll W result = (some (.state state), w') ∧ w'.sched.stack = [] ∧
      w'.timers.timers.Served := by
  simp only [endPoll]
  generalize hw : { w with timers := { w.timers with
    timers := { w.timers.timers with host := w.timers.timers.host.setTask none } } } = w₁
  have hstack₁ : (w₁.processTimers W).2.sched.stack = [.poll id future] := by
    rw [← hw]
    exact hstack
  obtain ⟨m, state, hstep, hm⟩ := Scheduling.Machine.pollReturn_of_single hstack₁ result
    (w₁.processTimers W).1
  rw [schedule_of_step hstep]
  exact ⟨state, _, rfl, hm, served_syncTask (served_processTimers w₁)⟩

/-- The polled future returns from its own poll only. -/
lemma stack_poll {id : Scheduling.TaskId} {future : Nat}
    (hstack : w.sched.stack = [.poll id future]) : (w.poll o).sched.stack = [.poll id future] := by
  have hbottom : (w.poll o).sched.AtBottom id future := by
    refine (Onward.of_moves (moves_poll (o := o) w)).reach.invariant
      (I := fun m => m.AtBottom id future) ⟨[], hstack⟩ ?_
    rintro m e m' hm ⟨_, hreturn⟩ ⟨out, hstep⟩
    exact hm.of_step hstep hreturn
  apply hbottom.stack_eq
  exact o.returns { w with polls := w.polls + 1 } (by rw [hstack]; rfl)

/-- The step of the scheduler in parts. -/
lemma runStep_cases (hstack : w.sched.stack = []) :
    (∃ state w', w.beginStep o.willWake = (some (.state state), w') ∧
        w.runStep o = (state, w')) ∨
      ∃ w₁ state w₂, w.beginStep o.willWake = (none, w₁) ∧
        (w₁.poll o).endPoll o.willWake (o.result (w₁.poll o)) = (some (.state state), w₂) ∧
        w.runStep o = (state, w₂) := by
  rcases beginStep_cases (W := o.willWake) hstack with
    ⟨state, w', hbegin, _⟩ | ⟨w₁, id, future, hbegin, hstack₁⟩
  · refine .inl ⟨state, w', hbegin, ?_⟩
    rw [runStep, hbegin]
  · obtain ⟨state, w₂, hend, _⟩ := endPoll_single (W := o.willWake)
      (stack_poll (o := o) hstack₁) (o.result (w₁.poll o))
    refine .inr ⟨w₁, state, w₂, hbegin, hend, ?_⟩
    rw [runStep, hbegin]
    dsimp only
    rw [hend]

/-- Where a step ends. -/
theorem runStep_spec (hstack : w.sched.stack = []) :
    (w.runStep o).2.sched.stack = [] ∧ (w.runStep o).2.timers.timers.Served := by
  rcases beginStep_cases (W := o.willWake) hstack with
    ⟨state, w', hbegin, hdone⟩ | ⟨w₁, id, future, hbegin, hstack₁⟩
  · rw [runStep, hbegin]
    exact hdone
  · obtain ⟨state, w₂, hend, hdone⟩ := endPoll_single (W := o.willWake)
      (stack_poll (o := o) hstack₁) (o.result (w₁.poll o))
    rw [runStep, hbegin]
    dsimp only
    rw [hend]
    exact hdone

/-! ### The spawn queue -/

lemma spawnQueue_beginStep (w : World Q) :
    (w.beginStep W).2.sched.sched.spawnQueue = [] := by
  have hschedule : ∀ (w : World Q) fired late,
      (w.schedule (.runStep fired late)).2.sched.sched.spawnQueue = [] := by
    intro w fired late
    have hstep : w.sched.step (.runStep fired late) = some (w.sched.runStep fired late) := rfl
    rw [schedule_of_step hstep]
    exact (Scheduling.Machine.same_runStep fired late).queue.trans
      Scheduling.Machine.spawnQueue_prepared
  simp only [beginStep]
  split_ifs
  · exact hschedule _ _ _
  · exact hschedule _ _ _

lemma Onward.length_completions {P : Scheduling.Machine → Scheduling.Event → Prop}
    (hw : w.Replays) (h : Onward P w w') :
    w.sched.sched.completions.length ≤ w'.sched.sched.completions.length := by
  refine (h.reach.invariant (I := fun m => m.Valid ∧
    w.sched.sched.completions.length ≤ m.sched.completions.length)
    ⟨hw.valid, Nat.le_refl _⟩ ?_).2
  rintro m e m' ⟨hm, hle⟩ _ ⟨out, hstep⟩
  refine ⟨hm.of_step hstep, ?_⟩
  rw [(Scheduling.Machine.effect_of_step hstep).length_completions hm.sched]
  exact Nat.le_add_right_of_le hle

/-- All that was spawned before a step gets its id in it. -/
theorem taskId?_runStep (hw : w.Replays) (hstack : w.sched.stack = [])
    (hk : k < w.sched.sched.completions.length) :
    ((w.runStep o).2.sched.sched.taskId? k).isSome := by
  have hbegin : Onward Within w (w.beginStep o.willWake).2 :=
    .of_moves (moves_beginStep (fun _ _ _ => within_of_ne (by simp)) w)
  have hid : ((w.beginStep o.willWake).2.sched.sched.taskId? k).isSome := by
    by_contra hnone
    obtain ⟨task, hmem, _⟩ := (hw.onward hbegin).sound.queued k
      (Nat.lt_of_lt_of_le hk (hbegin.length_completions hw))
      (Option.not_isSome_iff_eq_none.mp hnone)
    rw [spawnQueue_beginStep] at hmem
    cases hmem
  rcases runStep_cases (o := o) hstack with
    ⟨state, w', heq, hrun⟩ | ⟨w₁, state, w₂, heq, hend, hrun⟩
  · rw [hrun]
    rwa [heq] at hid
  · rw [hrun]
    rw [heq] at hid hbegin
    obtain ⟨id, hid⟩ := Option.isSome_iff_exists.mp hid
    have hpoll : Onward Within w₁ (w₁.poll o) :=
      .of_moves ((moves_poll w₁).mono fun _ _ h => h.1)
    have hreturn : Onward Within (w₁.poll o) w₂ := by
      have h := moves_endPoll (W := o.willWake) (P := Within) (w₁.poll o)
        (o.result (w₁.poll o)) fun _ => within_of_ne (by simp)
      rw [hend] at h
      exact .of_moves h
    rw [(hw.onward hbegin).taskId? (hpoll.trans hreturn) hid]
    rfl

end World

end Runtimes

end AmlaSandbox
