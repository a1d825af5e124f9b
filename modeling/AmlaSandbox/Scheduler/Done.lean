import AmlaSandbox.Scheduler.Invariant

/-!
# When the scheduler reports that all is done

`Done` is read off the counter of occupied slots, which does not count the spawn queue. A step that
polls nothing has emptied the queue before it looks at the counter; a step that polls a future looks
at it after the future may have spawned.
-/

namespace AmlaSandbox.Scheduling

open Library Scheduler

variable {m m' : Machine} {e : Event} {out : Option Output} {s : Scheduler} {i : Nat}
  {id : TaskId} {future : Nat} {rest : List Frame} {result : Option TaskResult}
  {fired late : List Nat}

namespace Machine

/-- No spawned task is left over. -/
def AllDone (s : Scheduler) : Prop := s.spawnQueue = [] ∧ ∀ i, s.task? i = none

/-- If the event lets a call return `Done`, nothing is left over. -/
def DoneSound (m : Machine) (e : Event) : Prop :=
  ∀ m', m.step e = some (m', some (.state .done)) → AllDone m'.sched

/-- When a polled future returns, no spawn request is queued, or some task in the table stays. -/
def NoneQueued (m : Machine) : Event → Prop
  | .pollReturn result late => m.top?.isSome → m.sched.spawnQueue = [] ∨
      ∃ i, (m.sched.task? i).isSome ∧ ¬ m.Ends (.pollReturn result late) (m.sched.keyAt i)
  | _ => True

lemma activeCount_eq_zero (hm : m.Valid) :
    m.sched.activeCount = 0 ↔ ∀ i, m.sched.task? i = none :=
  hm.sched.wf.count_eq_zero

/-! ### What is returned -/

lemma returnState_eq_done {state : SchedulerState} :
    (m.returnState state).2 = some (.state .done) ↔ state = .done := by
  simp only [returnState]
  split
  · cases state <;> simp
  · simp

lemma stepState_eq_done {madeProgress : Bool} :
    s.stepState madeProgress = .done ↔ s.activeCount = 0 := by
  unfold stepState allTasksDone
  split_ifs <;> simp_all

lemma activeCount_returnState {state : SchedulerState} :
    (m.returnState state).1.sched.activeCount = m.sched.activeCount :=
  congrArg GenTable.count (same_returnState (.refl m.sched)).table

lemma pollReturn_eq_done :
    (m.pollReturn id future rest result late).2 = some (.state .done) ↔
      (m.pollReturn id future rest result late).1.sched.activeCount = 0 := by
  simp only [pollReturn]
  rw [returnState_eq_done, stepState_eq_done, activeCount_returnState]

lemma activeCount_runStep (h : (m.runStep fired late).2 = some (.state .done)) :
    (m.runStep fired late).1.sched.activeCount = 0 := by
  unfold runStep at h ⊢
  dsimp only at h ⊢
  split at h
  · cases h
  · exact activeCount_returnState.trans (stepState_eq_done.mp (returnState_eq_done.mp h))

/-- Only the end of a step returns a state. -/
lemma step_of_state {state : SchedulerState} (h : m.step e = some (m', some (.state state))) :
    (∃ fired late, e = .runStep fired late) ∨ ∃ result late, e = .pollReturn result late := by
  cases e with
  | runStep fired late => exact .inl ⟨fired, late, rfl⟩
  | pollReturn result late => exact .inr ⟨result, late, rfl⟩
  | pollHandle handle waker =>
    have hout := (Prod.mk.inj (call_eq_some h)).2
    simp at hout
  | tryGet handle =>
    have hout := (Prod.mk.inj (call_eq_some h)).2
    simp at hout
  | _ => cases (Prod.mk.inj (call_eq_some h)).2

/-- `Done` is returned with the counter at zero. -/
lemma activeCount_of_done (h : m.step e = some (m', some (.state .done))) :
    m'.sched.activeCount = 0 := by
  rcases step_of_state h with ⟨fired, late, rfl⟩ | ⟨result, late, rfl⟩
  · obtain ⟨rfl, hout⟩ := runStep_of_step h
    exact activeCount_runStep hout
  · obtain ⟨id, future, rest, _, rfl, hout⟩ := pollReturn_of_step h
    exact pollReturn_eq_done.mp hout

lemma allDone_of_done (hm : m.Valid) (h : m.step e = some (m', some (.state .done)))
    (hqueue : m'.sched.spawnQueue = []) : AllDone m'.sched :=
  ⟨hqueue, (activeCount_eq_zero (hm.of_step h)).mp (activeCount_of_done h)⟩

/-! ### What is left -/

/-- Which slots are empty after an event that spawns and inserts nothing. -/
lemma all_empty_iff (hm : m.Valid) (h : Effect m e s) (hkeeps : m.sched.Keeps s) :
    (∀ i, s.task? i = none) ↔ ∀ i, (m.sched.task? i).isSome → m.Ends e (m.sched.keyAt i) := by
  constructor
  · intro hall i hi
    by_contra hends
    obtain ⟨t, ht⟩ := Option.isSome_iff_exists.mp hi
    obtain ⟨children, hlookup, _⟩ := h.survivor hm.sched (lookup_keyAt.trans ht) hends
    exact absurd ((hall i).symm.trans (lookup_eq_some.mp hlookup).1) (by simp)
  · intro hall i
    by_contra hne
    obtain ⟨t', ht'⟩ := Option.ne_none_iff_exists'.mp hne
    obtain ⟨t, ht, _⟩ := hkeeps.task i t' ht'
    have hgone := h.lookup_of_ends (hall i (by rw [ht]; rfl))
    rw [← hkeeps.keyAt, lookup_keyAt] at hgone
    exact hne hgone

lemma keeps_of_pollReturn (h : Effect m (.pollReturn result late) s) : m.sched.Keeps s := by
  cases h with
  | quiet _ _ hsame => exact .of_same hsame
  | handle _ _ hne _ => exact absurd rfl (hne _ _)
  | finish _ _ hended => exact hended.toKeeps

/-- If the return of a poll leaves no task in the table, `Done` is returned. -/
lemma exists_done_of_pollReturn (hm : m.Valid) (htop : m.top?.isSome)
    (hall : ∀ i, (m.sched.task? i).isSome →
      m.Ends (.pollReturn result late) (m.sched.keyAt i)) :
    ∃ m', m.step (.pollReturn result late) = some (m', some (.state .done)) := by
  obtain ⟨⟨id, future⟩, htop⟩ := Option.isSome_iff_exists.mp htop
  obtain ⟨rest, hstack⟩ := stack_of_top? htop
  have hstep : m.step (.pollReturn result late) =
      some (m.pollReturn id future rest result late) := by
    simp only [step, hstack]
  have hm' : Valid (m.pollReturn id future rest result late).1 := hm.of_step hstep
  have heffect := effect_of_pollReturn result late hstack
  have hempty := (all_empty_iff hm heffect (keeps_of_pollReturn heffect)).mpr hall
  refine ⟨(m.pollReturn id future rest result late).1, ?_⟩
  rw [hstep, ← pollReturn_eq_done.mpr ((activeCount_eq_zero hm').mpr hempty)]

lemma doneSound_pollReturn_iff (hm : m.Valid) :
    m.DoneSound (.pollReturn result late) ↔ m.NoneQueued (.pollReturn result late) := by
  constructor
  · intro hsound htop
    by_cases hall : ∀ i, (m.sched.task? i).isSome →
        m.Ends (.pollReturn result late) (m.sched.keyAt i)
    · obtain ⟨m', hstep⟩ := exists_done_of_pollReturn hm htop hall
      have hqueue := (keeps_of_pollReturn (effect_of_step hstep)).queue
      exact .inl (hqueue.symm.trans (hsound m' hstep).1)
    · simp only [not_forall, exists_prop] at hall
      exact .inr hall
  · intro hnone m' hstep
    have heffect := effect_of_step hstep
    have hkeeps := keeps_of_pollReturn heffect
    apply allDone_of_done hm hstep
    obtain ⟨id, future, rest, hstack, _⟩ := pollReturn_of_step hstep
    rcases hnone (by rw [top?_eq hstack]; rfl) with hqueue | ⟨i, hi, hends⟩
    · exact hkeeps.queue.trans hqueue
    · -- some task stays, so the counter is not zero
      have hempty := (activeCount_eq_zero (hm.of_step hstep)).mp (activeCount_of_done hstep)
      exact absurd ((all_empty_iff hm heffect hkeeps).mp hempty i hi) hends

/-- In every reachable state, `run` and `run_step` return `Done` only when nothing is left over,
exactly if no spawn request is queued when a polled future returns, or some task stays. -/
theorem doneSound_iff (h : Reachable anyEvent m) : m.DoneSound e ↔ m.NoneQueued e := by
  have hm := valid_of_reachable h
  cases e with
  | runStep fired late =>
    refine ⟨fun _ => trivial, ?_⟩
    intro _ m' hstep
    obtain ⟨rfl, _⟩ := runStep_of_step hstep
    exact allDone_of_done hm hstep ((same_runStep fired late).queue.trans spawnQueue_prepared)
  | pollReturn result late => exact doneSound_pollReturn_iff hm
  | _ =>
    refine ⟨fun _ => trivial, ?_⟩
    intro _ m' hstep
    rcases step_of_state hstep with ⟨_, _, he⟩ | ⟨_, _, he⟩ <;> cases he

/-- A host that spawns one task and runs it. -/
theorem doneSound_of_one_task :
    (exec {} [.spawn, .runStep [] []]).DoneSound (.pollReturn (some (.ok ⟨0, {}⟩)) []) :=
  (doneSound_iff (reachable_exec [.spawn, .runStep [] []])).mpr fun _ => .inl (by decide)

/-- A task that spawns a child and finishes in the same poll: `Done` is returned while the request
is still queued. -/
theorem done_with_spawn_queued :
    ¬ ∀ m, Reachable anyEvent m → ∀ e m', m.step e = some (m', some (.state .done)) →
      AllDone m'.sched := by
  intro h
  have hdone := h _ (reachable_exec [.spawn, .runStep [] [], .spawn])
    (.pollReturn (some (.ok ⟨0, {}⟩)) []) _ rfl
  exact absurd hdone.1 (by decide)

end Machine

end AmlaSandbox.Scheduling
