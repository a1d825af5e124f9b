import AmlaSandbox.Scheduler.Machine

/-!
# What an event changes

One inversion lemma for each part of the machine. The scheduler changes in one of five ways; the
stack of polls and the two records change as the functions of the event say.
-/

namespace AmlaSandbox.Scheduling

open Library Scheduler

variable {m m' : Machine} {e : Event} {out : Option Output} {s s' : Scheduler} {k : Nat}
  {id : TaskId}

/-- A handle was asked for its result: the table stays, and no result appears. -/
structure Handled (s s' : Scheduler) : Prop extends s.Keeps s' where
  task?_eq : ∀ i, s'.task? i = s.task? i
  result : ∀ k slot' r, s'.slot? k = some slot' → slot'.result = some r →
    ∃ slot, s.slot? k = some slot ∧ slot.result = some r

lemma Handled.refl (s : Scheduler) : Handled s s :=
  ⟨.refl s, fun _ => rfl, fun _ slot _ hslot hr => ⟨slot, hslot, hr⟩⟩

lemma Handled.lookup (h : Handled s s') : s'.lookup id = s.lookup id := by
  cases ht : s.lookup id with
  | none => exact h.lookup_eq_none ht
  | some t =>
    obtain ⟨htask, hkey⟩ := lookup_eq_some.mp ht
    exact lookup_eq_some.mpr ⟨(h.task?_eq _).trans htask, hkey.trans (h.keyAt _).symm⟩

lemma Handled.modifySlot {f : TaskSlot → TaskSlot} (hid : ∀ slot, (f slot).taskId = slot.taskId)
    (hf : ∀ slot, (f slot).result = none ∨ (f slot).result = slot.result) :
    Handled s (s.modifySlot k f) where
  toKeeps := .modifySlot hid
  task?_eq _ := rfl
  result j slot' r hslot hr := by
    rw [Scheduler.slot?_modifySlot] at hslot
    split_ifs at hslot
    · obtain ⟨slot, hold, rfl⟩ := Option.map_eq_some_iff.mp hslot
      rcases hf slot with hnone | heq
      · rw [hnone] at hr
        cases hr
      · exact ⟨slot, hold, heq ▸ hr⟩
    · exact ⟨slot', hslot, hr⟩

lemma handled_pollHandle (waker : Waker) : Handled s (s.pollHandle k waker).2 := by
  simp only [Scheduler.pollHandle]
  split
  · exact .refl s
  · split_ifs
    · exact .refl s
    · split
      · exact .modifySlot (fun _ => rfl) fun _ => .inl rfl
      · exact .modifySlot (fun _ => rfl) fun _ => .inr rfl

lemma handled_tryGet : Handled s (s.tryGet k).2 := by
  simp only [Scheduler.tryGet]
  split
  · exact .modifySlot (fun _ => rfl) fun _ => .inl rfl
  · exact .refl s

namespace Machine

/-! ### Calls and returns -/

lemma call_eq_some {x : Machine × Option Output} (h : m.call x = some (m', out)) :
    x = (m', out) := by
  simp only [call] at h
  split at h
  · cases h
  · exact Option.some.inj h

lemma runStep_of_step {fired late : List Nat} (h : m.step (.runStep fired late) = some (m', out)) :
    (m.runStep fired late).1 = m' ∧ (m.runStep fired late).2 = out :=
  Prod.mk.inj (Option.some.inj h)

lemma pollReturn_of_step {result : Option TaskResult} {late : List Nat}
    (h : m.step (.pollReturn result late) = some (m', out)) :
    ∃ id future rest, m.stack = .poll id future :: rest ∧
      (m.pollReturn id future rest result late).1 = m' ∧
      (m.pollReturn id future rest result late).2 = out := by
  simp only [step] at h
  split at h
  · rename_i id future rest hstack
    exact ⟨id, future, rest, hstack, Prod.mk.inj (Option.some.inj h)⟩
  · cases h

section

variable {state : SchedulerState}

lemma same_returnState (h : s.Same m.sched) : s.Same (m.returnState state).1.sched := by
  apply h.trans
  simp only [returnState]
  split
  · split_ifs <;> exact ⟨rfl, rfl, rfl⟩
  · exact .refl _

lemma polls_returnState : (m.returnState state).1.polls = m.polls := by
  simp only [returnState]
  split
  · rename_i hstack
    split_ifs
    · rfl
    · simp only [polls]
      rw [hstack]
      rfl
  · rfl

lemma spawner_returnState : (m.returnState state).1.spawner = m.spawner := by
  simp only [returnState]
  split
  · split_ifs <;> rfl
  · rfl

lemma outputs_returnState : (m.returnState state).1.outputs = m.outputs := by
  simp only [returnState]
  split
  · split_ifs <;> rfl
  · rfl

end

lemma popReady_eq_some {i : Nat} {task : Task} {queue rest : List Nat}
    (h : s.popReady queue = (some (i, task), rest)) : s.task? i = some task := by
  induction queue with
  | nil => cases h
  | cons j queue ih =>
    simp only [Scheduler.popReady] at h
    split at h
    · obtain ⟨⟨rfl, rfl⟩, _⟩ : (_ ∧ _) ∧ _ := by simpa using h
      assumption
    · exact ih h

/-! ### The scheduler -/

/-- The ways in which an event changes the scheduler. -/
inductive Effect (m : Machine) : Event → Scheduler → Prop
  | quiet {e : Event} {s : Scheduler} :
    m.spawned e = [] → m.ending e = none → m.sched.Same s → Effect m e s
  | spawn : Effect m .spawn m.sched.spawn
  | handle {e : Event} {s : Scheduler} :
    m.spawned e = [] → m.ending e = none → (∀ result late, e ≠ .pollReturn result late) →
    Handled m.sched s → Effect m e s
  | insert {fired late : List Nat} {s : Scheduler} :
    (m.prepared fired).Same s → Effect m (.runStep fired late) s
  | cancel {id : TaskId} {s : Scheduler} :
    m.ending (.cancelTask id) = some id → m.sched.Ended TaskSlot.cancel id s →
    Effect m (.cancelTask id) s
  | finish {future : Nat} {id : TaskId} {result : TaskResult} {late : List Nat} {s : Scheduler} :
    m.top? = some (id, future) →
    m.ending (.pollReturn (some result) late) = some (m.sched.keyAt id.slot) →
    m.sched.Ended (TaskSlot.finish result) (m.sched.keyAt id.slot) s →
    Effect m (.pollReturn (some result) late) s

lemma same_runStep (fired late : List Nat) :
    (m.prepared fired).Same (m.runStep fired late).1.sched := by
  unfold runStep
  dsimp only
  split
  · exact ⟨rfl, rfl, rfl⟩
  · exact same_returnState ⟨rfl, rfl, rfl⟩

lemma top?_eq {future : Nat} {rest : List Frame} (hstack : m.stack = .poll id future :: rest) :
    m.top? = some (id, future) := by
  simp only [top?]
  rw [hstack]
  rfl

lemma stack_of_top? {future : Nat} (htop : m.top? = some (id, future)) :
    ∃ rest, m.stack = .poll id future :: rest := by
  obtain ⟨frame, hframe, hpoll⟩ := Option.bind_eq_some_iff.mp htop
  cases frame with
  | run => cases hpoll
  | poll id future =>
    cases hpoll
    exact List.head?_eq_some_iff.mp hframe

lemma same_pollReturn (m : Machine) (id : TaskId) (future : Nat) (rest : List Frame)
    (result : Option TaskResult) (late : List Nat) :
    (m.returned id result).Same (m.pollReturn id future rest result late).1.sched :=
  same_returnState ⟨rfl, rfl, rfl⟩

lemma effect_of_pollReturn {future : Nat} {rest : List Frame} (result : Option TaskResult)
    (late : List Nat) (hstack : m.stack = .poll id future :: rest) :
    Effect m (.pollReturn result late) (m.pollReturn id future rest result late).1.sched := by
  have htop := top?_eq hstack
  have hleave : m.sched.Same m.sched.leavePoll := ⟨rfl, rfl, rfl⟩
  have hsame := same_pollReturn m id future rest result late
  cases result with
  | none => exact .quiet rfl rfl (hleave.trans hsame)
  | some result =>
    cases htask : m.sched.task? id.slot with
    | none =>
      have hquiet : m.returned id (some result) = m.sched.leavePoll := by
        simp only [returned, Scheduler.completeTask, hleave.task?, htask]
      rw [hquiet] at hsame
      exact .quiet rfl (by simp [ending, htop, htask]) (hleave.trans hsame)
    | some task =>
      have hended := Scheduler.completeTask_ended result (hleave.task?.trans htask)
      exact .finish htop (by simp [ending, htop, htask])
        ((hended.of_same_left hleave).of_same hsame)

theorem effect_of_step (h : m.step e = some (m', out)) : Effect m e m'.sched := by
  cases e with
  | spawn =>
    obtain ⟨rfl, _⟩ := Prod.mk.inj (call_eq_some h)
    exact .spawn
  | wake waker =>
    obtain ⟨rfl, _⟩ := Prod.mk.inj (call_eq_some h)
    exact .quiet rfl rfl (Scheduler.same_wakeTaken (some waker))
  | pollHandle handle waker =>
    obtain ⟨rfl, _⟩ := Prod.mk.inj (call_eq_some h)
    exact .handle rfl rfl (by simp) (handled_pollHandle waker)
  | tryGet handle =>
    obtain ⟨rfl, _⟩ := Prod.mk.inj (call_eq_some h)
    exact .handle rfl rfl (by simp) handled_tryGet
  | cancelTask id =>
    obtain ⟨rfl, _⟩ := Prod.mk.inj (call_eq_some h)
    cases ht : m.sched.lookup id with
    | none =>
      refine .quiet rfl (by simp [ending, ht]) ?_
      rw [Scheduler.cancelTask_of_lookup_eq_none ht]
      exact .refl _
    | some task => exact .cancel (by simp [ending, ht]) (Scheduler.cancelTask_ended ht)
  | run =>
    obtain ⟨rfl, _⟩ := Prod.mk.inj (call_eq_some h)
    exact .quiet rfl rfl (.refl _)
  | runStep fired late =>
    obtain ⟨rfl, _⟩ := runStep_of_step h
    exact .insert (same_runStep fired late)
  | pollReturn result late =>
    obtain ⟨id, future, rest, hstack, rfl, _⟩ := pollReturn_of_step h
    exact effect_of_pollReturn result late hstack

/-! ### The stack and the records -/

lemma polls_runStep (fired late : List Nat) :
    (m.runStep fired late).1.polls = (m.polled (.runStep fired late)).toList ++ m.polls := by
  unfold runStep polled
  dsimp only
  split
  · rename_i hpop
    rw [hpop]
    rfl
  · rename_i hpop
    rw [hpop, polls_returnState]
    rfl

/-- Beginning a step records nothing. -/
lemma records_runStep (fired late : List Nat) :
    (m.runStep fired late).1.spawner = m.spawner ∧
      (m.runStep fired late).1.outputs = m.outputs := by
  unfold runStep
  dsimp only
  split
  · exact ⟨rfl, rfl⟩
  · exact ⟨spawner_returnState, outputs_returnState⟩

/-- An event starts the poll of the popped task, ends the one on top, or leaves the polls alone. -/
theorem polls_of_step (h : m.step e = some (m', out)) :
    m'.polls = (m.polled e).toList ++ m.remaining e := by
  cases e with
  | runStep fired late =>
    obtain ⟨rfl, _⟩ := runStep_of_step h
    exact polls_runStep fired late
  | pollReturn result late =>
    obtain ⟨id, future, rest, hstack, rfl, _⟩ := pollReturn_of_step h
    have htail : m.polls.tail = rest.filterMap Frame.poll? := by
      simp only [polls, hstack]
      rfl
    exact polls_returnState.trans htail.symm
  | _ =>
    obtain ⟨rfl, _⟩ := Prod.mk.inj (call_eq_some h)
    rfl

theorem spawner_of_step (h : m.step e = some (m', out)) :
    m'.spawner = m.spawner ++ m.spawned e := by
  cases e with
  | spawn =>
    obtain ⟨rfl, _⟩ := Prod.mk.inj (call_eq_some h)
    rfl
  | runStep fired late =>
    obtain ⟨rfl, _⟩ := runStep_of_step h
    exact (records_runStep fired late).1.trans (List.append_nil _).symm
  | pollReturn result late =>
    obtain ⟨id, future, rest, _, rfl, _⟩ := pollReturn_of_step h
    exact spawner_returnState.trans (List.append_nil _).symm
  | _ =>
    obtain ⟨rfl, _⟩ := Prod.mk.inj (call_eq_some h)
    exact (List.append_nil _).symm

theorem outputs_of_step (h : m.step e = some (m', out)) :
    m'.outputs = m.outputs ++ m.produced e := by
  cases e with
  | runStep fired late =>
    obtain ⟨rfl, _⟩ := runStep_of_step h
    exact (records_runStep fired late).2.trans (List.append_nil _).symm
  | pollReturn result late =>
    obtain ⟨id, future, rest, hstack, rfl, _⟩ := pollReturn_of_step h
    apply outputs_returnState.trans
    cases result with
    | none => rfl
    | some result => simp [produced, top?_eq hstack]
  | _ =>
    obtain ⟨rfl, _⟩ := Prod.mk.inj (call_eq_some h)
    exact (List.append_nil _).symm

end Machine

end AmlaSandbox.Scheduling
