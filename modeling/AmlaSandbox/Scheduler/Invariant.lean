import AmlaSandbox.Scheduler.Effect

/-!
# The invariant of all runs

Whatever the futures do, the scheduler stays well formed and every poll in progress keeps the id
its task was given. From this follow the invariant of the slot table and that ids are never shared.
-/

namespace AmlaSandbox.Scheduling

open Library Scheduler

variable {m m' : Machine} {e : Event} {out : Option Output} {s s' : Scheduler} {k : Nat}
  {id : TaskId} {fired late : List Nat} {ok : Machine → Event → Prop}

lemma Scheduler.Keeps.valid_queue (h : s.Keeps s') (hs : s.Valid s.spawnQueue) :
    s'.Valid s'.spawnQueue :=
  h.queue.symm ▸ h.valid hs

namespace Machine

/-! ### The insertion of the queue -/

/-- What each turn of the loop over the spawn queue keeps holds once a step is prepared. -/
theorem prepared_induction {I : Scheduler → List Task → Prop}
    (hstep : ∀ s task rest, s.Valid (task :: rest) → I s (task :: rest) →
      I (s.insertTask task) rest)
    (hm : m.sched.Valid m.sched.spawnQueue)
    (hI : I { m.sched.fireTimers fired with spawnQueue := [] } m.sched.spawnQueue) :
    (m.prepared fired).Valid [] ∧ I (m.prepared fired) [] := by
  have hkeeps : m.sched.Keeps (m.sched.fireTimers fired) := .of_same ⟨rfl, rfl, rfl⟩
  exact processSpawnQueue_induction hstep (hkeeps.valid_queue hm) hI

lemma valid_prepared (hm : m.sched.Valid m.sched.spawnQueue) : (m.prepared fired).Valid [] :=
  (prepared_induction (I := fun _ _ => True) (fun _ _ _ _ _ => trivial) hm trivial).1

/-- No task in the table loses its place or a child when the queue is inserted. -/
lemma lookup_prepared {t : Task} (hm : m.sched.Valid m.sched.spawnQueue)
    (ht : m.sched.lookup id = some t) :
    ∃ children, (m.prepared fired).lookup id = some { t with children } ∧
      t.children ⊆ children := by
  refine (prepared_induction (I := fun s _ =>
    ∃ children, s.lookup id = some { t with children } ∧ t.children ⊆ children)
    (fun s task rest hs hI => ?_) hm ⟨t.children, ht, fun _ hc => hc⟩).2
  obtain ⟨children, hlookup, hsub⟩ := hI
  obtain ⟨children', hlookup', hsub'⟩ := lookup_insertTask task hs.wf hlookup
  exact ⟨children', hlookup', List.Subset.trans hsub hsub'⟩

lemma taskId?_prepared (hm : m.sched.Valid m.sched.spawnQueue)
    (hk : m.sched.taskId? k = some id) : (m.prepared fired).taskId? k = some id := by
  refine (prepared_induction (I := fun s _ => s.taskId? k = some id)
    (fun s task rest hs hI => ?_) hm hk).2
  have hne : k ≠ task.slot := by
    rintro rfl
    rw [hs.pending_taskId task List.mem_cons_self] at hI
    cases hI
  rw [taskId?_insertTask_of_ne hne, hI]

/-- Inserting the queue resolves no handle. -/
lemma result_prepared (hm : m.sched.Valid m.sched.spawnQueue) :
    ((m.prepared fired).slot? k).map (·.result) = (m.sched.slot? k).map (·.result) :=
  (prepared_induction (I := fun s _ =>
    (s.slot? k).map (·.result) = (m.sched.slot? k).map (·.result))
    (fun _ _ _ _ hI => result_insertTask.trans hI) hm rfl).2

lemma length_completions_prepared (hm : m.sched.Valid m.sched.spawnQueue) :
    (m.prepared fired).completions.length = m.sched.completions.length :=
  (prepared_induction (I := fun s _ => s.completions.length = m.sched.completions.length)
    (fun _ _ _ _ hI => length_completions_insertTask.trans hI) hm rfl).2

lemma spawnQueue_prepared : (m.prepared fired).spawnQueue = [] := spawnQueue_processSpawnQueue

/-! ### One event -/

namespace Effect

lemma valid (h : Effect m e s) (hm : m.sched.Valid m.sched.spawnQueue) : s.Valid s.spawnQueue := by
  cases h with
  | quiet _ _ hsame => exact (Keeps.of_same hsame).valid_queue hm
  | spawn => exact hm.spawn
  | handle _ _ _ hhandled => exact hhandled.toKeeps.valid_queue hm
  | insert hsame =>
    exact (Keeps.of_same hsame).valid_queue (spawnQueue_prepared ▸ valid_prepared hm)
  | cancel _ hended => exact hended.toKeeps.valid_queue hm
  | finish _ _ hended => exact hended.toKeeps.valid_queue hm

/-- An id once given is never changed. -/
lemma taskId? (h : Effect m e s) (hm : m.sched.Valid m.sched.spawnQueue)
    (hk : m.sched.taskId? k = some id) : s.taskId? k = some id := by
  cases h with
  | quiet _ _ hsame => rw [hsame.taskId?, hk]
  | spawn => rw [taskId?_spawn, hk]
  | handle _ _ _ hhandled => rw [hhandled.taskId, hk]
  | insert hsame => rw [hsame.taskId?, taskId?_prepared hm hk]
  | cancel _ hended => rw [hended.taskId, hk]
  | finish _ _ hended => rw [hended.taskId, hk]

lemma length_completions (h : Effect m e s) (hm : m.sched.Valid m.sched.spawnQueue) :
    s.completions.length = m.sched.completions.length + (m.spawned e).length := by
  cases h with
  | quiet hspawned _ hsame => rw [hspawned, hsame.completions, List.length_nil, Nat.add_zero]
  | spawn => exact List.length_append
  | handle hspawned _ _ hhandled =>
    rw [hspawned, hhandled.completions, List.length_nil, Nat.add_zero]
  | insert hsame =>
    rw [hsame.completions, length_completions_prepared hm]
    rfl
  | cancel _ hended => exact hended.completions
  | finish _ _ hended => exact hended.completions

/-- What an event removes is gone after it. -/
lemma lookup_of_ends (h : Effect m e s) (hid : m.Ends e id) : s.lookup id = none := by
  obtain ⟨root, hroot, hbelow⟩ := hid
  cases h with
  | quiet _ hnone _ => cases hnone.symm.trans hroot
  | spawn => cases hroot
  | handle _ hnone _ _ => cases hnone.symm.trans hroot
  | insert _ => cases hroot
  | cancel hid hended => exact hended.removed id (Option.some.inj (hid.symm.trans hroot) ▸ hbelow)
  | finish _ hid hended =>
    exact hended.removed id (Option.some.inj (hid.symm.trans hroot) ▸ hbelow)

/-- What an event does not remove keeps its place, and its children but for the one that ends. -/
lemma survivor {t : Task} (h : Effect m e s) (hm : m.sched.Valid m.sched.spawnQueue)
    (ht : m.sched.lookup id = some t) (hid : ¬ m.Ends e id) :
    ∃ children, s.lookup id = some { t with children } ∧
      ∀ c ∈ t.children, m.ending e ≠ some c → c ∈ children := by
  have hended : ∀ {mark root}, m.ending e = some root → m.sched.Ended mark root s →
      ∃ children, s.lookup id = some { t with children } ∧
        ∀ c ∈ t.children, m.ending e ≠ some c → c ∈ children := by
    intro mark root hroot hended
    obtain ⟨htask, hkey⟩ := lookup_eq_some.mp ht
    obtain ⟨children, hentry, hkept⟩ := hended.survivor id.slot t htask fun hbelow =>
      hid ⟨root, hroot, hkey ▸ hbelow⟩
    refine ⟨children, lookup_eq_some.mpr ⟨hentry, hkey.trans (hended.keyAt _).symm⟩, ?_⟩
    exact fun c hc hne => hkept c hc fun heq => hne (heq ▸ hroot)
  cases h with
  | quiet _ _ hsame => exact ⟨t.children, hsame.lookup.trans ht, fun _ hc _ => hc⟩
  | spawn => exact ⟨t.children, ht, fun _ hc _ => hc⟩
  | handle _ _ _ hhandled => exact ⟨t.children, hhandled.lookup.trans ht, fun _ hc _ => hc⟩
  | insert hsame =>
    obtain ⟨children, hlookup, hsub⟩ := lookup_prepared hm ht
    exact ⟨children, hsame.lookup.trans hlookup, fun _ hc _ => hsub hc⟩
  | cancel hroot h => exact hended hroot h
  | finish _ hroot h => exact hended hroot h

end Effect

/-- Every poll in progress keeps the id that its task was given, and every spawn has a recorded
spawner. -/
structure Valid (m : Machine) : Prop where
  sched : m.sched.Valid m.sched.spawnQueue
  polls : ∀ poll ∈ m.polls, m.sched.taskId? poll.2 = some poll.1
  spawner : m.spawner.length = m.sched.completions.length

lemma mem_polled {poll : TaskId × Nat} (h : poll ∈ m.polled e) :
    ∃ fired late i t, e = .runStep fired late ∧ (m.prepared fired).task? i = some t ∧
      poll = ((m.prepared fired).keyAt i, t.slot) := by
  cases e with
  | runStep fired late =>
    obtain ⟨⟨i, t⟩, hpop, rfl⟩ := Option.map_eq_some_iff.mp h
    exact ⟨fired, late, i, t, rfl, popReady_eq_some (Prod.ext hpop rfl), rfl⟩
  | _ => cases h

lemma mem_polls_of_mem_remaining {poll : TaskId × Nat} (h : poll ∈ m.remaining e) :
    poll ∈ m.polls := by
  cases e with
  | pollReturn => exact List.mem_of_mem_tail h
  | _ => exact h

lemma top?_mem_polls {poll : TaskId × Nat} (h : m.top? = some poll) : poll ∈ m.polls := by
  obtain ⟨frame, hframe, hpoll⟩ := Option.bind_eq_some_iff.mp h
  exact List.mem_filterMap.mpr ⟨frame, List.mem_of_mem_head? hframe, hpoll⟩

theorem Valid.of_step (hm : m.Valid) (h : m.step e = some (m', out)) : m'.Valid := by
  have heffect := effect_of_step h
  refine ⟨heffect.valid hm.sched, ?_, ?_⟩
  · intro poll hpoll
    rw [polls_of_step h, List.mem_append, Option.mem_toList] at hpoll
    rcases hpoll with hpoll | hpoll
    · obtain ⟨fired, late, i, t, rfl, ht, rfl⟩ := mem_polled hpoll
      have hid := (valid_prepared hm.sched).occupant i t ht
      obtain ⟨rfl, _⟩ := runStep_of_step h
      rw [(same_runStep fired late).taskId?, hid]
    · exact heffect.taskId? hm.sched (hm.polls poll (mem_polls_of_mem_remaining hpoll))
  · rw [spawner_of_step h, heffect.length_completions hm.sched, List.length_append, hm.spawner]

theorem valid_of_reachable (h : Reachable ok m) : m.Valid :=
  h.invariant ⟨valid_new, by simp [polls], rfl⟩ fun _ _ _ hm _ ⟨_, hstep⟩ => hm.of_step hstep

/-- Ids survive every run. -/
lemma taskId?_of_reach (hm : m.Valid) (h : Reach Step ok m m')
    (hk : m.sched.taskId? k = some id) : m'.sched.taskId? k = some id := by
  refine (h.invariant (I := fun m' => m'.Valid ∧ m'.sched.taskId? k = some id) ⟨hm, hk⟩ ?_).2
  rintro m e m' ⟨hm, hk⟩ _ ⟨out, hstep⟩
  exact ⟨hm.of_step hstep, (effect_of_step hstep).taskId? hm.sched hk⟩

/-- The counter counts the occupied slots, the free list is the empty slots without repetition, and
ids are the slot and generation of their task and never shared between two spawns. -/
structure SlotTable (s : Scheduler) : Prop where
  activeCount : s.activeCount = s.tasks.countP Option.isSome
  freeSlots_nodup : s.freeSlots.Nodup
  mem_freeSlots : ∀ i, i ∈ s.freeSlots ↔ s.tasks[i]? = some none
  taskId_occupant : ∀ i t, s.task? i = some t → s.taskId? t.slot = some (s.keyAt i)
  taskId_distinct : ∀ k k' id, s.taskId? k = some id → s.taskId? k' = some id → k = k'

/-- The invariant of the slot table holds in every state of every run, and no run changes an id that
was given. -/
theorem slotTable_invariant (h : Reachable anyEvent m) :
    SlotTable m.sched ∧ ∀ m', Reach Step anyEvent m m' →
      ∀ k id, m.sched.taskId? k = some id → m'.sched.taskId? k = some id := by
  have hm := valid_of_reachable h
  obtain ⟨_, hnodup, hfree, hcount⟩ := hm.sched.wf
  exact ⟨⟨hcount, hnodup, hfree, hm.sched.occupant, hm.sched.distinct⟩,
    fun m' hrun k id hk => taskId?_of_reach hm hrun hk⟩

/-- A slot that is freed by a cancellation and reused. -/
theorem slotTable_after_reuse : ∃ m : Machine,
    (m.sched.taskId? 0 = some ⟨0, 0⟩ ∧ m.sched.taskId? 1 = some ⟨0, 1⟩) ∧
    SlotTable m.sched ∧ ∀ m', Reach Step anyEvent m m' →
      ∀ k id, m.sched.taskId? k = some id → m'.sched.taskId? k = some id :=
  ⟨exec {} [.spawn, .runStep [] [], .pollReturn none [], .cancelTask ⟨0, 0⟩, .spawn,
      .runStep [] []], by decide,
    slotTable_invariant (reachable_exec [.spawn, .runStep [] [], .pollReturn none [],
      .cancelTask ⟨0, 0⟩, .spawn, .runStep [] []])⟩

end Machine

end AmlaSandbox.Scheduling
