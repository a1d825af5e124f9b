import AmlaSandbox.Scheduler.Structured

/-!
# What is active, and what the host spawned

A spawn is active from its request until its task leaves the table, and its handle has no result
until then. Nothing but the host starts a root; where children do not outlive their parents, no
task is left once no root is.
-/

namespace AmlaSandbox.Scheduling

open Library Scheduler

variable {m m' : Machine} {e : Event} {out : Option Output} {s s' : Scheduler} {k p : Nat}
  {pending : List Task} {task : Task}

namespace Scheduler

/-- A spawn waits in a queue, or its task is in the table. -/
def Holds (s : Scheduler) (pending : List Task) (k : Nat) : Prop :=
  (∃ task ∈ pending, task.slot = k) ∨ ∃ i t, s.task? i = some t ∧ t.slot = k

/-- No handle of what is held has a result. -/
def Unfinished (s : Scheduler) (pending : List Task) : Prop :=
  ∀ k slot, s.Holds pending k → s.slot? k = some slot → slot.result = none

/-- Every spawn without an id waits in the queue. -/
def Queued (s : Scheduler) (pending : List Task) : Prop :=
  ∀ k, k < s.completions.length → s.taskId? k = none → ∃ task ∈ pending, task.slot = k

lemma Holds.lt (h : s.Valid pending) (hk : s.Holds pending k) : k < s.completions.length := by
  rcases hk with ⟨task, hmem, rfl⟩ | ⟨i, t, ht, rfl⟩
  · exact h.pending_lt task hmem
  · exact lt_completions_of_taskId? (h.occupant i t ht)

lemma Holds.of_keeps (h : s.Keeps s') (hk : s'.Holds pending k) : s.Holds pending k := by
  refine hk.imp_right ?_
  rintro ⟨i, t', ht', rfl⟩
  obtain ⟨t, ht, hslot⟩ := h.task i t' ht'
  exact ⟨i, t, ht, hslot.symm⟩

/-- The insertion of a request turns it into a task. -/
lemma Holds.of_insertTask (hs : s.Valid (task :: pending))
    (hk : (s.insertTask task).Holds pending k) : s.Holds (task :: pending) k := by
  rcases hk with ⟨other, hmem, rfl⟩ | ⟨i, t', ht', rfl⟩
  · exact .inl ⟨other, List.mem_cons_of_mem _ hmem, rfl⟩
  · rcases task?_insertTask hs.wf ht' with ⟨_, hslot⟩ | ⟨_, t, ht, hslot⟩
    · exact .inl ⟨task, List.mem_cons_self, hslot.symm⟩
    · exact .inr ⟨i, t, ht, hslot.symm⟩

lemma Unfinished.insertTask (h : s.Unfinished (task :: pending)) (hs : s.Valid (task :: pending)) :
    (s.insertTask task).Unfinished pending := by
  intro k slot' hk hslot'
  have hmap : ((s.insertTask task).slot? k).map (·.result) = (s.slot? k).map (·.result) :=
    result_insertTask
  rw [hslot', Option.map_some] at hmap
  obtain ⟨slot, hslot, hresult⟩ := Option.map_eq_some_iff.mp hmap.symm
  rw [← hresult]
  exact h k slot (hk.of_insertTask hs) hslot

lemma Queued.insertTask (h : s.Queued (task :: pending)) (hs : s.Valid (task :: pending)) :
    (s.insertTask task).Queued pending := by
  intro k hlt hnone
  rw [length_completions_insertTask] at hlt
  have hne : k ≠ task.slot := by
    rintro rfl
    rw [taskId?_insertTask_self hlt] at hnone
    cases hnone
  rw [taskId?_insertTask_of_ne hne] at hnone
  obtain ⟨other, hmem, rfl⟩ := h k hlt hnone
  rcases List.mem_cons.mp hmem with rfl | hmem
  · exact absurd rfl hne
  · exact ⟨other, hmem, rfl⟩

/-- A task that ends takes its completion slot along; the slots of the others stay. -/
lemma Ended.slot_of_holds {mark : TaskSlot → TaskSlot} {root : TaskId} (h : Ended mark root s s')
    (hs : s.Valid pending) (hk : s'.Holds pending k) : s'.slot? k = s.slot? k := by
  rcases h.slot k with hslot | ⟨j, u, hu, rfl, hbelow, _⟩
  · exact hslot
  · have hoccupant := hs.occupant j u hu
    rcases hk with ⟨task, hmem, hslot⟩ | ⟨i, t', ht', hslot⟩
    · have hnone := hs.pending_taskId task hmem
      rw [hslot, hoccupant] at hnone
      cases hnone
    · -- the task that is left would be the one that was removed
      obtain ⟨t, ht, hslot'⟩ := h.task i t' ht'
      have hkey := hs.occupant i t ht
      rw [← hslot', hslot, hoccupant] at hkey
      have hgone := h.removed _ hbelow
      rw [Option.some.inj hkey, ← h.keyAt, lookup_keyAt, ht'] at hgone
      cases hgone

lemma Ended.unfinished {mark : TaskSlot → TaskSlot} {root : TaskId} (h : Ended mark root s s')
    (hs : s.Valid pending) (hunfinished : s.Unfinished pending) : s'.Unfinished pending := by
  intro k slot hk hslot
  rw [h.slot_of_holds hs hk] at hslot
  exact hunfinished k slot (hk.of_keeps h.toKeeps) hslot

lemma Queued.of_keeps (h : s.Queued pending) (hkeeps : s.Keeps s') : s'.Queued pending := by
  intro k hlt hnone
  exact h k (hkeeps.completions ▸ hlt) ((hkeeps.taskId k).symm.trans hnone)

lemma Holds.of_same (h : s.Same s') (hk : s'.Holds pending k) : s.Holds pending k :=
  hk.of_keeps (.of_same h)

lemma Unfinished.of_same (h : s.Unfinished pending) (hsame : s.Same s') :
    s'.Unfinished pending :=
  fun k slot hk hslot => h k slot (hk.of_same hsame) (hsame.slot?.symm.trans hslot)

end Scheduler

namespace Machine

/-- The host spawned it, and it is active. -/
def RootActive (m : Machine) (k : Nat) : Prop := m.spawner[k]? = some none ∧ m.Active k

lemma active_iff_holds : m.Active k ↔ m.sched.Holds m.sched.spawnQueue k := active_iff

/-! ### One event -/

/-- Nothing becomes active but what is spawned. -/
lemma holds_of_effect (hm : m.Valid) (h : Effect m e s) (hk : s.Holds s.spawnQueue k) :
    m.sched.Holds m.sched.spawnQueue k ∨ e = .spawn ∧ k = m.sched.completions.length := by
  have hkeeps : m.sched.Keeps s → m.sched.Holds m.sched.spawnQueue k := by
    intro hkeeps
    rw [hkeeps.queue] at hk
    exact hk.of_keeps hkeeps
  cases h with
  | quiet _ _ hsame => exact .inl (hkeeps (.of_same hsame))
  | spawn =>
    rcases hk with ⟨task, hmem, rfl⟩ | htask
    · simp only [Scheduler.spawn, List.mem_append, List.mem_singleton] at hmem
      rcases hmem with hmem | rfl
      · exact .inl (.inl ⟨task, hmem, rfl⟩)
      · exact .inr ⟨rfl, rfl⟩
    · exact .inl (.inr htask)
  | handle _ _ _ hhandled => exact .inl (hkeeps hhandled.toKeeps)
  | @insert fired _ _ hsame =>
    left
    rw [hsame.queue, spawnQueue_prepared] at hk
    refine (prepared_induction (I := fun s rest => s.Holds rest k →
      m.sched.Holds m.sched.spawnQueue k) (fun s task rest hs hI hk => ?_) hm.sched id).2
      (hk.of_same hsame)
    exact hI (hk.of_insertTask hs)
  | cancel _ hended => exact .inl (hkeeps hended.toKeeps)
  | finish _ _ hended => exact .inl (hkeeps hended.toKeeps)

lemma unfinished_of_effect (hm : m.Valid) (hunfinished : m.sched.Unfinished m.sched.spawnQueue)
    (h : Effect m e s) : s.Unfinished s.spawnQueue := by
  cases h with
  | quiet _ _ hsame =>
    rw [hsame.queue]
    exact hunfinished.of_same hsame
  | spawn =>
    intro k slot hk hslot
    rw [slot?_spawn] at hslot
    split_ifs at hslot with hnew
    · rw [← Option.some.inj hslot]
    · rcases holds_of_effect hm .spawn hk with hold | ⟨_, hlast⟩
      · exact hunfinished k slot hold hslot
      · exact absurd hlast hnew
  | handle hspawned hending hne hhandled =>
    intro k slot' hk hslot'
    cases hresult : slot'.result with
    | none => rfl
    | some r =>
      obtain ⟨slot, hslot, hr⟩ := hhandled.result k slot' r hslot' hresult
      rw [hhandled.queue] at hk
      rw [hunfinished k slot (hk.of_keeps hhandled.toKeeps) hslot] at hr
      cases hr
  | @insert fired _ _ hsame =>
    rw [hsame.queue, spawnQueue_prepared]
    refine Unfinished.of_same (prepared_induction (I := Unfinished)
      (fun s task rest hs hI => hI.insertTask hs) hm.sched ?_).2 hsame
    exact hunfinished
  | cancel _ hended =>
    rw [hended.queue]
    exact hended.unfinished hm.sched hunfinished
  | finish _ _ hended =>
    rw [hended.queue]
    exact hended.unfinished hm.sched hunfinished

lemma queued_of_effect (hm : m.Valid) (hqueued : m.sched.Queued m.sched.spawnQueue)
    (h : Effect m e s) : s.Queued s.spawnQueue := by
  have hkeeps : m.sched.Keeps s → s.Queued s.spawnQueue := by
    intro hkeeps
    rw [hkeeps.queue]
    exact hqueued.of_keeps hkeeps
  cases h with
  | quiet _ _ hsame => exact hkeeps (.of_same hsame)
  | spawn =>
    intro k hlt hnone
    rw [taskId?_spawn] at hnone
    simp only [Scheduler.spawn, List.length_append, List.length_singleton] at hlt
    rcases Nat.lt_succ_iff_lt_or_eq.mp hlt with hlt | rfl
    · obtain ⟨task, hmem, hslot⟩ := hqueued k hlt hnone
      exact ⟨task, List.mem_append_left _ hmem, hslot⟩
    · exact ⟨_, List.mem_append_right _ (List.mem_singleton_self _), rfl⟩
  | handle _ _ _ hhandled => exact hkeeps hhandled.toKeeps
  | @insert fired _ _ hsame =>
    rw [hsame.queue, spawnQueue_prepared]
    refine Queued.of_keeps (prepared_induction (I := Queued)
      (fun s task rest hs hI => hI.insertTask hs) hm.sched ?_).2 (.of_same hsame)
    exact hqueued
  | cancel _ hended => exact hkeeps hended.toKeeps
  | finish _ _ hended => exact hkeeps hended.toKeeps

/-- What is spawned within polls is no root. -/
lemma Valid.rootActive_of_step (hm : m.Valid) (hwithin : e = .spawn → m.top?.isSome)
    (h : m.step e = some (m', out)) (hk : m'.RootActive k) : m.RootActive k := by
  obtain ⟨hroot, hactive⟩ := hk
  rw [spawner_of_step h] at hroot
  rw [active_iff_holds] at hactive
  rcases holds_of_effect hm (effect_of_step h) hactive with hold | ⟨rfl, rfl⟩
  · refine ⟨?_, active_iff_holds.mpr hold⟩
    have hlt := hold.lt hm.sched
    rwa [List.getElem?_append_left (hm.spawner.symm ▸ hlt)] at hroot
  · obtain ⟨poll, htop⟩ := Option.isSome_iff_exists.mp (hwithin rfl)
    rw [← hm.spawner] at hroot
    simp [spawned, htop] at hroot

/-! ### The poll at the bottom of the stack -/

/-- The host polls a future, whatever this future runs within its poll. -/
def AtBottom (m : Machine) (id : TaskId) (future : Nat) : Prop :=
  ∃ above, m.stack = above ++ [.poll id future]

variable {id : TaskId} {future : Nat}

lemma stack_returnState (m : Machine) (state : SchedulerState) :
    (m.returnState state).1.stack = m.stack ∨
      ∃ savedTask savedRoot,
        m.stack = .run savedTask savedRoot :: (m.returnState state).1.stack := by
  simp only [returnState]
  split
  · next savedTask savedRoot rest hstack =>
    split_ifs
    · exact .inl rfl
    · exact .inr ⟨savedTask, savedRoot, hstack⟩
  · exact .inl rfl

lemma AtBottom.returnState (h : m.AtBottom id future) (state : SchedulerState) :
    (m.returnState state).1.AtBottom id future := by
  rcases stack_returnState m state with hsame | ⟨savedTask, savedRoot, hpop⟩
  · rw [AtBottom, hsame]
    exact h
  · obtain ⟨above, habove⟩ := h
    rw [habove] at hpop
    cases above with
    | nil => cases (List.cons_eq_cons.mp hpop).1
    | cons frame above => exact ⟨above, (List.cons_eq_cons.mp hpop).2.symm⟩

/-- The poll at the bottom goes on until its own future returns. -/
lemma AtBottom.of_step (h : m.AtBottom id future) (hstep : m.step e = some (m', out))
    (hreturn : ∀ result late, e = .pollReturn result late → 2 ≤ m.stack.length) :
    m'.AtBottom id future := by
  obtain ⟨above, habove⟩ := h
  cases e with
  | run =>
    obtain ⟨rfl, _⟩ := Prod.mk.inj (call_eq_some hstep)
    exact ⟨_ :: above, congrArg (List.cons _) habove⟩
  | runStep fired late =>
    obtain ⟨rfl, _⟩ := runStep_of_step hstep
    unfold runStep
    dsimp only
    split
    · exact ⟨_ :: above, congrArg (List.cons _) habove⟩
    · apply AtBottom.returnState
      exact ⟨above, habove⟩
  | pollReturn result late =>
    obtain ⟨id', future', rest, hstack, rfl, _⟩ := pollReturn_of_step hstep
    have hlength := hreturn result late rfl
    rw [habove] at hstack hlength
    cases above with
    | nil => simp at hlength
    | cons frame above =>
      apply AtBottom.returnState
      exact ⟨above, (List.cons_eq_cons.mp hstack).2.symm⟩
  | _ =>
    obtain ⟨rfl, _⟩ := Prod.mk.inj (call_eq_some hstep)
    exact ⟨above, habove⟩

lemma AtBottom.stack_eq (h : m.AtBottom id future) (hlength : m.stack.length = 1) :
    m.stack = [.poll id future] := by
  obtain ⟨above, habove⟩ := h
  cases above with
  | nil => exact habove
  | cons frame above =>
    rw [habove] at hlength
    simp at hlength

/-! ### All runs -/

/-- What holds in every run beside the validity of the scheduler. -/
structure Sound (m : Machine) : Prop where
  unfinished : m.sched.Unfinished m.sched.spawnQueue
  queued : m.sched.Queued m.sched.spawnQueue
  spawner_lt : ∀ k p : Nat, m.spawner[k]? = some (some p) → p < k

lemma sound_new : Sound {} where
  unfinished _ _ _ h := by simp [slot?] at h
  queued _ h := absurd h (Nat.not_lt_zero _)
  spawner_lt _ _ h := by simp at h

lemma Sound.of_step (hm : m.Valid) (hsound : m.Sound) (h : m.step e = some (m', out)) :
    m'.Sound where
  unfinished := unfinished_of_effect hm hsound.unfinished (effect_of_step h)
  queued := queued_of_effect hm hsound.queued (effect_of_step h)
  spawner_lt k p hp := by
    rw [spawner_of_step h] at hp
    rcases Nat.lt_or_ge k m.spawner.length with hlt | hge
    · rw [List.getElem?_append_left hlt] at hp
      exact hsound.spawner_lt k p hp
    · rw [List.getElem?_append_right hge] at hp
      have hmem := List.mem_of_getElem? hp
      cases e with
      | spawn =>
        -- the spawner is polled, so that it was spawned before
        obtain ⟨⟨id, future⟩, htop, rfl⟩ : ∃ poll, m.top? = some poll ∧ poll.2 = p := by
          simpa [spawned, eq_comm] using hmem
        have hid := hm.polls _ (top?_mem_polls htop)
        exact Nat.lt_of_lt_of_le (hm.spawner ▸ lt_completions_of_taskId? hid) hge
      | _ => simp [spawned] at hmem

theorem sound_of_reachable {ok : Machine → Event → Prop} (h : Reachable ok m) : m.Sound := by
  refine h.invariant_of (J := Valid) (fun m h => valid_of_reachable h) sound_new ?_
  rintro m e m' hm _ hsound _ ⟨out, hstep⟩
  exact hsound.of_step hm hstep

/-- Where children do not outlive their parents, nothing is active without a root. -/
theorem not_active_of_no_root (h : Reachable KeepsParents m) (hroot : ∀ k, ¬ m.RootActive k)
    (k : Nat) : ¬ m.Active k := by
  have hm := valid_of_reachable h
  have hsound := sound_of_reachable h
  induction k using Nat.strongRecOn with
  | ind k ih =>
    intro hk
    have hlt : k < m.spawner.length := hm.spawner.symm ▸ (active_iff_holds.mp hk).lt hm.sched
    cases hspawner : m.spawner[k] with
    | none => exact hroot k ⟨(List.getElem?_eq_getElem hlt).trans (congrArg some hspawner), hk⟩
    | some p =>
      have hp : m.Spawned p k := (List.getElem?_eq_getElem hlt).trans (congrArg some hspawner)
      exact ih p (hsound.spawner_lt k p hp) (active_of_spawned (linked_of_reachable h) hp hk)

end Machine

end AmlaSandbox.Scheduling
