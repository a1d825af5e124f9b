import AmlaSandbox.Scheduler.Insertion
import Mathlib.Data.List.Nodup

/-!
# Well-formed schedulers

The table is well formed, the ids in the completion slots are issued keys of the table and distinct,
each occupied slot is the one its task's completion slot names, and what waits in the queue has no
id yet.
-/

namespace AmlaSandbox.Scheduling

open Library

namespace Scheduler

variable {s s' : Scheduler} {i k : Nat} {id : TaskId} {t task : Task} {pending : List Task}

/-- A well-formed scheduler whose queue is `pending`. -/
structure Valid (s : Scheduler) (pending : List Task) : Prop where
  wf : s.table.Wf
  issued : ∀ k id, s.taskId? k = some id → s.table.Issued id
  distinct : ∀ k k' id, s.taskId? k = some id → s.taskId? k' = some id → k = k'
  occupant : ∀ i t, s.task? i = some t → s.taskId? t.slot = some (s.keyAt i)
  pending_lt : ∀ task ∈ pending, task.slot < s.completions.length
  pending_taskId : ∀ task ∈ pending, s.taskId? task.slot = none
  pending_nodup : (pending.map (·.slot)).Nodup

lemma lt_completions_of_taskId? (h : s.taskId? k = some id) : k < s.completions.length := by
  obtain ⟨slot, hslot, _⟩ := Option.bind_eq_some_iff.mp h
  exact (List.getElem?_eq_some_iff.mp hslot).1

/-- The task of an id is the one whose completion slot has the id. -/
lemma Valid.slot_eq (h : s.Valid pending) (ht : s.lookup id = some t)
    (hk : s.taskId? k = some id) : t.slot = k := by
  obtain ⟨htask, hkey⟩ := lookup_eq_some.mp ht
  exact h.distinct _ _ id ((h.occupant _ t htask).trans (congrArg some hkey.symm)) hk

lemma Keeps.valid (h : Keeps s s') (hs : s.Valid pending) : s'.Valid pending where
  wf := h.wf hs.wf
  issued k id hk := by
    obtain ⟨hlt, hgen⟩ := hs.issued k id (h.taskId k ▸ hk)
    exact ⟨h.length.symm ▸ hlt, Nat.le_trans hgen (Nat.le_of_eq (h.gen id.slot).symm)⟩
  distinct k k' id hk hk' := hs.distinct k k' id (h.taskId k ▸ hk) (h.taskId k' ▸ hk')
  occupant i t' ht' := by
    obtain ⟨t, ht, hslot⟩ := h.task i t' ht'
    rw [h.taskId, h.keyAt, hslot]
    exact hs.occupant i t ht
  pending_lt task hmem := h.completions.symm ▸ hs.pending_lt task hmem
  pending_taskId task hmem := (h.taskId _).trans (hs.pending_taskId task hmem)
  pending_nodup := hs.pending_nodup

lemma valid_new : Valid {} [] where
  wf := ⟨rfl, List.nodup_nil, by simp [table], rfl⟩
  issued := by simp [taskId?, slot?]
  distinct := by simp [taskId?, slot?]
  occupant := by simp [task?, table, GenTable.get?]
  pending_lt := by simp
  pending_taskId := by simp
  pending_nodup := List.nodup_nil

/-! ### Spawning -/

lemma slot?_spawn :
    s.spawn.slot? k = if k = s.completions.length then some {} else s.slot? k := by
  simp only [slot?, spawn]
  split_ifs with hk
  · rw [hk, List.getElem?_concat_length]
  · rcases Nat.lt_or_gt_of_ne hk with hlt | hgt
    · rw [List.getElem?_append_left hlt]
    · rw [List.getElem?_eq_none (by simp; omega), List.getElem?_eq_none (by omega)]

lemma taskId?_spawn : s.spawn.taskId? k = s.taskId? k := by
  simp only [taskId?]
  rw [slot?_spawn]
  split_ifs with hk
  · rw [hk, slot?, List.getElem?_eq_none (Nat.le_refl _)]
    rfl
  · rfl

theorem Valid.spawn (h : s.Valid s.spawnQueue) : s.spawn.Valid s.spawn.spawnQueue where
  wf := h.wf
  issued k id hk := h.issued k id (taskId?_spawn ▸ hk)
  distinct k k' id hk hk' := h.distinct k k' id (taskId?_spawn ▸ hk) (taskId?_spawn ▸ hk')
  occupant i t ht := taskId?_spawn.trans (h.occupant i t ht)
  pending_lt task hmem := by
    simp only [Scheduler.spawn, List.mem_append, List.mem_singleton, List.length_append,
      List.length_singleton] at hmem ⊢
    rcases hmem with hmem | rfl
    · exact Nat.lt_succ_of_lt (h.pending_lt task hmem)
    · exact Nat.lt_succ_self _
  pending_taskId task hmem := by
    rw [taskId?_spawn]
    simp only [Scheduler.spawn, List.mem_append, List.mem_singleton] at hmem
    rcases hmem with hmem | rfl
    · exact h.pending_taskId task hmem
    · simp [taskId?, slot?]
  pending_nodup := by
    simp only [Scheduler.spawn, List.map_append, List.map_cons, List.map_nil]
    refine List.nodup_append.mpr ⟨h.pending_nodup, List.nodup_singleton _, ?_⟩
    intro k hk k' hk'
    obtain ⟨task, hmem, rfl⟩ := List.mem_map.mp hk
    obtain rfl := List.mem_singleton.mp hk'
    exact Nat.ne_of_lt (h.pending_lt task hmem)

/-! ### The loop over the queue -/

/-- An inserted task takes the next key, which no completion slot has. -/
lemma Valid.taskId?_ne_nextKey (h : s.Valid pending) : s.taskId? k ≠ some s.table.nextKey :=
  fun hk => GenTable.not_issued_nextKey (h.issued k _ hk)

theorem Valid.insertTask (h : s.Valid (task :: pending)) : (s.insertTask task).Valid pending := by
  have hlt : task.slot < s.completions.length := h.pending_lt task List.mem_cons_self
  have hself := taskId?_insertTask_self hlt
  obtain ⟨hnotin, hnodup⟩ := List.nodup_cons.mp h.pending_nodup
  have hne : ∀ other ∈ pending, other.slot ≠ task.slot := by
    intro other hmem heq
    exact hnotin (List.mem_map.mpr ⟨other, hmem, heq⟩)
  have hid : ∀ k id, (s.insertTask task).taskId? k = some id →
      k = task.slot ∧ id = s.table.nextKey ∨ k ≠ task.slot ∧ s.taskId? k = some id := by
    intro k id hk
    by_cases hk' : k = task.slot
    · subst hk'
      exact .inl ⟨rfl, Option.some.inj (hk.symm.trans hself)⟩
    · exact .inr ⟨hk', (taskId?_insertTask_of_ne hk').symm.trans hk⟩
  refine ⟨wf_insertTask h.wf, ?_, ?_, ?_,
    ?_, ?_, hnodup⟩
  · intro k id hk
    rcases hid k id hk with ⟨_, rfl⟩ | ⟨_, hk⟩
    · exact issued_insertTask_nextKey h.wf
    · exact issued_insertTask h.wf (h.issued k id hk)
  · intro k k' id hk hk'
    rcases hid k id hk with ⟨rfl, rfl⟩ | ⟨_, hold⟩ <;>
      rcases hid k' _ hk' with ⟨rfl, hnext⟩ | ⟨_, hold'⟩
    · rfl
    · exact absurd hold' h.taskId?_ne_nextKey
    · exact absurd (hnext ▸ hold) h.taskId?_ne_nextKey
    · exact h.distinct k k' id hold hold'
  · intro i t' ht'
    rcases task?_insertTask h.wf ht' with ⟨hkey, hslot⟩ | ⟨hkey, t, ht, hslot⟩
    · rw [hkey, hslot, hself]
    · have hocc := h.occupant i t ht
      have hslot' : t.slot ≠ task.slot := by
        intro heq
        rw [heq, h.pending_taskId task List.mem_cons_self] at hocc
        cases hocc
      rw [hkey, hslot, taskId?_insertTask_of_ne hslot', hocc]
  · intro other hmem
    rw [length_completions_insertTask]
    exact h.pending_lt other (List.mem_cons_of_mem _ hmem)
  · intro other hmem
    rw [taskId?_insertTask_of_ne (hne other hmem)]
    exact h.pending_taskId other (List.mem_cons_of_mem _ hmem)

lemma spawnQueue_insertTasks (pending : List Task) (s : Scheduler) :
    (insertTasks s pending).spawnQueue = s.spawnQueue := by
  induction pending generalizing s with
  | nil => rfl
  | cons task rest ih => exact (ih _).trans spawnQueue_insertTask

lemma spawnQueue_processSpawnQueue : s.processSpawnQueue.spawnQueue = [] :=
  spawnQueue_insertTasks _ _

section

variable {I : Scheduler → List Task → Prop}
  (hstep : ∀ s task rest, s.Valid (task :: rest) → I s (task :: rest) →
    I (s.insertTask task) rest)

include hstep

lemma insertTasks_induction (pending : List Task) (s : Scheduler) (hs : s.Valid pending)
    (hI : I s pending) : (insertTasks s pending).Valid [] ∧ I (insertTasks s pending) [] := by
  induction pending generalizing s with
  | nil => exact ⟨hs, hI⟩
  | cons task rest ih => exact ih _ hs.insertTask (hstep s task rest hs hI)

/-- The loop over the spawn queue keeps what each of its turns keeps. -/
theorem processSpawnQueue_induction (hs : s.Valid s.spawnQueue)
    (hI : I { s with spawnQueue := [] } s.spawnQueue) :
    s.processSpawnQueue.Valid [] ∧ I s.processSpawnQueue [] := by
  have hclear : Valid { s with spawnQueue := [] } s.spawnQueue :=
    ⟨hs.wf, hs.issued, hs.distinct, hs.occupant, hs.pending_lt, hs.pending_taskId,
      hs.pending_nodup⟩
  exact insertTasks_induction hstep s.spawnQueue _ hclear hI

end

end Scheduler

end AmlaSandbox.Scheduling
