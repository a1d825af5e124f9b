import AmlaSandbox.Scheduler.Table

/-!
# Insertion of queued tasks

A queued task enters the table under the next key of the table. Every task that was there keeps its
key and its children; the parent, if it is still there, gets one child more.
-/

namespace AmlaSandbox.Scheduling

open Library

namespace Scheduler

variable {s : Scheduler} {i k : Nat} {id parentId : TaskId} {t t' task : Task}

/-! ### The table after an insertion -/

/-- The table with a child added to its parent, unless the parent's slot was reused. -/
def adoptIn (T : GenTable Task) (parent : Option TaskId) (id : TaskId) : GenTable Task :=
  match parent with
  | some parentId =>
    if T.gen parentId.slot = parentId.generation then
      T.modify parentId.slot fun t => { t with children := t.children ++ [id] }
    else T
  | none => T

/-- The table once a task is placed, before its parent adopts it. -/
def placed (s : Scheduler) (task : Task) : GenTable Task :=
  s.table.insert (withRoot task s.table.nextKey)

lemma table_insertTask :
    (s.insertTask task).table = adoptIn (s.placed task) task.parent s.table.nextKey := by
  cases hfree : s.freeSlots with
  | nil =>
    cases hparent : task.parent with
    | none =>
      simp [insertTask, placeTask, adoptChild, adoptIn, placed, GenTable.insert, GenTable.nextKey,
        table, modifySlot, hfree, hparent]
    | some parentId =>
      simp only [insertTask, placeTask, adoptChild, adoptIn, placed, GenTable.insert,
        GenTable.nextKey, table, modifySlot, hfree, hparent, gen, GenTable.gen]
      split_ifs <;> rfl
  | cons i free =>
    cases hparent : task.parent with
    | none =>
      simp [insertTask, placeTask, adoptChild, adoptIn, placed, GenTable.insert, GenTable.nextKey,
        table, modifySlot, hfree, hparent, gen]
    | some parentId =>
      simp only [insertTask, placeTask, adoptChild, adoptIn, placed, GenTable.insert,
        GenTable.nextKey, table, modifySlot, hfree, hparent, gen, GenTable.gen]
      split_ifs <;> rfl

lemma completions_insertTask :
    (s.insertTask task).completions =
      s.completions.modify task.slot fun slot => { slot with taskId := some s.table.nextKey } := by
  unfold insertTask placeTask adoptChild GenTable.nextKey
  cases hfree : s.freeSlots <;> cases hparent : task.parent <;>
    simp only [table, hfree] <;> try split_ifs
  all_goals rfl

lemma spawnQueue_insertTask : (s.insertTask task).spawnQueue = s.spawnQueue := by
  unfold insertTask placeTask adoptChild
  cases hfree : s.freeSlots <;> cases hparent : task.parent <;>
    simp only [] <;> try split_ifs
  all_goals rfl

lemma wf_adoptIn {T : GenTable Task} (h : T.Wf) (parent : Option TaskId) (id : TaskId) :
    (adoptIn T parent id).Wf := by
  simp only [adoptIn]
  split
  · split_ifs
    · exact h.modify
    · exact h
  · exact h

lemma gen_adoptIn {T : GenTable Task} (parent : Option TaskId) (id : TaskId) :
    (adoptIn T parent id).gen i = T.gen i := by
  simp only [adoptIn]
  split
  · split_ifs <;> rfl
  · rfl

lemma issued_adoptIn {T : GenTable Task} {parent : Option TaskId} {key : TaskId} :
    (adoptIn T parent id).Issued key ↔ T.Issued key := by
  simp only [adoptIn]
  split
  · split_ifs
    · exact GenTable.issued_modify
    · rfl
  · rfl

/-- Adoption only adds children. -/
lemma lookup_adoptIn {T : GenTable Task} {key : TaskId} (parent : Option TaskId) (id : TaskId)
    (ht : T.lookup key = some t) :
    ∃ children, (adoptIn T parent id).lookup key = some { t with children } ∧
      t.children ⊆ children := by
  simp only [adoptIn]
  split
  · split_ifs
    · rw [GenTable.lookup_modify, ht]
      split_ifs
      · exact ⟨_, rfl, List.subset_append_left _ _⟩
      · exact ⟨t.children, rfl, fun _ hc => hc⟩
    · exact ⟨t.children, ht, fun _ hc => hc⟩
  · exact ⟨t.children, ht, fun _ hc => hc⟩

lemma lookup_adoptIn_parent {T : GenTable Task} (ht : T.lookup parentId = some t) :
    (adoptIn T (some parentId) id).lookup parentId =
      some { t with children := t.children ++ [id] } := by
  have hgen : T.gen parentId.slot = parentId.generation :=
    (congrArg Key.generation (GenTable.lookup_eq_some.mp ht).2).symm
  rw [adoptIn, if_pos hgen, GenTable.lookup_modify, if_pos rfl, ht]
  rfl

lemma get?_adoptIn {T : GenTable Task} {parent : Option TaskId}
    (ht : (adoptIn T parent id).get? i = some t') :
    ∃ t, T.get? i = some t ∧ t'.slot = t.slot := by
  simp only [adoptIn] at ht
  split at ht
  · split_ifs at ht
    · rw [GenTable.get?_modify] at ht
      split_ifs at ht
      · obtain ⟨t, hold, rfl⟩ := Option.map_eq_some_iff.mp ht
        exact ⟨t, hold, rfl⟩
      · exact ⟨t', ht, rfl⟩
    · exact ⟨t', ht, rfl⟩
  · exact ⟨t', ht, rfl⟩

/-! ### One insertion -/

lemma wf_insertTask (h : s.table.Wf) : (s.insertTask task).table.Wf := by
  rw [table_insertTask]
  exact wf_adoptIn h.insert _ _

lemma issued_insertTask (h : s.table.Wf) (hid : s.table.Issued id) :
    (s.insertTask task).table.Issued id := by
  rw [table_insertTask, issued_adoptIn]
  exact GenTable.issued_insert h hid

lemma issued_insertTask_nextKey (h : s.table.Wf) :
    (s.insertTask task).table.Issued s.table.nextKey := by
  rw [table_insertTask, issued_adoptIn]
  exact GenTable.issued_insert_nextKey h

/-- A task stays under its id and loses no child. -/
lemma lookup_insertTask (task : Task) (h : s.table.Wf) (ht : s.lookup id = some t) :
    ∃ children, (s.insertTask task).lookup id = some { t with children } ∧
      t.children ⊆ children := by
  simp only [lookup]
  rw [table_insertTask]
  exact lookup_adoptIn _ _ (h.lookup_insert ht)

/-- The parent of the inserted task, if it is in the table, has it among its children. -/
lemma lookup_insertTask_parent (h : s.table.Wf) (hparent : task.parent = some parentId)
    (ht : s.lookup parentId = some t) :
    (s.insertTask task).lookup parentId =
      some { t with children := t.children ++ [s.table.nextKey] } := by
  simp only [lookup]
  rw [table_insertTask, hparent]
  exact lookup_adoptIn_parent (h.lookup_insert ht)

/-- A slot of the table holds the inserted task or what it held before. -/
lemma task?_insertTask (h : s.table.Wf) (ht : (s.insertTask task).task? i = some t') :
    (s.insertTask task).keyAt i = s.table.nextKey ∧ t'.slot = task.slot ∨
      (s.insertTask task).keyAt i = s.keyAt i ∧ ∃ t, s.task? i = some t ∧ t'.slot = t.slot := by
  have hgen : (s.insertTask task).table.gen i = (s.placed task).gen i := by
    rw [table_insertTask, gen_adoptIn]
  simp only [task?] at ht
  rw [table_insertTask] at ht
  obtain ⟨t, hget, hslot⟩ := get?_adoptIn ht
  simp only [keyAt, GenTable.keyAt]
  rw [hgen, placed, h.gen_insert]
  rw [placed, h.get?_insert] at hget
  split_ifs at hget ⊢ with hi
  · refine .inl ⟨by rw [hi], ?_⟩
    rw [hslot, ← Option.some.inj hget]
    rfl
  · exact .inr ⟨rfl, t, hget, hslot⟩

lemma slot?_insertTask : (s.insertTask task).slot? k =
    if k = task.slot then
      (s.slot? k).map fun slot => { slot with taskId := some s.table.nextKey }
    else s.slot? k := by
  simp only [slot?]
  rw [completions_insertTask]
  exact slot?_modifySlot (s := s) _

lemma taskId?_insertTask_self (hlt : task.slot < s.completions.length) :
    (s.insertTask task).taskId? task.slot = some s.table.nextKey := by
  rw [taskId?, slot?_insertTask, if_pos rfl, slot?, List.getElem?_eq_getElem hlt]
  rfl

lemma taskId?_insertTask_of_ne (hk : k ≠ task.slot) :
    (s.insertTask task).taskId? k = s.taskId? k := by
  rw [taskId?, slot?_insertTask, if_neg hk, taskId?]

/-- Insertion resolves no handle. -/
lemma result_insertTask :
    ((s.insertTask task).slot? k).map (·.result) = (s.slot? k).map (·.result) := by
  rw [slot?_insertTask]
  split_ifs
  · cases s.slot? k <;> rfl
  · rfl

lemma length_completions_insertTask :
    (s.insertTask task).completions.length = s.completions.length := by
  rw [completions_insertTask, List.length_modify]

end Scheduler

end AmlaSandbox.Scheduling
