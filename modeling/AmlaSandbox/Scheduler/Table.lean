import AmlaSandbox.Scheduler.Basic
import Mathlib.Tactic.Common

/-!
# The slot table under the scheduler's operations

How each operation acts on the table, on the completion slots and on the spawn queue. `Keeps` is
what every operation but `spawn` and the insertion of a queued task has in common.
-/

namespace AmlaSandbox.Scheduling

open Library

namespace Scheduler

variable {s s' s'' : Scheduler} {i j k : Nat} {id : TaskId} {t t' : Task}

/-- The id stored in the completion slot of a spawn. -/
def taskId? (s : Scheduler) (k : Nat) : Option TaskId := (s.slot? k).bind (·.taskId)

/-! ### Lookups -/

lemma lookup_eq_some : s.lookup id = some t ↔ s.task? id.slot = some t ∧ id = s.keyAt id.slot :=
  GenTable.lookup_eq_some

lemma lookup_keyAt : s.lookup (s.keyAt i) = s.task? i := GenTable.lookup_keyAt

lemma keyAt_congr (h : s'.gen i = s.gen i) : s'.keyAt i = s.keyAt i := by
  show Key.mk i (s'.gen i) = ⟨i, s.gen i⟩
  rw [h]

/-! ### The primitive updates -/

lemma table_modifyTask (f : Task → Task) : (s.modifyTask i f).table = s.table.modify i f := rfl

lemma table_freeTask : (s.freeTask i).table = s.table.clear i := by
  unfold freeTask GenTable.clear task?
  split_ifs <;> rfl

lemma task?_modifyTask (f : Task → Task) :
    (s.modifyTask i f).task? j = if j = i then (s.task? j).map f else s.task? j := by
  simp only [task?]
  rw [table_modifyTask]
  exact GenTable.get?_modify

lemma task?_freeTask : (s.freeTask i).task? j = if j = i then none else s.task? j := by
  simp only [task?]
  rw [table_freeTask]
  exact GenTable.get?_clear

lemma slot?_modifySlot (f : TaskSlot → TaskSlot) :
    (s.modifySlot k f).slot? j = if j = k then (s.slot? j).map f else s.slot? j := by
  simp only [modifySlot, slot?, List.getElem?_modify]
  rcases eq_or_ne j k with rfl | hj
  · simp
  · simp [hj, hj.symm]

lemma slot?_freeTask : (s.freeTask i).slot? k = s.slot? k := by
  simp only [freeTask]
  split_ifs <;> rfl

/-! ### Operations that neither issue keys nor queue spawns -/

/-- Nothing but the ready queue and the context differs. -/
structure Same (s s' : Scheduler) : Prop where
  table : s'.table = s.table
  queue : s'.spawnQueue = s.spawnQueue
  completions : s'.completions = s.completions

namespace Same

lemma refl (s : Scheduler) : Same s s := ⟨rfl, rfl, rfl⟩

lemma trans (h : Same s s') (h' : Same s' s'') : Same s s'' :=
  ⟨h'.table.trans h.table, h'.queue.trans h.queue, h'.completions.trans h.completions⟩

lemma task? (h : Same s s') : s'.task? i = s.task? i := by
  simp only [Scheduler.task?, h.table]

lemma keyAt (h : Same s s') : s'.keyAt i = s.keyAt i := by
  simp only [Scheduler.keyAt, h.table]

lemma lookup (h : Same s s') : s'.lookup id = s.lookup id := by
  simp only [Scheduler.lookup, h.table]

lemma slot? (h : Same s s') : s'.slot? k = s.slot? k := by
  simp only [Scheduler.slot?, h.completions]

lemma taskId? (h : Same s s') : s'.taskId? k = s.taskId? k := by
  simp only [Scheduler.taskId?, h.slot?]

end Same

lemma same_wakeTaken (w : Option Waker) : Same s (s.wakeTaken w) := by
  rcases w with _ | _ | w <;> exact ⟨rfl, rfl, rfl⟩

/-- No key is issued, no task appears, and the ids of the completion slots stay. -/
structure Keeps (s s' : Scheduler) : Prop where
  gen : ∀ i, s'.gen i = s.gen i
  length : s'.tasks.length = s.tasks.length
  queue : s'.spawnQueue = s.spawnQueue
  completions : s'.completions.length = s.completions.length
  taskId : ∀ k, s'.taskId? k = s.taskId? k
  task : ∀ i t', s'.task? i = some t' → ∃ t, s.task? i = some t ∧ t'.slot = t.slot
  wf : s.table.Wf → s'.table.Wf

namespace Keeps

lemma refl (s : Scheduler) : Keeps s s :=
  ⟨fun _ => rfl, rfl, rfl, rfl, fun _ => rfl, fun _ t h => ⟨t, h, rfl⟩, fun h => h⟩

lemma trans (h : Keeps s s') (h' : Keeps s' s'') : Keeps s s'' where
  gen i := (h'.gen i).trans (h.gen i)
  length := h'.length.trans h.length
  queue := h'.queue.trans h.queue
  completions := h'.completions.trans h.completions
  taskId k := (h'.taskId k).trans (h.taskId k)
  task i t'' ht := by
    obtain ⟨t', ht', hslot'⟩ := h'.task i t'' ht
    obtain ⟨t, ht, hslot⟩ := h.task i t' ht'
    exact ⟨t, ht, hslot'.trans hslot⟩
  wf hwf := h'.wf (h.wf hwf)

lemma of_same (h : Same s s') : Keeps s s' where
  gen i := by simp only [Scheduler.gen, h.table]
  length := congrArg (fun T => T.slots.length) h.table
  queue := h.queue
  completions := by rw [h.completions]
  taskId _ := h.taskId?
  task i t ht := ⟨t, h.task? ▸ ht, rfl⟩
  wf hwf := h.table ▸ hwf

lemma modifyTask {f : Task → Task} (hf : ∀ t, (f t).slot = t.slot) :
    Keeps s (s.modifyTask i f) where
  gen _ := rfl
  length := by simp [Scheduler.modifyTask]
  queue := rfl
  completions := rfl
  taskId _ := rfl
  task j t' ht := by
    rw [task?_modifyTask] at ht
    split_ifs at ht
    · obtain ⟨t, hold, rfl⟩ := Option.map_eq_some_iff.mp ht
      exact ⟨t, hold, hf t⟩
    · exact ⟨t', ht, rfl⟩
  wf hwf := hwf.modify

lemma modifySlot {f : TaskSlot → TaskSlot} (hf : ∀ slot, (f slot).taskId = slot.taskId) :
    Keeps s (s.modifySlot k f) where
  gen _ := rfl
  length := rfl
  queue := rfl
  completions := by simp [Scheduler.modifySlot]
  taskId j := by
    simp only [taskId?, slot?_modifySlot]
    split_ifs
    · cases s.slot? j <;> simp [hf]
    · rfl
  task _ t ht := ⟨t, ht, rfl⟩
  wf hwf := hwf

lemma freeTask : Keeps s (s.freeTask i) where
  gen j := by
    simp only [Scheduler.gen, table_freeTask]
    exact GenTable.gen_clear
  length := by
    simp only [Scheduler.freeTask]
    split_ifs <;> simp
  queue := by
    simp only [Scheduler.freeTask]
    split_ifs <;> rfl
  completions := by
    simp only [Scheduler.freeTask]
    split_ifs <;> rfl
  taskId k := by simp only [taskId?, slot?_freeTask]
  task j t ht := by
    rw [task?_freeTask] at ht
    split_ifs at ht
    exact ⟨t, ht, rfl⟩
  wf hwf := by
    rw [table_freeTask]
    exact hwf.clear

lemma wakeTaken (w : Option Waker) : Keeps s (s.wakeTaken w) := of_same (same_wakeTaken w)

lemma keyAt (h : Keeps s s') (i : Nat) : s'.keyAt i = s.keyAt i := keyAt_congr (h.gen i)

/-- What is gone stays gone. -/
lemma lookup_eq_none (h : Keeps s s') (hid : s.lookup id = none) : s'.lookup id = none := by
  by_contra hne
  obtain ⟨t', ht'⟩ := Option.ne_none_iff_exists'.mp hne
  obtain ⟨htask, hkey⟩ := lookup_eq_some.mp ht'
  obtain ⟨t, ht, _⟩ := h.task _ t' htask
  rw [lookup_eq_some.mpr ⟨ht, hkey.trans (h.keyAt _)⟩] at hid
  cases hid

end Keeps

end Scheduler

end AmlaSandbox.Scheduling
