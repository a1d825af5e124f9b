import AmlaSandbox.Scheduler.Identity
import AmlaSandbox.Scheduler.Lineage
import AmlaSandbox.Scheduler.Roots

/-!
# Every spawn resolves once

A spawn is active until it leaves the table; whoever leaves the table gets a result, which waits in
the completion slot; and the handle hands it out once. Nothing in between is lost, whatever cancels
or finishes the task and whoever asks the handle.
-/

namespace AmlaSandbox.Scheduling

open Library Scheduler

variable {m m' : Machine} {e : Event} {out : Option Output} {s s' s'' : Scheduler} {i j k : Nat}
  {id : TaskId} {t : Task} {result r : TaskResult} {fired late : List Nat}

namespace Scheduler

/-- The result that waits in the completion slot of a spawn. -/
def resultOf (s : Scheduler) (k : Nat) : Option TaskResult := (s.slot? k).bind (·.result)

lemma resultOf_eq_some :
    s.resultOf k = some r ↔ ∃ slot, s.slot? k = some slot ∧ slot.result = some r :=
  Option.bind_eq_some_iff

lemma Same.resultOf (h : s.Same s') : s'.resultOf k = s.resultOf k := by
  rw [Scheduler.resultOf, h.slot?]
  rfl

lemma resultOf_modifySlot {f : TaskSlot → TaskSlot} : (s.modifySlot j f).resultOf k =
    if k = j then (s.slot? k).bind fun slot => (f slot).result else s.resultOf k := by
  rw [resultOf, slot?_modifySlot]
  split_ifs
  · exact Option.bind_map ..
  · rfl

lemma resultOf_eq_bind : s.resultOf k = ((s.slot? k).map (·.result)).bind fun r => r := by
  rw [Option.bind_map]
  rfl

lemma isSome_slot? (hk : k < s.completions.length) : ∃ slot, s.slot? k = some slot :=
  ⟨_, List.getElem?_eq_getElem hk⟩

/-! ### Whoever leaves has a result -/

/-- Every task that leaves the table has a result then, and no result is gone. -/
structure Resolves (s s' : Scheduler) : Prop extends Keeps s s' where
  stays : ∀ k, (s.resultOf k).isSome → (s'.resultOf k).isSome
  leaves : ∀ i t, s.task? i = some t → t.slot < s.completions.length → s'.task? i = none →
    (s'.resultOf t.slot).isSome

namespace Resolves

lemma of_same (h : s.Same s') : Resolves s s' where
  toKeeps := .of_same h
  stays k hk := by rwa [h.resultOf]
  leaves i t ht _ hnone := by
    rw [h.task?, ht] at hnone
    cases hnone

lemma trans (h : Resolves s s') (h' : Resolves s' s'') : Resolves s s'' where
  toKeeps := h.toKeeps.trans h'.toKeeps
  stays k hk := h'.stays k (h.stays k hk)
  leaves i t ht hlt hnone := by
    cases ht' : s'.task? i with
    | none => exact h'.stays _ (h.leaves i t ht hlt ht')
    | some t' =>
      obtain ⟨u, hu, hslot⟩ := h.task i t' ht'
      obtain rfl := Option.some.inj (ht.symm.trans hu)
      have hleft := h'.leaves i t' ht'
      rw [hslot, h.completions] at hleft
      exact hleft hlt hnone

lemma modifyTask {f : Task → Task} (hf : ∀ t, (f t).slot = t.slot) :
    Resolves s (s.modifyTask i f) where
  toKeeps := .modifyTask hf
  stays k hk := hk
  leaves j t ht _ hnone := by
    rw [task?_modifyTask, ht] at hnone
    split_ifs at hnone
    cases hnone

lemma modifySlot {f : TaskSlot → TaskSlot} (hid : ∀ slot, (f slot).taskId = slot.taskId)
    (hf : ∀ slot, (f slot).result.isSome) : Resolves s (s.modifySlot j f) where
  toKeeps := .modifySlot hid
  stays k hk := by
    rw [resultOf_modifySlot]
    split_ifs
    · obtain ⟨r, hr⟩ := Option.isSome_iff_exists.mp hk
      obtain ⟨slot, hslot, _⟩ := resultOf_eq_some.mp hr
      rw [hslot]
      exact hf slot
    · exact hk
  leaves i t ht _ hnone := by
    have hsame : (s.modifySlot j f).task? i = s.task? i := rfl
    rw [hsame, ht] at hnone
    cases hnone

lemma freeTask (h : ∀ t, s.task? i = some t → t.slot < s.completions.length →
    (s.resultOf t.slot).isSome) : Resolves s (s.freeTask i) where
  toKeeps := .freeTask
  stays k hk := by rwa [resultOf, slot?_freeTask]
  leaves j t ht hlt hnone := by
    rw [resultOf, slot?_freeTask]
    rw [task?_freeTask] at hnone
    split_ifs at hnone with hj
    · exact h t (hj ▸ ht) hlt
    · rw [ht] at hnone
      cases hnone

lemma dropChild : Resolves s (s.dropChild i id) := modifyTask fun _ => rfl

lemma unlink (parent : Option TaskId) : Resolves s (s.unlink parent id) := by
  cases parent with
  | none => exact of_same (.refl s)
  | some parentId => exact dropChild

lemma unlinkChecked (parent : Option TaskId) : Resolves s (s.unlinkChecked parent id) := by
  cases parent with
  | none => exact of_same (.refl s)
  | some parentId =>
    rw [Scheduler.unlinkChecked]
    split_ifs
    · exact dropChild
    · exact of_same (.refl s)

lemma foldl {f : Scheduler → TaskId → Scheduler} (hf : ∀ s id, Resolves s (f s id))
    (ids : List TaskId) (s : Scheduler) : Resolves s (ids.foldl f s) := by
  induction ids generalizing s with
  | nil => exact of_same (.refl s)
  | cons id ids ih => exact (hf s id).trans (ih (f s id))

/-- A task whose completion slot has its result can be swept with its children and freed. -/
lemma of_marked (ht : s.task? i = some t) (hmark : Resolves s s') (h : Resolves s' s'')
    (hresult : t.slot < s.completions.length → (s'.resultOf t.slot).isSome) (w : Option Waker) :
    Resolves s ((s''.freeTask i).wakeTaken w) := by
  have hall := hmark.trans h
  refine (hall.trans (freeTask ?_)).trans (of_same (same_wakeTaken w))
  intro u hu hlt
  obtain ⟨t', ht', hslot⟩ := hall.task i u hu
  obtain rfl := Option.some.inj (ht.symm.trans ht')
  rw [hslot] at hlt ⊢
  exact h.stays _ (hresult (hall.completions ▸ hlt))

end Resolves

lemma isSome_result_cancel (slot : TaskSlot) : slot.cancel.result.isSome := by
  cases h : slot.result <;> simp [TaskSlot.cancel, h]

lemma resolves_markCancelled : Resolves s (s.markCancelled id t) :=
  (Resolves.modifySlot (f := TaskSlot.cancel) (fun _ => rfl) isSome_result_cancel).trans
    (.modifyTask fun _ => rfl)

lemma isSome_resultOf_modifySlot {f : TaskSlot → TaskSlot} (hf : ∀ slot, (f slot).result.isSome)
    (hk : k < s.completions.length) : ((s.modifySlot k f).resultOf k).isSome := by
  obtain ⟨slot, hslot⟩ := isSome_slot? hk
  rw [resultOf_modifySlot, if_pos rfl, hslot]
  exact hf slot

lemma resolves_cancelAux (fuel : Nat) (id : TaskId) (s : Scheduler) :
    Resolves s (cancelAux fuel id s) := by
  induction fuel generalizing id s with
  | zero => exact .of_same (.refl s)
  | succ fuel ih =>
    rw [cancelAux]
    cases ht : s.lookup id with
    | none => exact .of_same (.refl s)
    | some task =>
      exact .of_marked (lookup_eq_some.mp ht).1 resolves_markCancelled
        (.foldl (fun s child => ih child s) task.children _)
        (isSome_resultOf_modifySlot isSome_result_cancel) _

lemma resolves_cancelTask : Resolves s (s.cancelTask id).1 := by
  rw [cancelTask]
  cases s.lookup id with
  | none => exact .of_same (.refl s)
  | some task =>
    exact ((Resolves.unlink task.parent).trans (resolves_cancelAux _ id _)).trans
      (.of_same ⟨rfl, rfl, rfl⟩)

lemma resolves_completeTask : Resolves s (s.completeTask i result) := by
  rw [completeTask]
  cases ht : s.task? i with
  | none => exact .of_same (.refl s)
  | some task =>
    exact .of_marked ht (.modifySlot (f := TaskSlot.finish result) (fun _ => rfl) fun _ => rfl)
      ((Resolves.foldl (fun s child => resolves_cancelAux _ child s) task.children _).trans
        (.unlinkChecked task.parent))
      (isSome_resultOf_modifySlot (f := TaskSlot.finish result) fun _ => rfl) _

/-! ### What is held stays held or resolves -/

variable {pending : List Task} {task : Task}

lemma Holds.lt_of_valid (h : s.Valid pending) (ht : s.task? i = some t) :
    t.slot < s.completions.length :=
  lt_completions_of_taskId? (h.occupant i t ht)

lemma Resolves.holds (h : Resolves s s') (hs : s.Valid pending) (hk : s.Holds pending k) :
    s'.Holds pending k ∨ (s'.resultOf k).isSome := by
  rcases hk with hqueued | ⟨i, t, ht, rfl⟩
  · exact .inl (.inl hqueued)
  · cases ht' : s'.task? i with
    | none => exact .inr (h.leaves i t ht (Holds.lt_of_valid hs ht) ht')
    | some t' =>
      obtain ⟨u, hu, hslot⟩ := h.task i t' ht'
      obtain rfl := Option.some.inj (ht.symm.trans hu)
      exact .inl (.inr ⟨i, t', ht', hslot⟩)

/-- The insertion of a request keeps what is held. -/
lemma Holds.insertTask (hs : s.Valid (task :: pending)) (hk : s.Holds (task :: pending) k) :
    (s.insertTask task).Holds pending k := by
  have htable : ∀ id t, s.lookup id = some t → (s.insertTask task).Holds pending t.slot := by
    intro id t ht
    obtain ⟨children, hlookup, _⟩ := lookup_insertTask task hs.wf ht
    exact .inr ⟨_, _, (lookup_eq_some.mp hlookup).1, rfl⟩
  rcases hk with ⟨other, hmem, rfl⟩ | ⟨i, t, ht, rfl⟩
  · rcases List.mem_cons.mp hmem with rfl | hmem
    · have hnew : ∃ children, (s.insertTask other).lookup s.table.nextKey =
          some { withRoot other s.table.nextKey with children } := lookup_insertTask_nextKey hs.wf
      obtain ⟨children, hnew⟩ := hnew
      exact .inr ⟨_, _, (lookup_eq_some.mp hnew).1, rfl⟩
    · exact .inl ⟨other, hmem, rfl⟩
  · exact htable _ t (lookup_keyAt.trans ht)

/-! ### The flag of the handle -/

/-- The handle of a spawn has given its result away through `try_get`. -/
def takenAt (s : Scheduler) (k : Nat) : Bool := (s.slot? k).any (·.resultTaken)

lemma takenAt_modifySlot {f : TaskSlot → TaskSlot}
    (hf : ∀ slot, (f slot).resultTaken = slot.resultTaken) :
    (s.modifySlot j f).takenAt k = s.takenAt k := by
  rw [takenAt, slot?_modifySlot]
  split_ifs
  · rw [Option.any_map, takenAt]
    exact congrArg (fun p => (s.slot? k).any p) (funext hf)
  · rfl

lemma Same.takenAt (h : s.Same s') : s'.takenAt k = s.takenAt k := by
  rw [Scheduler.takenAt, h.slot?]
  rfl

lemma Ended.takenAt {mark : TaskSlot → TaskSlot} {root : TaskId} (h : Ended mark root s s')
    (hmark : ∀ slot, (mark slot).resultTaken = slot.resultTaken) :
    s'.takenAt k = s.takenAt k := by
  have hmap : ∀ f : TaskSlot → TaskSlot, (∀ slot, (f slot).resultTaken = slot.resultTaken) →
      s'.slot? k = (s.slot? k).map f → s'.takenAt k = s.takenAt k := by
    intro f hf hslot
    rw [Scheduler.takenAt, hslot, Option.any_map, Scheduler.takenAt]
    exact congrArg (fun p => (s.slot? k).any p) (funext hf)
  rcases h.slot k with hslot | ⟨_, _, _, _, _, hslot | ⟨_, hslot⟩⟩
  · rw [Scheduler.takenAt, hslot]
    rfl
  · exact hmap TaskSlot.cancel (fun _ => rfl) hslot
  · exact hmap mark hmark hslot

lemma takenAt_insertTask : (s.insertTask task).takenAt k = s.takenAt k := by
  rw [takenAt, slot?_insertTask]
  split_ifs
  · rw [Option.any_map, takenAt]
  · rfl

/-! ### Questions to a handle -/

lemma slot?_pollHandle_of_ne {waker : Waker} (hk : k ≠ j) :
    (s.pollHandle j waker).2.slot? k = s.slot? k := by
  simp only [Scheduler.pollHandle]
  split
  · rfl
  · split_ifs
    · rfl
    · split
      · exact (slot?_modifySlot _).trans (if_neg hk)
      · exact (slot?_modifySlot _).trans (if_neg hk)

lemma slot?_tryGet_of_ne (hk : k ≠ j) : (s.tryGet j).2.slot? k = s.slot? k := by
  simp only [Scheduler.tryGet]
  split
  · exact (slot?_modifySlot _).trans (if_neg hk)
  · rfl

lemma takenAt_pollHandle {waker : Waker} : (s.pollHandle j waker).2.takenAt k = s.takenAt k := by
  simp only [Scheduler.pollHandle]
  split
  · rfl
  · split_ifs
    · rfl
    · split
      · exact takenAt_modifySlot (f := fun slot => { slot with result := none }) fun _ => rfl
      · exact takenAt_modifySlot (f := fun slot => { slot with waker := some waker }) fun _ => rfl

/-- Asking leaves no result behind, unless it was given away before. -/
lemma resultOf_pollHandle {waker : Waker} (h : s.takenAt k → s.resultOf k = none) :
    (s.pollHandle k waker).2.resultOf k = none := by
  simp only [Scheduler.pollHandle]
  split
  · next hslot => rw [resultOf, hslot, Option.bind_none]
  · next slot hslot =>
    split_ifs with htaken
    · exact h (by rw [takenAt, hslot, Option.any_some, htaken])
    · split
      · rw [resultOf_modifySlot, if_pos rfl, hslot]
        rfl
      · next hresult =>
        rw [resultOf_modifySlot, if_pos rfl, hslot]
        exact hresult

/-- A result that is there is given to whoever polls. -/
lemma pollHandle_fst {waker : Waker} (h : s.takenAt k → s.resultOf k = none)
    (hr : s.resultOf k = some r) : (s.pollHandle k waker).1 = some r := by
  obtain ⟨slot, hslot, hresult⟩ := resultOf_eq_some.mp hr
  have hfree : ¬ slot.resultTaken := by
    intro htaken
    rw [h (by rw [takenAt, hslot, Option.any_some, htaken])] at hr
    cases hr
  simp only [Scheduler.pollHandle, hslot, if_neg hfree, hresult]

lemma tryGet_fst : (s.tryGet k).1 = s.resultOf k := by
  rw [Scheduler.tryGet, resultOf]
  split
  · next hresult => exact hresult.symm
  · next hresult => exact hresult.symm

lemma resultOf_tryGet : (s.tryGet k).2.resultOf k = none := by
  simp only [Scheduler.tryGet]
  split
  · next hresult =>
    obtain ⟨slot, hslot, _⟩ := resultOf_eq_some.mp hresult
    rw [resultOf_modifySlot, if_pos rfl, hslot]
    rfl
  · next hresult => exact hresult

lemma takenAt_tryGet (htaken : (s.tryGet j).2.takenAt k) :
    s.takenAt k ∨ k = j ∧ (s.resultOf k).isSome := by
  by_cases hk : k = j
  · subst hk
    simp only [Scheduler.tryGet] at htaken
    split at htaken
    · next hresult => exact .inr ⟨rfl, Option.isSome_of_eq_some hresult⟩
    · exact .inl htaken
  · rw [takenAt, slot?_tryGet_of_ne hk] at htaken
    exact .inl htaken

end Scheduler

namespace Machine

/-! ### One event -/

/-- The event asks the handle of a spawn. -/
def Asks (e : Event) (k : Nat) : Prop := e = .tryGet k ∨ ∃ waker, e = .pollHandle k waker

/-- The result that waits in the completion slot of a spawn, if an event hands it out. -/
def handed (m : Machine) (e : Event) (k : Nat) : Option TaskResult :=
  (m.sched.resultOf k).filter fun r => (m.step e).any fun (_, out) => out = some (.resolved k r)

lemma resolves_returned (m : Machine) (id : TaskId) (result : Option TaskResult) :
    Resolves m.sched (m.returned id result) := by
  have hleave : Resolves m.sched m.sched.leavePoll := .of_same ⟨rfl, rfl, rfl⟩
  cases result with
  | none => exact hleave
  | some result => exact hleave.trans resolves_completeTask

/-- What is active stays so or has its result. -/
lemma active_or_isSome_of_step (hm : m.Valid) (h : m.step e = some (m', out)) (hk : m.Active k) :
    m'.Active k ∨ (m'.sched.resultOf k).isSome := by
  rw [active_iff_holds] at hk ⊢
  have hresolves : ∀ s, Resolves m.sched s →
      s.Holds s.spawnQueue k ∨ (s.resultOf k).isSome := by
    intro s hs
    rw [hs.queue]
    exact hs.holds hm.sched hk
  have hhandled : ∀ s, Handled m.sched s → s.Holds s.spawnQueue k := by
    intro s hs
    rw [hs.queue]
    simpa only [Holds, hs.task?_eq] using hk
  cases e with
  | spawn =>
    obtain ⟨rfl, _⟩ := Prod.mk.inj (call_eq_some h)
    exact .inl (hk.imp_left fun ⟨task, hmem, hslot⟩ =>
      ⟨task, List.mem_append_left _ hmem, hslot⟩)
  | wake waker =>
    obtain ⟨rfl, _⟩ := Prod.mk.inj (call_eq_some h)
    exact hresolves _ (.of_same (same_wakeTaken (some waker)))
  | pollHandle handle waker =>
    obtain ⟨rfl, _⟩ := Prod.mk.inj (call_eq_some h)
    exact .inl (hhandled _ (handled_pollHandle waker))
  | tryGet handle =>
    obtain ⟨rfl, _⟩ := Prod.mk.inj (call_eq_some h)
    exact .inl (hhandled _ handled_tryGet)
  | cancelTask id =>
    obtain ⟨rfl, _⟩ := Prod.mk.inj (call_eq_some h)
    exact hresolves _ resolves_cancelTask
  | run =>
    obtain ⟨rfl, _⟩ := Prod.mk.inj (call_eq_some h)
    exact .inl hk
  | runStep fired late =>
    obtain ⟨rfl, _⟩ := runStep_of_step h
    have hsame := same_runStep (m := m) fired late
    have hprepared : (m.prepared fired).Holds [] k :=
      (prepared_induction (I := fun s rest => s.Holds rest k)
        (fun s task rest hs hI => hI.insertTask hs) hm.sched hk).2
    rw [hsame.queue, spawnQueue_prepared]
    left
    simpa only [Holds, hsame.task?] using hprepared
  | pollReturn result late =>
    obtain ⟨id, future, rest, _, rfl, _⟩ := pollReturn_of_step h
    exact hresolves _ ((resolves_returned m id result).trans
      (.of_same (same_pollReturn m id future rest result late)))

/-- At most one task has ended. -/
def EndsAtMost (s s' : Scheduler) : Prop :=
  s.Same s' ∨ ∃ mark root, s.Ended mark root s' ∧
    ∀ slot, (mark slot).resultTaken = slot.resultTaken

lemma endsAtMost_cancelTask : EndsAtMost s (s.cancelTask id).1 := by
  cases ht : s.lookup id with
  | none =>
    rw [cancelTask_of_lookup_eq_none ht]
    exact .inl (.refl s)
  | some task => exact .inr ⟨_, _, cancelTask_ended ht, fun _ => rfl⟩

lemma endsAtMost_returned (m : Machine) (id : TaskId) (result : Option TaskResult) :
    EndsAtMost m.sched (m.returned id result) := by
  have hleave : m.sched.Same m.sched.leavePoll := ⟨rfl, rfl, rfl⟩
  cases result with
  | none => exact .inl hleave
  | some result =>
    cases ht : m.sched.task? id.slot with
    | none =>
      left
      simpa only [returned, completeTask, hleave.task?, ht] using hleave
    | some task =>
      have hended := completeTask_ended result (hleave.task?.trans ht)
      exact .inr ⟨_, _, hended.of_same_left hleave, fun _ => rfl⟩

lemma EndsAtMost.slot? (h : EndsAtMost m.sched s) (hk : ¬ m.Active k) :
    s.slot? k = m.sched.slot? k := by
  rcases h with hsame | ⟨mark, root, hended, _⟩
  · exact hsame.slot?
  · rcases hended.slot k with hslot | ⟨i, t, ht, hslot, _⟩
    · exact hslot
    · exact absurd (active_iff_holds.mpr (.inr ⟨i, t, ht, hslot⟩)) hk

lemma EndsAtMost.takenAt (h : EndsAtMost s s') : s'.takenAt k = s.takenAt k := by
  rcases h with hsame | ⟨mark, root, hended, hmark⟩
  · exact hsame.takenAt
  · exact hended.takenAt hmark

/-- The result of what is not active stays, unless its handle is asked. -/
lemma resultOf_of_step (hm : m.Valid) (h : m.step e = some (m', out)) (hk : ¬ m.Active k)
    (hlt : k < m.sched.completions.length) (hask : ¬ Asks e k) :
    m'.sched.resultOf k = m.sched.resultOf k := by
  have hslot : ∀ s : Scheduler, s.slot? k = m.sched.slot? k → s.resultOf k = m.sched.resultOf k :=
    fun s hs => congrArg (fun slot => Option.bind slot TaskSlot.result) hs
  cases e with
  | spawn =>
    obtain ⟨rfl, _⟩ := Prod.mk.inj (call_eq_some h)
    exact hslot _ (slot?_spawn.trans (if_neg (Nat.ne_of_lt hlt)))
  | wake waker =>
    obtain ⟨rfl, _⟩ := Prod.mk.inj (call_eq_some h)
    exact (same_wakeTaken (some waker)).resultOf
  | pollHandle handle waker =>
    obtain ⟨rfl, _⟩ := Prod.mk.inj (call_eq_some h)
    exact hslot _ (slot?_pollHandle_of_ne fun heq => hask (.inr ⟨waker, heq ▸ rfl⟩))
  | tryGet handle =>
    obtain ⟨rfl, _⟩ := Prod.mk.inj (call_eq_some h)
    exact hslot _ (slot?_tryGet_of_ne fun heq => hask (.inl (heq ▸ rfl)))
  | cancelTask id =>
    obtain ⟨rfl, _⟩ := Prod.mk.inj (call_eq_some h)
    exact hslot _ (endsAtMost_cancelTask.slot? hk)
  | run =>
    obtain ⟨rfl, _⟩ := Prod.mk.inj (call_eq_some h)
    rfl
  | runStep fired late =>
    obtain ⟨rfl, _⟩ := runStep_of_step h
    rw [(same_runStep fired late).resultOf, resultOf_eq_bind, result_prepared hm.sched,
      ← resultOf_eq_bind]
  | pollReturn result late =>
    obtain ⟨id, future, rest, _, rfl, _⟩ := pollReturn_of_step h
    rw [(same_pollReturn m id future rest result late).resultOf]
    exact hslot _ ((endsAtMost_returned m id result).slot? hk)

/-- Only `try_get` on a result sets the flag of a handle. -/
lemma takenAt_of_step (hm : m.Valid) (h : m.step e = some (m', out))
    (htaken : m'.sched.takenAt k) :
    m.sched.takenAt k ∨ e = .tryGet k ∧ (m.sched.resultOf k).isSome := by
  cases e with
  | spawn =>
    obtain ⟨rfl, _⟩ := Prod.mk.inj (call_eq_some h)
    rw [takenAt, slot?_spawn] at htaken
    split_ifs at htaken
    · cases htaken
    · exact .inl htaken
  | wake waker =>
    obtain ⟨rfl, _⟩ := Prod.mk.inj (call_eq_some h)
    exact .inl ((same_wakeTaken (some waker)).takenAt ▸ htaken)
  | pollHandle handle waker =>
    obtain ⟨rfl, _⟩ := Prod.mk.inj (call_eq_some h)
    exact .inl (takenAt_pollHandle ▸ htaken)
  | tryGet handle =>
    obtain ⟨rfl, _⟩ := Prod.mk.inj (call_eq_some h)
    exact (takenAt_tryGet htaken).imp_right fun ⟨hk, hresult⟩ => ⟨hk ▸ rfl, hresult⟩
  | cancelTask id =>
    obtain ⟨rfl, _⟩ := Prod.mk.inj (call_eq_some h)
    exact .inl (endsAtMost_cancelTask.takenAt ▸ htaken)
  | run =>
    obtain ⟨rfl, _⟩ := Prod.mk.inj (call_eq_some h)
    exact .inl htaken
  | runStep fired late =>
    obtain ⟨rfl, _⟩ := runStep_of_step h
    rw [(same_runStep fired late).takenAt] at htaken
    have hprepared : (m.prepared fired).takenAt k = m.sched.takenAt k :=
      (prepared_induction (I := fun s _ => s.takenAt k = m.sched.takenAt k)
        (fun _ _ _ _ hI => takenAt_insertTask.trans hI) hm.sched rfl).2
    exact .inl (hprepared ▸ htaken)
  | pollReturn result late =>
    obtain ⟨id, future, rest, _, rfl, _⟩ := pollReturn_of_step h
    rw [(same_pollReturn m id future rest result late).takenAt] at htaken
    exact .inl ((endsAtMost_returned m id result).takenAt ▸ htaken)

/-! ### What is handed out -/

lemma asks_of_resolved (h : m.step e = some (m', some (.resolved k r))) : Asks e k := by
  cases e with
  | pollHandle handle waker =>
    obtain ⟨_, _, hout⟩ := Option.map_eq_some_iff.mp (Prod.mk.inj (call_eq_some h)).2
    cases hout
    exact .inr ⟨waker, rfl⟩
  | tryGet handle =>
    obtain ⟨_, _, hout⟩ := Option.map_eq_some_iff.mp (Prod.mk.inj (call_eq_some h)).2
    cases hout
    exact .inl rfl
  | runStep fired late =>
    obtain ⟨_, hout⟩ := runStep_of_step h
    unfold runStep at hout
    dsimp only at hout
    split at hout
    · cases hout
    · exact absurd hout returnState_ne_resolved
  | pollReturn result late =>
    obtain ⟨_, _, _, _, _, hout⟩ := pollReturn_of_step h
    exact absurd hout returnState_ne_resolved
  | _ => cases (Prod.mk.inj (call_eq_some h)).2

lemma handed_eq_some (h : m.step e = some (m', out)) :
    m.handed e k = some r ↔ m.sched.resultOf k = some r ∧ out = some (.resolved k r) := by
  rw [handed, Option.filter_eq_some_iff, h, Option.any_some, decide_eq_true_iff]

lemma handed_of_not_asks (h : m.step e = some (m', out)) (hask : ¬ Asks e k) :
    m.handed e k = none := by
  rw [Option.eq_none_iff_forall_ne_some]
  intro r hr
  obtain ⟨_, rfl⟩ := (handed_eq_some h).mp hr
  exact hask (asks_of_resolved h)

/-- A handle that is asked hands out its result, if it has one. -/
lemma handed_of_asks (h : m.step e = some (m', out)) (hask : Asks e k)
    (htaken : m.sched.takenAt k → m.sched.resultOf k = none) :
    m.handed e k = m.sched.resultOf k ∧ m'.sched.resultOf k = none := by
  have hhanded : (∀ r, m.sched.resultOf k = some r → out = some (.resolved k r)) →
      m.handed e k = m.sched.resultOf k := by
    intro hout
    ext r
    rw [handed_eq_some h]
    exact ⟨And.left, fun hr => ⟨hr, hout r hr⟩⟩
  rcases hask with rfl | ⟨waker, rfl⟩
  · obtain ⟨hm', hout⟩ := Prod.mk.inj (call_eq_some h)
    have hresolved : (m.sched.tryGet k).1.map (.resolved k) = out := hout
    rw [tryGet_fst] at hresolved
    refine ⟨hhanded fun r hr => ?_, hm' ▸ resultOf_tryGet⟩
    rw [← hresolved, hr, Option.map_some]
  · obtain ⟨hm', hout⟩ := Prod.mk.inj (call_eq_some h)
    have hresolved : (m.sched.pollHandle k waker).1.map (.resolved k) = out := hout
    refine ⟨hhanded fun r hr => ?_, hm' ▸ resultOf_pollHandle htaken⟩
    rw [← hresolved, pollHandle_fst htaken hr, Option.map_some]

/-! ### All runs -/

/-- Where a spawn stands, and what its handle gave away so far. -/
inductive Stands (m : Machine) (k : Nat) : List TaskResult → Prop
  | unspawned : m.sched.completions.length ≤ k → Stands m k []
  | active : m.Active k → m.sched.resultOf k = none → Stands m k []
  | waiting {r : TaskResult} : k < m.sched.completions.length → ¬ m.Active k →
    m.sched.resultOf k = some r → Stands m k []
  | resolved {r : TaskResult} : k < m.sched.completions.length → ¬ m.Active k →
    m.sched.resultOf k = none → Stands m k [r]

/-- What the handle of a spawn gave away in a run. -/
def given (log : List (Machine × Event)) (k : Nat) : List TaskResult :=
  log.filterMap fun (m, e) => m.handed e k

/-- A spawn stands somewhere, and its handle is flagged only once its result was taken. -/
structure Settles (m : Machine) (k : Nat) (gave : List TaskResult) : Prop where
  stands : m.Stands k gave
  taken : m.sched.takenAt k → gave ≠ []

lemma Stands.resultOf_eq_none {gave : List TaskResult} (h : m.Stands k gave) (hne : gave ≠ []) :
    m.sched.resultOf k = none := by
  cases h with
  | unspawned | active | waiting => exact absurd rfl hne
  | resolved _ _ hresult => exact hresult

lemma length_completions_le (hm : m.Valid) (h : m.step e = some (m', out)) :
    m.sched.completions.length ≤ m'.sched.completions.length := by
  rw [(effect_of_step h).length_completions hm.sched]
  exact Nat.le_add_right _ _

lemma active_lt (hm : m.Valid) (hk : m.Active k) : k < m.sched.completions.length :=
  (active_iff_holds.mp hk).lt hm.sched

lemma resultOf_eq_none_of_active (hsound : m.Sound) (hk : m.Active k) :
    m.sched.resultOf k = none := by
  rw [Option.eq_none_iff_forall_ne_some]
  intro r hr
  obtain ⟨slot, hslot, hresult⟩ := resultOf_eq_some.mp hr
  rw [hsound.unfinished k slot (active_iff_holds.mp hk) hslot] at hresult
  cases hresult

lemma not_active_of_step (hm : m.Valid) (h : m.step e = some (m', out)) (hk : ¬ m.Active k)
    (hlt : k < m.sched.completions.length) : ¬ m'.Active k := by
  rw [active_iff_holds] at hk ⊢
  intro hk'
  rcases holds_of_effect hm (effect_of_step h) hk' with hold | ⟨_, rfl⟩
  · exact hk hold
  · exact Nat.lt_irrefl _ hlt

/-- A spawn is made active. -/
lemma active_of_new (hm : m.Valid) (h : m.step e = some (m', out))
    (hle : m.sched.completions.length ≤ k) (hlt : k < m'.sched.completions.length) :
    m'.Active k := by
  rw [(effect_of_step h).length_completions hm.sched] at hlt
  cases e with
  | spawn =>
    obtain ⟨rfl, _⟩ := Prod.mk.inj (call_eq_some h)
    obtain rfl : k = m.sched.completions.length := Nat.le_antisymm (Nat.le_of_lt_succ hlt) hle
    exact .inl ⟨_, List.mem_append_right _ (List.mem_singleton_self _), rfl⟩
  | _ => exact absurd hlt (Nat.not_lt.mpr hle)

lemma Settles.of_step {gave : List TaskResult} (hm : m.Valid) (hsound' : m'.Sound)
    (h : m.step e = some (m', out)) (hk : m.Settles k gave) :
    m'.Settles k (gave ++ (m.handed e k).toList) := by
  have hle := length_completions_le hm h
  have htaken : m.sched.takenAt k → m.sched.resultOf k = none :=
    fun htaken => hk.stands.resultOf_eq_none (hk.taken htaken)
  constructor
  · by_cases hask : Asks e k
    · -- the handle gives away what it has
      obtain ⟨hhanded, hnone⟩ := handed_of_asks h hask htaken
      rw [hhanded]
      cases hk.stands with
      | unspawned hge =>
        have hslot : m.sched.resultOf k = none := by
          rw [resultOf, slot?, List.getElem?_eq_none hge, Option.bind_none]
        rw [hslot]
        rcases Nat.lt_or_ge k m'.sched.completions.length with hlt | hge'
        · exact .active (active_of_new hm h hge hlt) hnone
        · exact .unspawned hge'
      | active hactive hresult =>
        rw [hresult]
        rcases active_or_isSome_of_step hm h hactive with hactive' | hsome
        · exact .active hactive' hnone
        · rw [hnone] at hsome
          cases hsome
      | waiting hlt hactive hresult =>
        rw [hresult]
        exact .resolved (hlt.trans_le hle) (not_active_of_step hm h hactive hlt) hnone
      | resolved hlt hactive hresult =>
        rw [hresult]
        exact .resolved (hlt.trans_le hle) (not_active_of_step hm h hactive hlt) hnone
    · rw [handed_of_not_asks h hask, Option.toList_none, List.append_nil]
      cases hk.stands with
      | unspawned hge =>
        rcases Nat.lt_or_ge k m'.sched.completions.length with hlt | hge'
        · have hactive' := active_of_new hm h hge hlt
          exact .active hactive' (resultOf_eq_none_of_active hsound' hactive')
        · exact .unspawned hge'
      | active hactive hresult =>
        by_cases hactive' : m'.Active k
        · exact .active hactive' (resultOf_eq_none_of_active hsound' hactive')
        · have hsome := (active_or_isSome_of_step hm h hactive).resolve_left hactive'
          obtain ⟨r, hr⟩ := Option.isSome_iff_exists.mp hsome
          exact .waiting ((active_lt hm hactive).trans_le hle) hactive' hr
      | waiting hlt hactive hresult =>
        exact .waiting (hlt.trans_le hle) (not_active_of_step hm h hactive hlt)
          ((resultOf_of_step hm h hactive hlt hask).trans hresult)
      | resolved hlt hactive hresult =>
        exact .resolved (hlt.trans_le hle) (not_active_of_step hm h hactive hlt)
          ((resultOf_of_step hm h hactive hlt hask).trans hresult)
  · intro htaken'
    rcases takenAt_of_step hm h htaken' with hold | ⟨rfl, hsome⟩
    · exact List.append_ne_nil_of_left_ne_nil (hk.taken hold) _
    · rw [(handed_of_asks h (.inl rfl) htaken).1]
      obtain ⟨r, hr⟩ := Option.isSome_iff_exists.mp hsome
      simp [hr]

lemma settles_new (k : Nat) : Settles {} k [] :=
  ⟨.unspawned (Nat.zero_le k), fun htaken => by cases htaken⟩

lemma settles_of_recorded {log : List (Machine × Event)} {gave : List TaskResult}
    (h : Recorded Step m log m') (hm : m.Valid) (hsound : m.Sound) (hk : m.Settles k gave) :
    m'.Settles k (gave ++ given log k) := by
  induction h generalizing gave with
  | nil => rwa [given, List.filterMap_nil, List.append_nil]
  | @cons m m₁ m' e log hstep _ ih =>
    obtain ⟨out, hstep⟩ := hstep
    have hsound₁ := hsound.of_step hm hstep
    have hrest := ih (hm.of_step hstep) hsound₁ (hk.of_step hm hsound₁ hstep)
    have hgiven : given ((m, e) :: log) k = (m.handed e k).toList ++ given log k := by
      simp only [given, List.filterMap_cons]
      cases m.handed e k <;> rfl
    rwa [hgiven, ← List.append_assoc]

/-- A result that was taken is gone for good. -/
lemma resultOf_of_takenAt {ok : Machine → Event → Prop} (h : Reachable ok m)
    (htaken : m.sched.takenAt k) : m.sched.resultOf k = none := by
  have hsettles : ∃ gave, m.Settles k gave := by
    refine h.invariant_of (I := fun m => ∃ gave, Settles m k gave) (J := fun m => Valid m ∧ Sound m)
      (fun m h => ⟨valid_of_reachable h, sound_of_reachable h⟩) ⟨[], settles_new k⟩ ?_
    rintro m e m' ⟨hm, _⟩ ⟨_, hsound'⟩ ⟨gave, hk⟩ _ ⟨out, hstep⟩
    exact ⟨_, hk.of_step hm hsound' hstep⟩
  obtain ⟨gave, hk⟩ := hsettles
  exact hk.stands.resultOf_eq_none (hk.taken htaken)

/-- In every run, each spawn is active without a result, or has left with the result that waits for
its handle, or its handle has given away exactly one result. -/
theorem resolves_once {log : List (Machine × Event)} (h : Recorded Step {} log m)
    (hk : k < m.sched.completions.length) :
    (m.Active k ∧ m.sched.resultOf k = none ∧ given log k = []) ∨
      (¬ m.Active k ∧ (m.sched.resultOf k).isSome ∧ given log k = []) ∨
      ¬ m.Active k ∧ m.sched.resultOf k = none ∧ ∃ r, given log k = [r] := by
  have hvalid : Valid {} := valid_of_reachable (.refl : Reachable anyEvent {})
  have hstands := (settles_of_recorded h hvalid sound_new (settles_new k)).stands
  rw [List.nil_append] at hstands
  generalize given log k = gave at hstands ⊢
  cases hstands with
  | unspawned hge => exact absurd hk (Nat.not_lt.mpr hge)
  | active hactive hresult => exact .inl ⟨hactive, hresult, rfl⟩
  | waiting _ hactive hresult =>
    exact .inr (.inl ⟨hactive, Option.isSome_of_eq_some hresult, rfl⟩)
  | resolved _ hactive hresult => exact .inr (.inr ⟨hactive, hresult, _, rfl⟩)

/-- A task is cancelled, and its handle is asked twice. -/
theorem resolves_once_cancelled : ∃ log m, Recorded Step {} log m ∧
    given log 0 = [cancelled] ∧
    ((m.Active 0 ∧ m.sched.resultOf 0 = none ∧ given log 0 = []) ∨
      (¬ m.Active 0 ∧ (m.sched.resultOf 0).isSome ∧ given log 0 = []) ∨
      ¬ m.Active 0 ∧ m.sched.resultOf 0 = none ∧ ∃ r, given log 0 = [r]) := by
  have hrun : Recorded Step {} _ _ :=
    .cons (e := .spawn) ⟨_, rfl⟩ <| .cons (e := .runStep [] []) ⟨_, rfl⟩ <|
    .cons (e := .pollReturn none []) ⟨_, rfl⟩ <| .cons (e := .cancelTask ⟨0, 0⟩) ⟨_, rfl⟩ <|
    .cons (e := .tryGet 0) ⟨_, rfl⟩ <| .single (e := .pollHandle 0 none) ⟨_, rfl⟩
  exact ⟨_, _, hrun, by decide, resolves_once hrun (by decide)⟩

end Machine

end AmlaSandbox.Scheduling
