import AmlaSandbox.Scheduler.Invariant

/-!
# Ready tasks are served in turn

The ready queue is popped at its front and everything that wakes a task appends to it, whatever the
polled futures do in between; a task that ends calls the waker in its completion slot. So no wake is
lost, and a woken task is polled within as many polls as the queue is long unless it ends before.
-/

namespace AmlaSandbox.Scheduling

open Library Scheduler

variable {m m' : Machine} {e : Event} {out : Option Output} {s s' : Scheduler} {i n : Nat}
  {id : TaskId} {fired late : List Nat}

/-! ### Places in a queue -/

lemma mem_take_of_longer {a : Nat} {l l' : List Nat} (h : l <+: l') (ha : a ∈ l.take n) :
    a ∈ l'.take n :=
  (h.take n).subset ha

lemma mem_take_filter {a : Nat} {l : List Nat} {p : Nat → Bool} (hp : p a) (ha : a ∈ l.take n) :
    a ∈ (l.filter p).take n := by
  induction l generalizing n with
  | nil => simp at ha
  | cons b l ih =>
    cases n with
    | zero => simp at ha
    | succ n =>
      rw [List.take_succ_cons, List.mem_cons] at ha
      rcases ha with rfl | ha
      · simp [hp]
      · by_cases hb : p b
        · rw [List.filter_cons_of_pos hb, List.take_succ_cons]
          exact List.mem_cons_of_mem b (ih ha)
        · rw [List.filter_cons_of_neg hb]
          exact (List.take_subset_take_left _ (Nat.le_succ n)) (ih ha)

namespace Scheduler

/-! ### What is appended -/

lemma readyQueue_wakeTaken (w : Option Waker) :
    s.readyQueue <+: (s.wakeTaken w).readyQueue := by
  rcases w with _ | _ | i
  · exact List.prefix_rfl
  · exact List.prefix_rfl
  · exact List.prefix_append _ _

lemma readyQueue_freeTask : (s.freeTask i).readyQueue = s.readyQueue := by
  unfold freeTask
  split_ifs <;> rfl

/-! ### Wakers of completion slots -/

/-- No waker of a completion slot gets lost: it stays, or its task waits in the queue. The wakers of
the tasks that leave the table are called. -/
structure Rouses (s s' : Scheduler) : Prop extends Keeps s s' where
  longer : s.readyQueue <+: s'.readyQueue
  waker : ∀ k i, s.takenWaker k = some (some i) →
    s'.takenWaker k = some (some i) ∨ i ∈ s'.readyQueue
  removed : ∀ j t, s.task? j = some t → s'.task? j = none →
    ∀ i, s.takenWaker t.slot = some (some i) → i ∈ s'.readyQueue

namespace Rouses

lemma refl (s : Scheduler) : Rouses s s :=
  ⟨Keeps.refl s, List.prefix_rfl, fun _ _ h => .inl h, fun j t ht hgone => by simp [ht] at hgone⟩

lemma trans (h : Rouses s s') (h' : Rouses s' s'') : Rouses s s'' where
  toKeeps := h.toKeeps.trans h'.toKeeps
  longer := h.longer.trans h'.longer
  waker k i hw := by
    rcases h.waker k i hw with hkept | hmem
    · exact h'.waker k i hkept
    · exact .inr (h'.longer.subset hmem)
  removed j t ht hgone i hw := by
    cases hmid : s'.task? j with
    | none => exact h'.longer.subset (h.removed j t ht hmid i hw)
    | some t' =>
      obtain ⟨u, hu, hslot⟩ := h.task j t' hmid
      obtain rfl : t = u := Option.some.inj (ht.symm.trans hu)
      rcases h.waker t.slot i hw with hkept | hmem
      · exact h'.removed j t' hmid hgone i (hslot ▸ hkept)
      · exact h'.longer.subset hmem

lemma of_unlinked {root : TaskId} (h : Unlinked root s s') (hqueue : s'.readyQueue = s.readyQueue) :
    Rouses s s' where
  toKeeps := h.toKeeps
  longer := hqueue ▸ List.prefix_rfl
  waker k i hw := .inl (by rwa [takenWaker, h.slot])
  removed j t ht hgone := by
    obtain ⟨children, hentry, -⟩ := h.entry j t ht
    rw [hentry] at hgone
    cases hgone

lemma foldl {f : Scheduler → TaskId → Scheduler} (hf : ∀ s id, Rouses s (f s id))
    (ids : List TaskId) (s : Scheduler) : Rouses s (ids.foldl f s) := by
  induction ids generalizing s with
  | nil => exact refl s
  | cons id ids ih => exact (hf s id).trans (ih (f s id))

/-- A task whose completion slot gave its waker away is freed, and the waker called. -/
lemma release {marked : Scheduler} {t : Task} (ht : s.task? i = some t) (hkeeps : Keeps s marked)
    (hqueue : marked.readyQueue = s.readyQueue)
    (htask : ∀ j, j ≠ i → marked.task? j = s.task? j)
    (hwaker : ∀ k, k ≠ t.slot → marked.takenWaker k = s.takenWaker k) (h : Rouses marked s') :
    Rouses s ((s'.freeTask i).wakeTaken (s.takenWaker t.slot)) := by
  have hlonger :
      s'.readyQueue <+: ((s'.freeTask i).wakeTaken (s.takenWaker t.slot)).readyQueue := by
    have hwoken := readyQueue_wakeTaken (s := s'.freeTask i) (s.takenWaker t.slot)
    rwa [readyQueue_freeTask] at hwoken
  have hcalled {w : Nat} (hw : s.takenWaker t.slot = some (some w)) :
      w ∈ ((s'.freeTask i).wakeTaken (s.takenWaker t.slot)).readyQueue := by
    rw [hw]
    exact List.mem_append_right _ (List.mem_singleton_self w)
  refine ⟨(hkeeps.trans h.toKeeps).trans (Keeps.freeTask.trans (Keeps.wakeTaken _)),
    hqueue ▸ h.longer.trans hlonger, fun k w hw => ?_, fun j u hu hgone w hw => ?_⟩
  · by_cases hk : k = t.slot
    · exact .inr (hcalled (hk ▸ hw))
    · rcases h.waker k w ((hwaker k hk).trans hw) with hkept | hmem
      · refine .inl ?_
        rwa [takenWaker, (same_wakeTaken _).slot?, slot?_freeTask]
      · exact .inr (hlonger.subset hmem)
  · by_cases hk : u.slot = t.slot
    · exact hcalled (hk ▸ hw)
    · have hj : j ≠ i := by
        rintro rfl
        exact hk (by rw [Option.some.inj (ht.symm.trans hu)])
      rw [(same_wakeTaken _).task?, task?_freeTask, if_neg hj] at hgone
      exact hlonger.subset
        (h.removed j u ((htask j hj).trans hu) hgone w ((hwaker _ hk).trans hw))

lemma cancelAux (fuel : Nat) (id : TaskId) (s : Scheduler) :
    Rouses s (Scheduler.cancelAux fuel id s) := by
  induction fuel generalizing id s with
  | zero => exact refl s
  | succ fuel ih =>
    rw [Scheduler.cancelAux]
    cases ht : s.lookup id with
    | none => exact refl s
    | some task =>
      refine release (lookup_eq_some.mp ht).1 keeps_markCancelled rfl (fun j hj => ?_)
        (fun k hk => ?_) (foldl (fun s id => ih id s) task.children _)
      · rw [task?_markCancelled, if_neg hj]
      · rw [takenWaker, slot?_markCancelled, if_neg hk, takenWaker]

lemma cancelTaskInternal (s : Scheduler) (id : TaskId) : Rouses s (s.cancelTaskInternal id) :=
  cancelAux _ id s

lemma completeTask (result : TaskResult) : Rouses s (s.completeTask i result) := by
  rw [Scheduler.completeTask]
  cases ht : s.task? i with
  | none => exact refl s
  | some task =>
    have hmark : Keeps s (s.modifySlot task.slot (TaskSlot.finish result)) :=
      Keeps.modifySlot fun _ => rfl
    refine release ht hmark rfl (fun _ _ => rfl) (fun k hk => ?_)
      ((foldl cancelTaskInternal task.children _).trans
        (of_unlinked (Unlinked.unlinkChecked task.parent) ?_))
    · rw [takenWaker, slot?_modifySlot_finish, if_neg hk, takenWaker]
    · cases task.parent with
      | none => rfl
      | some parentId =>
        rw [unlinkChecked]
        split_ifs <;> rfl

end Rouses

lemma readyQueue_insertTask {task : Task} :
    (s.insertTask task).readyQueue = s.readyQueue ++ [s.table.nextKey.slot] := by
  unfold insertTask placeTask adoptChild GenTable.nextKey
  cases hfree : s.freeSlots <;> cases hparent : task.parent <;>
    simp only [table, hfree] <;> try split_ifs
  all_goals rfl

lemma readyQueue_pollHandle {k : Nat} {waker : Waker} :
    (s.pollHandle k waker).2.readyQueue = s.readyQueue := by
  unfold pollHandle
  split
  · rfl
  · split_ifs
    · rfl
    · split <;> rfl

lemma readyQueue_tryGet {k : Nat} : (s.tryGet k).2.readyQueue = s.readyQueue := by
  unfold tryGet
  split <;> rfl

/-- Before a cancellation drops the entries of empty slots, no waker gets lost in it. -/
lemma rouses_unlink (parent : Option TaskId) :
    Rouses s ((s.unlink parent id).cancelTaskInternal id) := by
  refine (Rouses.of_unlinked (Unlinked.unlink parent) ?_).trans (Rouses.cancelTaskInternal _ id)
  cases parent <;> rfl

/-- A cancellation removes none but the entries of empty slots. -/
lemma mem_take_cancelTask (hlive : ((s.cancelTask id).1.task? i).isSome)
    (h : i ∈ s.readyQueue.take n) : i ∈ (s.cancelTask id).1.readyQueue.take n := by
  unfold cancelTask at hlive ⊢
  cases hid : s.lookup id with
  | none => exact h
  | some task =>
    rw [hid] at hlive
    refine mem_take_filter (p := fun i => (Scheduler.task? _ i).isSome) hlive ?_
    exact mem_take_of_longer (rouses_unlink task.parent).longer h

/-! ### What is popped -/

/-- What a pop skips are entries of empty slots. -/
lemma popReady_split {queue rest : List Nat} {found : Option (Nat × Task)}
    (h : s.popReady queue = (found, rest)) :
    ∃ skipped, (∀ j ∈ skipped, s.task? j = none) ∧
      queue = skipped ++ (found.map Prod.fst).toList ++ rest := by
  induction queue with
  | nil =>
    obtain ⟨rfl, rfl⟩ := Prod.mk.inj h
    exact ⟨[], by simp, rfl⟩
  | cons j queue ih =>
    simp only [popReady] at h
    split at h
    · obtain ⟨rfl, rfl⟩ := Prod.mk.inj h
      exact ⟨[], by simp, rfl⟩
    · rename_i hnone
      obtain ⟨skipped, hskipped, rfl⟩ := ih h
      exact ⟨j :: skipped, List.forall_mem_cons.mpr ⟨hnone, hskipped⟩, rfl⟩

lemma popReady_none {queue rest : List Nat} (h : s.popReady queue = (none, rest)) :
    ∀ j ∈ queue, s.task? j = none := by
  induction queue with
  | nil => simp
  | cons j queue ih =>
    simp only [popReady] at h
    split at h
    · cases h
    · rename_i hnone
      exact List.forall_mem_cons.mpr ⟨hnone, ih h⟩

/-- An occupied entry moves up by a pop, unless it is the one that is popped. -/
lemma mem_take_popReady {queue rest : List Nat} {j : Nat} {task : Task}
    (h : s.popReady queue = (some (j, task), rest)) (hlive : (s.task? i).isSome)
    (hi : i ∈ queue.take n) : j = i ∨ i ∈ rest.take (n - 1) := by
  obtain ⟨skipped, hskipped, rfl⟩ := popReady_split h
  have hnot : i ∉ skipped := by
    intro hmem
    rw [hskipped i hmem] at hlive
    cases hlive
  simp only [Option.map_some, Option.toList_some, List.append_assoc, List.singleton_append,
    List.take_append, List.mem_append] at hi
  rcases hi with hi | hi
  · exact absurd (List.mem_of_mem_take hi) hnot
  · cases hk : n - skipped.length with
    | zero => simp [hk] at hi
    | succ k =>
      rw [hk, List.take_succ_cons, List.mem_cons] at hi
      rcases hi with rfl | hi
      · exact .inl rfl
      · exact .inr (List.take_subset_take_left rest (by omega) hi)

end Scheduler

namespace Machine

/-! ### One event -/

/-- The tasks whose poll an event starts: one or none. -/
def starts (m : Machine) (e : Event) : List TaskId := (m.polled e).toList.map Prod.fst

/-- The tasks whose polls the events start, in order. -/
def started (m : Machine) : List Event → List TaskId
  | [] => []
  | e :: events => m.starts e ++ (m.next e).started events

lemma readyQueue_returnState {state : SchedulerState} :
    (m.returnState state).1.sched.readyQueue = m.sched.readyQueue := by
  simp only [returnState]
  split
  · split_ifs <;> rfl
  · rfl

lemma readyQueue_prepared (fired : List Nat) (hm : m.Valid) :
    m.sched.readyQueue ++ fired <+: (m.prepared fired).readyQueue :=
  (prepared_induction (I := fun s _ => m.sched.readyQueue ++ fired <+: s.readyQueue)
    (fun _ _ _ _ hI => hI.trans (readyQueue_insertTask ▸ List.prefix_append _ _)) hm.sched
    List.prefix_rfl).2

/-- The step of the scheduler, told by what it pops. -/
lemma runStep_popped (fired late : List Nat) :
    (∃ i task rest, (m.prepared fired).popReady (m.prepared fired).readyQueue =
        (some (i, task), rest) ∧
      m.starts (.runStep fired late) = [(m.prepared fired).keyAt i] ∧
      (m.runStep fired late).1.sched.readyQueue = rest ∧ (m.runStep fired late).2 = none) ∨
    ((∀ j ∈ (m.prepared fired).readyQueue, (m.prepared fired).task? j = none) ∧
      m.starts (.runStep fired late) = [] ∧
      late <:+ (m.runStep fired late).1.sched.readyQueue) := by
  cases hpop : (m.prepared fired).popReady (m.prepared fired).readyQueue with
  | mk found rest =>
    cases found with
    | some popped =>
      refine .inl ⟨popped.1, popped.2, rest, rfl, ?_, ?_, ?_⟩ <;>
        simp [starts, polled, runStep, enterPoll, hpop]
    | none =>
      refine .inr ⟨popReady_none hpop, by simp [starts, polled, hpop], ?_⟩
      unfold runStep
      simp only [hpop]
      rw [readyQueue_returnState]
      exact List.suffix_append _ _

/-- A task that waits for its turn in the table is there when a step is prepared. -/
lemma isSome_prepared (fired : List Nat) (hm : m.Valid) (hlive : (m.sched.lookup id).isSome) :
    (m.prepared fired).keyAt id.slot = id ∧ ((m.prepared fired).task? id.slot).isSome := by
  obtain ⟨t, ht⟩ := Option.isSome_iff_exists.mp hlive
  have hkept : ∃ children, (m.prepared fired).lookup id = some { t with children } ∧
      t.children ⊆ children := lookup_prepared hm.sched ht
  obtain ⟨children, hlookup, _⟩ := hkept
  obtain ⟨htask, hkey⟩ := lookup_eq_some.mp hlookup
  exact ⟨hkey.symm, by rw [htask]; rfl⟩

/-- One event serves a waiting task or lets it wait behind one task less for each poll it starts. -/
theorem turn_of_step (hm : m.Valid) (h : m.step e = some (m', out))
    (hlive : (m.sched.lookup id).isSome) (hlive' : (m'.sched.lookup id).isSome)
    (hturn : id.slot ∈ m.sched.readyQueue.take n) :
    id ∈ m.starts e ∨ id.slot ∈ m'.sched.readyQueue.take (n - (m.starts e).length) := by
  cases e with
  | runStep fired late =>
    obtain ⟨rfl, -⟩ := runStep_of_step h
    obtain ⟨hkey, hsome⟩ := isSome_prepared fired hm hlive
    have hturn' := mem_take_of_longer
      ((List.prefix_append _ _).trans (readyQueue_prepared fired hm)) hturn
    rcases runStep_popped (m := m) fired late with
      ⟨i, task, rest, hpop, hstarts, hqueue, -⟩ | ⟨hnone, -⟩
    · rw [hstarts, hqueue, List.mem_singleton]
      rcases mem_take_popReady hpop hsome hturn' with rfl | hrest
      · exact .inl hkey.symm
      · exact .inr hrest
    · -- the queue has an entry of an occupied slot
      rw [hnone _ (List.mem_of_mem_take hturn')] at hsome
      cases hsome
  | cancelTask cancelled =>
    obtain ⟨rfl, _⟩ := Prod.mk.inj (call_eq_some h)
    obtain ⟨t, ht⟩ := Option.isSome_iff_exists.mp hlive'
    exact .inr (mem_take_cancelTask (by rw [(lookup_eq_some.mp ht).1]; rfl) hturn)
  | pollReturn result late =>
    obtain ⟨id', future, rest, _, rfl, _⟩ := pollReturn_of_step h
    refine .inr (mem_take_of_longer ?_ hturn)
    simp only [pollReturn]
    rw [readyQueue_returnState]
    refine List.IsPrefix.trans ?_ (List.prefix_append _ _)
    cases result with
    | none => exact List.prefix_rfl
    | some result => exact (Rouses.completeTask (s := m.sched.leavePoll) result).longer
  | wake waker =>
    obtain ⟨rfl, _⟩ := Prod.mk.inj (call_eq_some h)
    exact .inr (mem_take_of_longer (readyQueue_wakeTaken (some waker)) hturn)
  | pollHandle handle waker =>
    obtain ⟨rfl, _⟩ := Prod.mk.inj (call_eq_some h)
    have hsame : (m.sched.pollHandle handle waker).2.readyQueue = m.sched.readyQueue :=
      readyQueue_pollHandle
    exact .inr (mem_take_of_longer (hsame ▸ List.prefix_rfl) hturn)
  | tryGet handle =>
    obtain ⟨rfl, _⟩ := Prod.mk.inj (call_eq_some h)
    have hsame : (m.sched.tryGet handle).2.readyQueue = m.sched.readyQueue := readyQueue_tryGet
    exact .inr (mem_take_of_longer (hsame ▸ List.prefix_rfl) hturn)
  | spawn | run =>
    obtain ⟨rfl, _⟩ := Prod.mk.inj (call_eq_some h)
    exact .inr hturn

/-! ### Ids that are gone stay gone -/

namespace Effect

/-- An id that was given and whose task is gone is never looked up again. -/
lemma lookup_eq_none {k : Nat} (h : Effect m e s) (hm : m.sched.Valid m.sched.spawnQueue)
    (hk : m.sched.taskId? k = some id) (hgone : m.sched.lookup id = none) :
    s.lookup id = none := by
  cases h with
  | quiet _ _ hsame => rw [hsame.lookup, hgone]
  | spawn => exact hgone
  | handle _ _ _ hhandled => rw [hhandled.lookup, hgone]
  | cancel _ hended => exact hended.lookup_eq_none hgone
  | finish _ _ hended => exact hended.lookup_eq_none hgone
  | @insert fired _ _ hsame =>
    rw [hsame.lookup]
    suffices hprepared : (m.prepared fired).taskId? k = some id ∧
        (m.prepared fired).lookup id = none from hprepared.2
    refine (prepared_induction (I := fun s _ => s.taskId? k = some id ∧ s.lookup id = none)
      (fun s task rest hs hI => ?_) hm ⟨hk, hgone⟩).2
    obtain ⟨hk, hgone⟩ := hI
    have hne : k ≠ task.slot := by
      rintro rfl
      rw [hs.pending_taskId task List.mem_cons_self] at hk
      cases hk
    refine ⟨by rw [taskId?_insertTask_of_ne hne, hk], ?_⟩
    -- the inserted task has a key that was never given
    by_contra hsome
    obtain ⟨t, ht⟩ := Option.ne_none_iff_exists'.mp hsome
    obtain ⟨htask, hkey⟩ := lookup_eq_some.mp ht
    rcases task?_insertTask hs.wf htask with ⟨hnext, -⟩ | ⟨hold, t', ht', -⟩
    · exact hs.taskId?_ne_nextKey (hk.trans (congrArg some (hkey.trans hnext)))
    · rw [lookup_eq_some.mpr ⟨ht', hkey.trans hold⟩] at hgone
      cases hgone

/-- Only the insertion of the spawn queue brings a new task. -/
lemma exists_insert (h : Effect m e s) (hnew : m.sched.lookup id = none)
    (hlive : (s.lookup id).isSome) :
    ∃ fired late, e = .runStep fired late ∧ (m.prepared fired).Same s := by
  have hne : s.lookup id ≠ none := Option.isSome_iff_ne_none.mp hlive
  cases h with
  | quiet _ _ hsame => exact absurd (hsame.lookup.trans hnew) hne
  | spawn => exact absurd hnew hne
  | handle _ _ _ hhandled => exact absurd (hhandled.lookup.trans hnew) hne
  | cancel _ hended => exact absurd (hended.lookup_eq_none hnew) hne
  | finish _ _ hended => exact absurd (hended.lookup_eq_none hnew) hne
  | @insert fired late _ hsame => exact ⟨fired, late, rfl, hsame⟩

end Effect

/-- A task that is alive after an event was there before it, or the event has inserted it. -/
lemma isSome_of_exec (hm : m.Valid) {events : List Event}
    (hgiven : ∃ k, m.sched.taskId? k = some id)
    (hlive : ((m.exec events).sched.lookup id).isSome) : (m.sched.lookup id).isSome := by
  induction events generalizing m with
  | nil => exact hlive
  | cons e events ih =>
    rw [exec, List.foldl_cons, ← exec] at hlive
    cases hstep : m.step e with
    | none =>
      have hnext : m.next e = m := by rw [next, hstep, Option.elim_none]
      exact ih hm hgiven (hnext ▸ hlive)
    | some result =>
      have hnext : m.step e = some (m.next e, result.2) := by
        rw [next, hstep, Option.elim_some]
      obtain ⟨k, hk⟩ := hgiven
      have hlive' := ih (hm.of_step hnext) ⟨k, (effect_of_step hnext).taskId? hm.sched hk⟩ hlive
      rw [Option.isSome_iff_ne_none] at hlive' ⊢
      exact fun hgone => hlive' ((effect_of_step hnext).lookup_eq_none hm.sched hk hgone)

/-! ### Runs -/

/-- A waiting task that is still alive at the end of a run was served in it, or waits behind one
task less for each poll of the run. -/
theorem turn_of_exec (hm : m.Valid) {events : List Event}
    (hgiven : ∃ k, m.sched.taskId? k = some id)
    (hlive : ((m.exec events).sched.lookup id).isSome)
    (hturn : id.slot ∈ m.sched.readyQueue.take n) :
    id ∈ m.started events ∨
      id.slot ∈ (m.exec events).sched.readyQueue.take (n - (m.started events).length) := by
  induction events generalizing m n with
  | nil => exact .inr hturn
  | cons e events ih =>
    have hlive₀ := isSome_of_exec hm hgiven hlive
    rw [exec, List.foldl_cons, ← exec] at hlive ⊢
    rw [started, List.mem_append, List.length_append, ← Nat.sub_sub]
    cases hstep : m.step e with
    | none =>
      have hnext : m.next e = m := by rw [next, hstep, Option.elim_none]
      have hstarts : m.starts e = [] := by
        cases e with
        | runStep => cases hstep
        | _ => rfl
      rw [hnext] at hlive ⊢
      rw [hstarts, List.length_nil, Nat.sub_zero, List.mem_nil_iff, false_or]
      exact ih hm hgiven hlive hturn
    | some result =>
      have hnext : m.step e = some (m.next e, result.2) := by
        rw [next, hstep, Option.elim_some]
      obtain ⟨k, hk⟩ := hgiven
      have hgiven' : ∃ k, (m.next e).sched.taskId? k = some id :=
        ⟨k, (effect_of_step hnext).taskId? hm.sched hk⟩
      have hlive₁ := isSome_of_exec (hm.of_step hnext) hgiven' hlive
      rcases turn_of_step hm hnext hlive₀ hlive₁ hturn with hserved | hturn
      · exact .inl (.inl hserved)
      · rw [or_assoc]
        exact .inr (ih (hm.of_step hnext) hgiven' hlive hturn)

lemma stepState_true_ne_blocked : s.stepState true ≠ .blocked := by
  unfold stepState
  rw [if_pos rfl]
  split_ifs <;> simp

lemma state_of_returnState {state state' : SchedulerState}
    (h : (m.returnState state).2 = some (.state state')) : state = state' := by
  simp only [returnState] at h
  split at h
  · split_ifs at h
    simpa using h
  · simpa using h

/-- Nobody waits in the queue when a step returns `Blocked`. -/
lemma not_waiting_of_blocked (hm : m.Valid) (h : m.step e = some (m', some (.state .blocked)))
    (hlive : (m.sched.lookup id).isSome) : id.slot ∉ m.sched.readyQueue := by
  intro hwaits
  cases e with
  | runStep fired late =>
    obtain ⟨rfl, hout⟩ := runStep_of_step h
    obtain ⟨-, hsome⟩ := isSome_prepared fired hm hlive
    rcases runStep_popped (m := m) fired late with ⟨_, _, _, _, _, _, hnone⟩ | ⟨hnone, -⟩
    · rw [hnone] at hout
      cases hout
    · rw [hnone _ ((readyQueue_prepared _ hm).subset (List.mem_append_left _ hwaits))] at hsome
      cases hsome
  | pollReturn result late =>
    obtain ⟨_, _, _, _, rfl, hout⟩ := pollReturn_of_step h
    exact absurd (state_of_returnState hout) stepState_true_ne_blocked
  | pollHandle handle waker =>
    have hout := (Prod.mk.inj (call_eq_some h)).2
    simp at hout
  | tryGet handle =>
    have hout := (Prod.mk.inj (call_eq_some h)).2
    simp at hout
  | _ => cases (Prod.mk.inj (call_eq_some h)).2

/-! ### Wakes -/

/-- The event ends a task whose completion slot has a waker for this one. -/
def Notifies (m : Machine) (e : Event) (id : TaskId) : Prop :=
  ∃ ended t, m.Ends e ended ∧ m.sched.lookup ended = some t ∧
    m.sched.takenWaker t.slot = some (some id.slot)

/-- The event makes a task ready that is alive after it: the task is new in the table, or it is
woken by the end of one that it waits for, by a waker or by a timer that is due. -/
def Readies (m : Machine) (e : Event) (id : TaskId) : Prop :=
  m.sched.lookup id = none ∨ m.Notifies e id ∨
    match e with
    | .wake waker => waker = some id.slot
    | .runStep fired late => id.slot ∈ fired ∨ m.starts e = [] ∧ id.slot ∈ late
    | .pollReturn _ late => id.slot ∈ late
    | _ => False

/-- A task that is new in the table once a step is prepared waits in the queue. -/
lemma mem_readyQueue_prepared (hm : m.Valid) (hnew : m.sched.lookup id = none)
    (hlive : ((m.prepared fired).lookup id).isSome) :
    id.slot ∈ (m.prepared fired).readyQueue := by
  revert hlive
  refine (prepared_induction (I := fun s _ => (s.lookup id).isSome → id.slot ∈ s.readyQueue)
    (fun s task rest hs hI hlive => ?_) hm.sched fun hlive => ?_).2
  · obtain ⟨t, ht⟩ := Option.isSome_iff_exists.mp hlive
    obtain ⟨htask, hkey⟩ := lookup_eq_some.mp ht
    rw [readyQueue_insertTask, List.mem_append]
    rcases task?_insertTask hs.wf htask with ⟨hnext, -⟩ | ⟨hold, t', ht', -⟩
    · exact .inr (List.mem_singleton.mpr (congrArg Key.slot (hkey.trans hnext)))
    · exact .inl (hI (by rw [lookup_eq_some.mpr ⟨ht', hkey.trans hold⟩]; rfl))
  · change (m.sched.lookup id).isSome at hlive
    rw [hnew] at hlive
    cases hlive

/-- A task that a step of the scheduler finds ready is polled by it or waits after it. -/
lemma served_or_waits (hlive : ((m.prepared fired).lookup id).isSome)
    (hmem : id.slot ∈ (m.prepared fired).readyQueue) :
    id ∈ m.starts (.runStep fired late) ∨
      id.slot ∈ (m.runStep fired late).1.sched.readyQueue := by
  obtain ⟨t, ht⟩ := Option.isSome_iff_exists.mp hlive
  obtain ⟨htask, hkey⟩ := lookup_eq_some.mp ht
  have hsome : ((m.prepared fired).task? id.slot).isSome := by rw [htask]; rfl
  rcases runStep_popped (m := m) fired late with
    ⟨i, task, rest, hpop, hstarts, hqueue, -⟩ | ⟨hnone, -⟩
  · rw [hstarts, hqueue, List.mem_singleton]
    rcases mem_take_popReady hpop hsome (n := (m.prepared fired).readyQueue.length)
      (by rwa [List.take_length]) with rfl | hrest
    · exact .inl hkey
    · exact .inr (List.mem_of_mem_take hrest)
  · rw [hnone _ hmem] at hsome
    cases hsome

/-- The waker of a task that ends is called, whether the task is cancelled or completes. -/
lemma mem_readyQueue_of_notifies (h : m.step e = some (m', out)) (hnotifies : m.Notifies e id)
    (hlive : (m'.sched.lookup id).isSome) : id.slot ∈ m'.sched.readyQueue := by
  obtain ⟨ended, t, ⟨root, hroot, hbelow⟩, ht, hwaker⟩ := hnotifies
  obtain ⟨htask, hkey⟩ := lookup_eq_some.mp ht
  have hgone {s : Scheduler} (hsame : s.keyAt ended.slot = m.sched.keyAt ended.slot)
      (hnone : s.lookup ended = none) : s.task? ended.slot = none := by
    apply task?_eq_none_of_lookup
    rwa [hsame, ← hkey]
  cases e with
  | cancelTask cancelled =>
    obtain ⟨rfl, -⟩ := Prod.mk.inj (call_eq_some h)
    obtain ⟨task, hcancelled, rfl⟩ := Option.map_eq_some_iff.mp hroot
    have hended := cancelTask_ended hcancelled
    have hnone := hgone (hended.toKeeps.keyAt _) (hended.removed ended hbelow)
    obtain ⟨u, hu⟩ := Option.isSome_iff_exists.mp hlive
    have hslot : ((m.sched.cancelTask cancelled).1.task? id.slot).isSome :=
      Option.isSome_of_eq_some (lookup_eq_some.mp hu).1
    dsimp only
    rw [cancelTask, hcancelled] at hnone hslot ⊢
    exact List.mem_filter.mpr
      ⟨(rouses_unlink task.parent).removed _ t htask hnone _ hwaker, hslot⟩
  | pollReturn result late =>
    obtain ⟨polled, future, rest, hstack, rfl, -⟩ := pollReturn_of_step h
    cases result with
    | none => cases hroot
    | some result =>
      have htop : m.top? = some (polled, future) := by rw [top?, hstack]; rfl
      rw [ending, htop, Option.bind_some] at hroot
      obtain ⟨task, hpolled, rfl⟩ := Option.map_eq_some_iff.mp hroot
      have hended := completeTask_ended (s := m.sched.leavePoll) result hpolled
      have hnone := hgone (hended.toKeeps.keyAt _) (hended.removed ended hbelow)
      simp only [pollReturn]
      rw [readyQueue_returnState]
      exact List.mem_append_left _
        ((Rouses.completeTask (s := m.sched.leavePoll) result).removed _ t htask hnone _ hwaker)
  | _ => cases hroot

lemma served_or_waits_of_readies (hm : m.Valid) (h : m.step e = some (m', out))
    (hready : m.Readies e id) (hlive : (m'.sched.lookup id).isSome) :
    id ∈ m.starts e ∨ id.slot ∈ m'.sched.readyQueue := by
  rcases hready with hnew | hnotifies | hwoken
  · obtain ⟨fired, late, rfl, hsame⟩ := (effect_of_step h).exists_insert hnew hlive
    obtain ⟨rfl, -⟩ := runStep_of_step h
    rw [hsame.lookup] at hlive
    exact served_or_waits hlive (mem_readyQueue_prepared hm hnew hlive)
  · exact .inr (mem_readyQueue_of_notifies h hnotifies hlive)
  · cases e with
    | wake waker =>
      obtain ⟨rfl, _⟩ := Prod.mk.inj (call_eq_some h)
      obtain rfl : waker = some id.slot := hwoken
      exact .inr (List.mem_append_right _ (List.mem_singleton_self _))
    | runStep fired late =>
      obtain ⟨rfl, -⟩ := runStep_of_step h
      rcases hwoken with hfired | ⟨hstarts, hlate⟩
      · rw [(same_runStep fired late).lookup] at hlive
        exact served_or_waits hlive
          ((readyQueue_prepared _ hm).subset (List.mem_append_right _ hfired))
      · rcases runStep_popped (m := m) fired late with ⟨_, _, _, _, hpolled, -⟩ | ⟨_, _, hsuffix⟩
        · rw [hpolled] at hstarts
          cases hstarts
        · exact .inr (hsuffix.subset hlate)
    | pollReturn result late =>
      obtain ⟨_, _, _, _, rfl, _⟩ := pollReturn_of_step h
      refine .inr ?_
      simp only [pollReturn]
      rw [readyQueue_returnState]
      exact List.mem_append_right _ hwoken
    | _ => cases hwoken

/-- No wake is lost: a task that an event makes ready, and that no later event of the run ends, is
polled within as many polls as the ready queue is long, and before a step returns `Blocked`. -/
theorem served_in_turn (h : Reachable anyEvent m) (hstep : m.step e = some (m', out))
    (hready : m.Readies e id) (hlive : (m'.sched.lookup id).isSome) (events : List Event)
    (hend : ((m'.exec events).sched.lookup id).isSome) :
    (m'.sched.readyQueue.length ≤ (m'.started events).length → id ∈ m.started (e :: events)) ∧
    ∀ last m'', (m'.exec events).step last = some (m'', some (.state .blocked)) →
      id ∈ m.started (e :: events) := by
  have hm := valid_of_reachable h
  have hm' := hm.of_step hstep
  have hnext : m.next e = m' := by rw [next, hstep, Option.elim_some]
  have hgiven : ∃ k, m'.sched.taskId? k = some id := by
    obtain ⟨t, ht⟩ := Option.isSome_iff_exists.mp hlive
    obtain ⟨htask, hkey⟩ := lookup_eq_some.mp ht
    exact ⟨t.slot, hkey ▸ hm'.sched.occupant id.slot t htask⟩
  have hturn : id ∈ m.started (e :: events) ∨ id.slot ∈ (m'.exec events).sched.readyQueue.take
      (m'.sched.readyQueue.length - (m'.started events).length) := by
    rw [started, hnext, List.mem_append, or_assoc]
    refine (served_or_waits_of_readies hm hstep hready hlive).imp_right fun hwaits => ?_
    exact turn_of_exec hm' hgiven hend (by rwa [List.take_length])
  constructor
  · intro hpolls
    rcases hturn with hserved | hwaits
    · exact hserved
    · simp [Nat.sub_eq_zero_of_le hpolls] at hwaits
  · intro last m'' hblocked
    rcases hturn with hserved | hwaits
    · exact hserved
    · have hvalid : (m'.exec events).Valid := by
        refine (reach_exec events m' (admits_of_forall (fun _ _ => trivial) events)).invariant
          hm' ?_
        rintro m₁ e₁ m₂ hm₁ - ⟨out, hstep⟩
        exact hm₁.of_step hstep
      exact absurd (List.mem_of_mem_take hwaits) (not_waiting_of_blocked hvalid hblocked hend)

/-- A task waits for its child, which completes, and is polled again. -/
theorem served_in_turn_woken :
    let events : List Event := [.spawn, .runStep [] [], .spawn, .pollHandle 1 (some 0),
      .pollReturn none [], .runStep [] []]
    let completes : Event := .pollReturn (some (.ok { code := 0 })) []
    let m : Machine := exec {} events
    let m' : Machine := m.next completes
    (m'.sched.readyQueue.length ≤ (m'.started [.runStep [] []]).length →
      ⟨0, 0⟩ ∈ m.started (completes :: [.runStep [] []])) ∧
    ∀ last m'', (m'.exec [.runStep [] []]).step last = some (m'', some (.state .blocked)) →
      ⟨0, 0⟩ ∈ m.started (completes :: [.runStep [] []]) :=
  have hcompletes : (exec {} [.spawn, .runStep [] [], .spawn, .pollHandle 1 (some 0),
      .pollReturn none [], .runStep [] []]).step (.pollReturn (some (.ok { code := 0 })) []) =
      some (_, some (.state .progress)) := rfl
  served_in_turn (reachable_exec _) hcompletes
    (.inr (.inl ⟨⟨1, 0⟩, _, ⟨⟨1, 0⟩, rfl, .refl⟩, rfl, rfl⟩)) (by decide) [.runStep [] []]
    (by decide)

end Machine

end AmlaSandbox.Scheduling
