import AmlaSandbox.Scheduler.Invariant

/-!
# Where parents and roots come from

A task gets its parent and its root from the context in which it is spawned, or becomes its own root
where there is no context. The context is that of the innermost poll, also after a nested `run`, and
a task never changes either of the two. So the parent of a task, as long as it is in the table,
was spawned before the task and has the same root.
-/

namespace AmlaSandbox.Scheduling

open Library Scheduler

variable {m m' : Machine} {e : Event} {out : Option Output} {s s' s'' : Scheduler} {i k k' : Nat}
  {id p r : TaskId} {t t' task : Task} {pending : List Task} {fired late : List Nat}
  {parent root : Option TaskId}

namespace Scheduler

/-! ### What becomes of a task -/

/-- Ids stay issued, and what is found under an id that was given before was there before. Only its
children may differ. -/
structure Remembers (s s' : Scheduler) : Prop where
  issued : ∀ id, s.table.Issued id → s'.table.Issued id
  task : ∀ id t', s.table.Issued id → s'.lookup id = some t' →
    ∃ children, s.lookup id = some { t' with children }

namespace Remembers

lemma refl (s : Scheduler) : Remembers s s := ⟨fun _ h => h, fun _ t' _ ht => ⟨t'.children, ht⟩⟩

lemma trans (h : Remembers s s') (h' : Remembers s' s'') : Remembers s s'' where
  issued id hid := h'.issued id (h.issued id hid)
  task id t'' hid ht := by
    obtain ⟨children', ht'⟩ := h'.task id t'' (h.issued id hid) ht
    obtain ⟨children, ht⟩ := h.task id _ hid ht'
    exact ⟨children, ht⟩

lemma of_table (h : s'.table = s.table) : Remembers s s' where
  issued _ hid := h.symm ▸ hid
  task _ t' _ ht := ⟨t'.children, by rwa [Scheduler.lookup, h] at ht⟩

end Remembers

lemma Keeps.issued (h : s.Keeps s') (hid : s.table.Issued id) : s'.table.Issued id := by
  obtain ⟨hlt, hgen⟩ := hid
  exact ⟨h.length.symm ▸ hlt, Nat.le_trans hgen (Nat.le_of_eq (h.gen id.slot).symm)⟩

lemma issued_of_lookup (ht : s.lookup id = some t) : s.table.Issued id := by
  obtain ⟨htask, hkey⟩ := lookup_eq_some.mp ht
  exact ⟨GenTable.lt_of_get? htask, Nat.le_of_eq (congrArg Key.generation hkey)⟩

/-- The tasks that are left when one ends keep all but a child. -/
lemma Ended.remembers {mark : TaskSlot → TaskSlot} {ended : TaskId}
    (h : Ended mark ended s s') : Remembers s s' where
  issued _ hid := h.toKeeps.issued hid
  task id t' _ ht' := by
    obtain ⟨htask', hkey⟩ := lookup_eq_some.mp ht'
    obtain ⟨t, ht, _⟩ := h.task id.slot t' htask'
    have hkey' : id = s.keyAt id.slot := hkey.trans (h.keyAt _)
    have hbelow : ¬ s.Below ended (s.keyAt id.slot) := by
      intro hbelow
      have hgone := h.removed id (hkey' ▸ hbelow)
      rw [ht'] at hgone
      cases hgone
    obtain ⟨children, hentry, _⟩ := h.survivor id.slot t ht hbelow
    obtain rfl : { t with children } = t' := Option.some.inj (hentry.symm.trans htask')
    exact ⟨t.children, lookup_eq_some.mpr ⟨ht, hkey'⟩⟩

lemma remembers_insertTask (h : s.table.Wf) : Remembers s (s.insertTask task) where
  issued _ hid := issued_insertTask h hid
  task id t' hid ht' := by
    cases ht : s.lookup id with
    | some t =>
      obtain ⟨children, hlookup, _⟩ := lookup_insertTask task h ht
      obtain rfl : { t with children } = t' := Option.some.inj (hlookup.symm.trans ht')
      exact ⟨t.children, rfl⟩
    | none =>
      -- the id was free, and the insertion gives only a new one
      obtain ⟨htask', hkey⟩ := lookup_eq_some.mp ht'
      rcases task?_insertTask h htask' with ⟨hnext, _⟩ | ⟨hsame, t, htask, _⟩
      · exact absurd (hkey.trans hnext ▸ hid) GenTable.not_issued_nextKey
      · rw [lookup_eq_some.mpr ⟨htask, hkey.trans hsame⟩] at ht
        cases ht

/-- The inserted task has the parent of its request, and its root unless it is to be its own. -/
lemma lookup_insertTask_nextKey (h : s.table.Wf) :
    ∃ children, (s.insertTask task).lookup s.table.nextKey =
      some { withRoot task s.table.nextKey with children } := by
  simp only [lookup]
  rw [table_insertTask]
  obtain ⟨children, hlookup, _⟩ :=
    lookup_adoptIn task.parent s.table.nextKey h.lookup_insert_nextKey
  exact ⟨children, hlookup⟩

/-! ### The lineage of a task -/

/-- The id was given to a task that was spawned before the spawn `k` and that has the root `r`, as
long as it is in the table. -/
structure Leads (s : Scheduler) (k : Nat) (p r : TaskId) : Prop where
  issued : s.table.Issued p
  task : ∀ t, s.lookup p = some t → t.root = some r ∧ t.slot < k

/-- What the spawn `k` may inherit: nothing, or a parent that leads it with the parent's root. -/
inductive Inherits (s : Scheduler) (k : Nat) : Option TaskId → Option TaskId → Prop
  | nothing : Inherits s k none none
  | leader {p r : TaskId} : s.Leads k p r → Inherits s k (some p) (some r)

/-- The task under `id` is its own root, or its parent leads it with the same root. -/
inductive Descends (s : Scheduler) (id : TaskId) (t : Task) : Prop
  | root : t.parent = none → t.root = some id → Descends s id t
  | child {p r : TaskId} :
    t.parent = some p → t.root = some r → s.Leads t.slot p r → Descends s id t

/-- Every task has its lineage, and every request inherited one. -/
structure Lineage (s : Scheduler) (pending : List Task) : Prop where
  placed : ∀ id t, s.lookup id = some t → s.Descends id t
  queued : ∀ task ∈ pending, s.Inherits task.slot task.parent task.root

lemma Leads.mono (h : s.Leads k p r) (hs : Remembers s s') (hk : k ≤ k') : s'.Leads k' p r where
  issued := hs.issued p h.issued
  task t' ht' := by
    obtain ⟨children, ht⟩ := hs.task p t' h.issued ht'
    obtain ⟨hroot, hlt⟩ := h.task _ ht
    exact ⟨hroot, Nat.lt_of_lt_of_le hlt hk⟩

lemma Inherits.mono (h : s.Inherits k parent root) (hs : Remembers s s') (hk : k ≤ k') :
    s'.Inherits k' parent root := by
  cases h with
  | nothing => exact .nothing
  | leader hleads => exact .leader (hleads.mono hs hk)

lemma Descends.mono {children : List TaskId} (h : s.Descends id { t with children })
    (hs : Remembers s s') : s'.Descends id t := by
  cases h with
  | root hparent hroot => exact .root hparent hroot
  | child hparent hroot hleads =>
    exact .child hparent hroot (hleads.mono hs (Nat.le_refl _))

/-- Lineage is kept where no task appears. -/
lemma Lineage.of_remembers (h : s.Lineage pending) (hs : Remembers s s')
    (hnew : ∀ id t, s'.lookup id = some t → s.table.Issued id) : s'.Lineage pending where
  placed id t ht := by
    obtain ⟨children, hold⟩ := hs.task id t (hnew id t ht) ht
    exact (h.placed id _ hold).mono hs
  queued task hmem := (h.queued task hmem).mono hs (Nat.le_refl _)

lemma Lineage.of_keeps (h : s.Lineage pending) (hs : Remembers s s') (hkeeps : s.Keeps s') :
    s'.Lineage pending := by
  refine h.of_remembers hs fun id t ht => ?_
  obtain ⟨htask, hkey⟩ := lookup_eq_some.mp ht
  obtain ⟨t₀, ht₀, _⟩ := hkeeps.task _ t htask
  exact issued_of_lookup (lookup_eq_some.mpr ⟨ht₀, hkey.trans (hkeeps.keyAt _)⟩)

/-- A request hands on what it inherited, or its task becomes its own root. -/
lemma Lineage.insertTask (h : s.Lineage (task :: pending)) (hs : s.table.Wf) :
    (s.insertTask task).Lineage pending where
  placed id t' ht' := by
    have hremembers : Remembers s (s.insertTask task) := remembers_insertTask hs
    obtain ⟨htask', hkey⟩ := lookup_eq_some.mp ht'
    rcases task?_insertTask hs htask' with ⟨hnext, _⟩ | ⟨hsame, t, htask, _⟩
    · obtain ⟨children, hplaced⟩ : ∃ children, (s.insertTask task).lookup s.table.nextKey =
          some { withRoot task s.table.nextKey with children } := lookup_insertTask_nextKey hs
      obtain rfl := hkey.trans hnext
      obtain rfl := Option.some.inj (hplaced.symm.trans ht')
      obtain ⟨slot, parent, root, _⟩ := task
      cases h.queued _ List.mem_cons_self with
      | nothing => exact .root rfl rfl
      | leader hleads => exact .child rfl rfl (hleads.mono hremembers (Nat.le_refl _))
    · have hissued := issued_of_lookup (lookup_eq_some.mpr ⟨htask, hkey.trans hsame⟩)
      obtain ⟨children, hold⟩ := hremembers.task id t' hissued ht'
      exact (h.placed id _ hold).mono hremembers
  queued other hmem :=
    (h.queued other (List.mem_cons_of_mem _ hmem)).mono (remembers_insertTask hs) (Nat.le_refl _)

/-! ### The context -/

/-- The parent and the root that a spawn gets. -/
def context (s : Scheduler) : Option TaskId × Option TaskId := (s.currentTask, s.currentRoot)

@[simp] lemma context_modifyTask (f : Task → Task) : (s.modifyTask i f).context = s.context := rfl

@[simp] lemma context_modifySlot (f : TaskSlot → TaskSlot) :
    (s.modifySlot k f).context = s.context := rfl

@[simp] lemma context_fireTimers : (s.fireTimers fired).context = s.context := rfl

@[simp] lemma context_freeTask : (s.freeTask i).context = s.context := by
  simp only [freeTask]
  split_ifs <;> rfl

@[simp] lemma context_wakeTaken (waker : Option Waker) :
    (s.wakeTaken waker).context = s.context := by
  rcases waker with _ | _ | _ <;> rfl

@[simp] lemma context_adoptChild : (s.adoptChild parent id).context = s.context := by
  cases parent with
  | none => rfl
  | some p =>
    simp only [adoptChild]
    split_ifs <;> rfl

@[simp] lemma context_unlink : (s.unlink parent id).context = s.context := by
  cases parent <;> rfl

@[simp] lemma context_unlinkChecked : (s.unlinkChecked parent id).context = s.context := by
  cases parent with
  | none => rfl
  | some p =>
    simp only [unlinkChecked]
    split_ifs <;> rfl

@[simp] lemma context_placeTask : (s.placeTask task).1.context = s.context := by
  rw [placeTask]
  cases s.freeSlots <;> rfl

@[simp] lemma context_insertTask : (s.insertTask task).context = s.context := by
  show (((s.placeTask task).1.modifySlot task.slot _).adoptChild task.parent _).context = _
  simp

lemma context_insertTasks (pending : List Task) (s : Scheduler) :
    (insertTasks s pending).context = s.context := by
  induction pending generalizing s with
  | nil => rfl
  | cons task rest ih => exact (ih _).trans context_insertTask

@[simp] lemma context_processSpawnQueue : s.processSpawnQueue.context = s.context :=
  context_insertTasks _ _

lemma context_foldl {f : Scheduler → TaskId → Scheduler}
    (hf : ∀ s id, (f s id).context = s.context) (ids : List TaskId) (s : Scheduler) :
    (ids.foldl f s).context = s.context := by
  induction ids generalizing s with
  | nil => rfl
  | cons id ids ih => exact (ih _).trans (hf s id)

lemma context_cancelAux (fuel : Nat) (id : TaskId) (s : Scheduler) :
    (cancelAux fuel id s).context = s.context := by
  induction fuel generalizing id s with
  | zero => rfl
  | succ fuel ih =>
    rw [cancelAux]
    split
    · rfl
    · simp [context_foldl (fun s id => ih id s), markCancelled]

@[simp] lemma context_cancelTaskInternal : (s.cancelTaskInternal id).context = s.context :=
  context_cancelAux _ _ _

@[simp] lemma context_cancelTask : (s.cancelTask id).1.context = s.context := by
  rw [cancelTask]
  split
  · rfl
  · show ((s.unlink _ id).cancelTaskInternal id).context = _
    simp

@[simp] lemma context_completeTask (result : TaskResult) :
    (s.completeTask i result).context = s.context := by
  rw [completeTask]
  split
  · rfl
  · simp [context_foldl fun _ _ => context_cancelTaskInternal]

@[simp] lemma context_pollHandle (waker : Waker) :
    (s.pollHandle k waker).2.context = s.context := by
  simp only [pollHandle]
  split
  · rfl
  · split_ifs
    · rfl
    · split <;> rfl

@[simp] lemma context_tryGet : (s.tryGet k).2.context = s.context := by
  simp only [tryGet]
  split <;> rfl

end Scheduler

lemma Handled.remembers (h : Handled s s') : s.Remembers s' where
  issued _ hid := h.toKeeps.issued hid
  task _ t' _ ht := ⟨t'.children, h.lookup.symm.trans ht⟩

namespace Machine

/-- The context that the end of a `run` restores. -/
def saved? : Frame → Option (Option TaskId × Option TaskId)
  | .run savedTask savedRoot => some (savedTask, savedRoot)
  | .poll _ _ => none

/-- The current context and those saved on the stack. -/
def contexts (m : Machine) : List (Option TaskId × Option TaskId) :=
  m.sched.context :: m.stack.filterMap saved?

/-- A `run` that returns restores a saved context, and every other step leaves the contexts. -/
lemma contexts_returnState (m : Machine) (state : SchedulerState) :
    (m.returnState state).1.contexts ⊆ m.contexts := by
  simp only [returnState]
  split
  · next savedTask savedRoot rest hstack =>
    split_ifs
    · exact List.Subset.refl _
    · intro c hc
      simp only [contexts, hstack, List.filterMap_cons, saved?]
      exact List.mem_cons_of_mem _ hc
  · exact List.Subset.refl _

lemma contexts_runStep {c : Option TaskId × Option TaskId}
    (hc : c ∈ (m.runStep fired late).1.contexts) :
    c ∈ m.contexts ∨ ∃ i t, (m.prepared fired).task? i = some t ∧
      c = (some ((m.prepared fired).keyAt i), t.root) := by
  have hprepared : (m.prepared fired).context = m.sched.context := context_processSpawnQueue
  rw [runStep] at hc
  dsimp only at hc
  split at hc
  · next i t queue hpop =>
    rcases List.mem_cons.mp hc with rfl | hc
    · exact .inr ⟨i, t, popReady_eq_some hpop, rfl⟩
    · exact .inl (List.mem_cons_of_mem _ hc)
  · left
    have hc := contexts_returnState _ _ hc
    rcases List.mem_cons.mp hc with rfl | hc
    · exact hprepared ▸ List.mem_cons_self
    · exact List.mem_cons_of_mem _ hc

/-- A context after an event was one before it, is empty, or is that of a task to be polled. -/
lemma contexts_of_step (h : m.step e = some (m', out)) {c : Option TaskId × Option TaskId}
    (hc : c ∈ m'.contexts) :
    c ∈ m.contexts ∨ c = (none, none) ∨ ∃ fired late i t, e = .runStep fired late ∧
      (m.prepared fired).task? i = some t ∧ c = (some ((m.prepared fired).keyAt i), t.root) := by
  have hcall : ∀ {s : Scheduler} {spawner : List (Option Nat)}, s.context = m.sched.context →
      c ∈ contexts { m with sched := s, spawner } → c ∈ m.contexts := by
    intro s spawner hs hc
    simp only [contexts, hs] at hc
    exact hc
  cases e with
  | spawn =>
    obtain ⟨rfl, _⟩ := Prod.mk.inj (call_eq_some h)
    exact .inl (hcall rfl hc)
  | wake waker =>
    obtain ⟨rfl, _⟩ := Prod.mk.inj (call_eq_some h)
    exact .inl (hcall (context_wakeTaken (some waker)) hc)
  | pollHandle handle waker =>
    obtain ⟨rfl, _⟩ := Prod.mk.inj (call_eq_some h)
    exact .inl (hcall (context_pollHandle waker) hc)
  | tryGet handle =>
    obtain ⟨rfl, _⟩ := Prod.mk.inj (call_eq_some h)
    exact .inl (hcall context_tryGet hc)
  | cancelTask id =>
    obtain ⟨rfl, _⟩ := Prod.mk.inj (call_eq_some h)
    exact .inl (hcall context_cancelTask hc)
  | run =>
    obtain ⟨rfl, _⟩ := Prod.mk.inj (call_eq_some h)
    -- the saved context is the current one
    simp only [contexts, List.filterMap_cons, saved?, List.mem_cons] at hc
    rcases hc with hc | hc | hc
    · exact .inl (List.mem_cons.mpr (.inl hc))
    · exact .inl (List.mem_cons.mpr (.inl hc))
    · exact .inl (List.mem_cons_of_mem _ hc)
  | runStep fired late =>
    obtain ⟨rfl, _⟩ := runStep_of_step h
    rcases contexts_runStep hc with hc | ⟨i, t, ht, rfl⟩
    · exact .inl hc
    · exact .inr (.inr ⟨fired, late, i, t, rfl, ht, rfl⟩)
  | pollReturn result late =>
    obtain ⟨id, future, rest, hstack, rfl, _⟩ := pollReturn_of_step h
    have hc := contexts_returnState _ _ hc
    rcases List.mem_cons.mp hc with rfl | hc
    · right
      left
      cases result with
      | none => rfl
      | some result =>
        show (m.sched.leavePoll.completeTask id.slot result).context = _
        rw [context_completeTask]
        rfl
    · left
      simp only [contexts, hstack, List.filterMap_cons, saved?]
      exact List.mem_cons_of_mem _ hc

/-! ### One event -/

lemma prepared_lineage (hm : m.sched.Valid m.sched.spawnQueue)
    (h : m.sched.Lineage m.sched.spawnQueue) :
    m.sched.Remembers (m.prepared fired) ∧ (m.prepared fired).Lineage [] := by
  refine (prepared_induction
    (I := fun s rest => m.sched.Remembers s ∧ s.Lineage rest) ?_ hm ?_).2
  · rintro s task rest hs ⟨hremembers, hlineage⟩
    exact ⟨hremembers.trans (remembers_insertTask hs.wf), hlineage.insertTask hs.wf⟩
  · exact ⟨.of_table rfl, h.of_remembers (.of_table rfl) fun _ _ ht => issued_of_lookup ht⟩

/-- The tasks, the requests and the contexts of a machine all have their lineage. -/
structure Inherited (m : Machine) : Prop where
  lineage : m.sched.Lineage m.sched.spawnQueue
  contexts : ∀ c ∈ m.contexts, m.sched.Inherits m.sched.completions.length c.1 c.2

lemma Effect.remembers (h : Effect m e s) (hm : m.sched.Valid m.sched.spawnQueue)
    (hlineage : m.sched.Lineage m.sched.spawnQueue) : m.sched.Remembers s := by
  cases h with
  | quiet _ _ hsame => exact .of_table hsame.table
  | spawn => exact .of_table rfl
  | handle _ _ _ hhandled => exact hhandled.remembers
  | insert hsame => exact (prepared_lineage hm hlineage).1.trans (.of_table hsame.table)
  | cancel _ hended => exact hended.remembers
  | finish _ _ hended => exact hended.remembers

/-- A spawn inherits the context. -/
lemma Inherited.spawn (h : m.Inherited) : m.sched.spawn.Lineage m.sched.spawn.spawnQueue where
  placed id t ht := (h.lineage.placed id t ht).mono (.of_table rfl)
  queued task hmem := by
    simp only [Scheduler.spawn, List.mem_append, List.mem_singleton] at hmem
    rcases hmem with hmem | rfl
    · exact (h.lineage.queued task hmem).mono (.of_table rfl) (Nat.le_refl _)
    · exact (h.contexts _ List.mem_cons_self).mono (.of_table rfl) (Nat.le_refl _)

lemma Effect.lineage (h : Effect m e s) (hm : m.sched.Valid m.sched.spawnQueue)
    (hinherited : m.Inherited) : s.Lineage s.spawnQueue := by
  have hkeeps : m.sched.Keeps s → s.Lineage s.spawnQueue := by
    intro hkeeps
    rw [hkeeps.queue]
    exact hinherited.lineage.of_keeps (h.remembers hm hinherited.lineage) hkeeps
  cases h with
  | quiet _ _ hsame => exact hkeeps (.of_same hsame)
  | spawn => exact hinherited.spawn
  | handle _ _ _ hhandled => exact hkeeps hhandled.toKeeps
  | insert hsame =>
    rw [hsame.queue, spawnQueue_prepared]
    exact (prepared_lineage hm hinherited.lineage).2.of_keeps (.of_table hsame.table)
      (.of_same hsame)
  | cancel _ hended => exact hkeeps hended.toKeeps
  | finish _ _ hended => exact hkeeps hended.toKeeps

/-- A task in the table leads what it spawns. -/
lemma leads_of_lookup (hs : s.Valid pending) (ht : s.lookup id = some t) (hroot : t.root = some r) :
    s.Leads s.completions.length id r where
  issued := issued_of_lookup ht
  task t' ht' := by
    obtain rfl := Option.some.inj (ht.symm.trans ht')
    exact ⟨hroot, lt_completions_of_taskId? (hs.occupant _ t (lookup_eq_some.mp ht).1)⟩

lemma exists_root (h : s.Descends id t) : ∃ r, t.root = some r := by
  cases h with
  | root _ hroot => exact ⟨id, hroot⟩
  | child _ hroot _ => exact ⟨_, hroot⟩

lemma Inherited.of_step (hm : m.Valid) (hinherited : m.Inherited)
    (h : m.step e = some (m', out)) : m'.Inherited where
  lineage := (effect_of_step h).lineage hm.sched hinherited
  contexts c hc := by
    have heffect := effect_of_step h
    have hlength := heffect.length_completions hm.sched
    rcases contexts_of_step h hc with hc | rfl | ⟨fired, late, i, t, rfl, ht, rfl⟩
    · exact (hinherited.contexts c hc).mono (heffect.remembers hm.sched hinherited.lineage)
        (by omega)
    · exact .nothing
    · obtain ⟨_, hlineage⟩ : _ ∧ (m.prepared fired).Lineage [] :=
        prepared_lineage hm.sched hinherited.lineage
      have hlookup := lookup_keyAt.trans ht
      obtain ⟨r, hroot⟩ := exists_root (hlineage.placed _ t hlookup)
      obtain ⟨rfl, _⟩ := runStep_of_step h
      have hleads := leads_of_lookup (valid_prepared hm.sched) hlookup hroot
      have hsame := same_runStep (m := m) fired late
      rw [hroot]
      exact .leader (hleads.mono (.of_table hsame.table) (by rw [hsame.completions]))

lemma inherited_new : Inherited {} where
  lineage := ⟨fun _ _ ht => by simp [lookup, table, GenTable.lookup, GenTable.get?] at ht,
    fun _ hmem => absurd hmem List.not_mem_nil⟩
  contexts c hc := by
    obtain rfl := List.mem_singleton.mp hc
    exact .nothing

/-- In every state of every run all tasks, requests and contexts have their lineage. -/
theorem inherited_of_reachable {ok : Machine → Event → Prop} (h : Reachable ok m) :
    m.Inherited := by
  refine h.invariant_of (J := Valid) (fun m h => valid_of_reachable h) inherited_new ?_
  rintro m e m' hm _ hinherited _ ⟨out, hstep⟩
  exact hinherited.of_step hm hstep

end Machine

end AmlaSandbox.Scheduling
