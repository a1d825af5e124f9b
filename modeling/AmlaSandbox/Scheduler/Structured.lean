import AmlaSandbox.Scheduler.Invariant
import Mathlib.Data.List.ReduceOption

/-!
# Structured concurrency

A task should not outlive the task whose poll spawned it. The link from a child to its parent is
stored twice: as the parent of a queued request, and as an entry in the parent's children once the
child is in the table. It breaks when a request is made outside the context of the poll that makes
it, and when a parent ends while a request of its own is still queued.
-/

namespace AmlaSandbox.Scheduling

open Library Scheduler

variable {m m' : Machine} {e : Event} {out : Option Output} {s : Scheduler} {k p : Nat}
  {pending : List Task} {task : Task} {spawner : List (Option Nat)}

/-- Every queued request and every task that was spawned within a poll is linked to the polled task,
which is still in the table. -/
structure Linked (spawner : List (Option Nat)) (s : Scheduler) (pending : List Task) : Prop where
  queued : ∀ task ∈ pending, ∀ p, spawner[task.slot]? = some (some p) →
    ∃ parentId t, task.parent = some parentId ∧ s.lookup parentId = some t ∧ t.slot = p
  placed : ∀ i t p, s.task? i = some t → spawner[t.slot]? = some (some p) →
    ∃ parentId t', s.lookup parentId = some t' ∧ t'.slot = p ∧ s.keyAt i ∈ t'.children

lemma Linked.of_same (h : Linked spawner s pending) {s' : Scheduler} (hsame : s.Same s') :
    Linked spawner s' pending where
  queued task hmem p hp := by
    obtain ⟨parentId, t, hparent, ht, hslot⟩ := h.queued task hmem p hp
    exact ⟨parentId, t, hparent, hsame.lookup.trans ht, hslot⟩
  placed i t p ht hp := by
    obtain ⟨parentId, t', ht', hslot, hchild⟩ := h.placed i t p (hsame.task? ▸ ht) hp
    exact ⟨parentId, t', hsame.lookup.trans ht', hslot, hsame.keyAt ▸ hchild⟩

/-- The insertion of a queued request turns its parent into an entry of the parent's children. -/
lemma Linked.insertTask (h : Linked spawner s (task :: pending)) (hs : s.Valid (task :: pending)) :
    Linked spawner (s.insertTask task) pending where
  queued other hmem p hp := by
    obtain ⟨parentId, t, hparent, ht, hslot⟩ := h.queued other (List.mem_cons_of_mem _ hmem) p hp
    obtain ⟨children, hlookup, _⟩ := lookup_insertTask task hs.wf ht
    exact ⟨parentId, _, hparent, hlookup, hslot⟩
  placed i t' p ht' hp := by
    rcases task?_insertTask hs.wf ht' with ⟨hkey, hslot⟩ | ⟨hkey, t, ht, hslot⟩
    · rw [hslot] at hp
      obtain ⟨parentId, t, hparent, ht, hslot⟩ := h.queued task List.mem_cons_self p hp
      refine ⟨parentId, _, lookup_insertTask_parent hs.wf hparent ht, hslot, ?_⟩
      rw [hkey]
      exact List.mem_append_right _ (List.mem_singleton_self _)
    · rw [hslot] at hp
      obtain ⟨parentId, u, hu, hslot, hchild⟩ := h.placed i t p ht hp
      obtain ⟨children, hlookup, hsub⟩ := lookup_insertTask task hs.wf hu
      exact ⟨parentId, _, hlookup, hslot, hkey ▸ hsub hchild⟩

namespace Machine

/-- The task `k` was spawned in a poll of the task `p`. -/
def Spawned (m : Machine) (p k : Nat) : Prop := m.spawner[k]? = some (some p)

/-- The request of a task is queued, or the task is in the table. -/
def Active (m : Machine) (k : Nat) : Prop :=
  (∃ task ∈ m.sched.spawnQueue, task.slot = k) ∨ ∃ task ∈ m.sched.tasks.reduceOption, task.slot = k

/-- A spawn within a poll is made in the context of that poll while its task is still in the table,
and no event removes the parent of a request that is still queued. -/
def KeepsParents (m : Machine) (e : Event) : Prop :=
  (e = .spawn → ∀ poll, m.top? = some poll →
    m.sched.currentTask = some poll.1 ∧ (m.sched.lookup poll.1).isSome) ∧
  ∀ task ∈ m.sched.spawnQueue, ∀ parentId, task.parent = some parentId → ¬ m.Ends e parentId

lemma active_iff : m.Active k ↔ (∃ task ∈ m.sched.spawnQueue, task.slot = k) ∨
    ∃ i t, m.sched.task? i = some t ∧ t.slot = k := by
  apply or_congr_right
  simp only [List.reduceOption_mem_iff]
  constructor
  · rintro ⟨t, ht, hslot⟩
    obtain ⟨i, hi⟩ := List.getElem?_of_mem ht
    exact ⟨i, t, GenTable.get?_eq_some.mpr hi, hslot⟩
  · rintro ⟨i, t, ht, hslot⟩
    exact ⟨t, List.mem_of_getElem? (GenTable.get?_eq_some.mp ht), hslot⟩

/-! ### One event -/

lemma linked_spawn (hm : m.Valid) (hlinked : Linked m.spawner m.sched m.sched.spawnQueue)
    (hok : m.KeepsParents .spawn) :
    Linked (m.spawner ++ [m.top?.map (·.2)]) m.sched.spawn m.sched.spawn.spawnQueue := by
  have hold : ∀ {k p}, k < m.sched.completions.length →
      (m.spawner ++ [m.top?.map (·.2)])[k]? = some (some p) → m.spawner[k]? = some (some p) := by
    intro k p hk hp
    rwa [List.getElem?_append_left (hm.spawner.symm ▸ hk)] at hp
  refine ⟨?_, ?_⟩
  · intro task hmem p hp
    simp only [Scheduler.spawn, List.mem_append, List.mem_singleton] at hmem
    rcases hmem with hmem | rfl
    · exact hlinked.queued task hmem p (hold (hm.sched.pending_lt task hmem) hp)
    · rw [← hm.spawner, List.getElem?_concat_length] at hp
      obtain ⟨⟨id, future⟩, htop, rfl⟩ := Option.map_eq_some_iff.mp (Option.some.inj hp)
      obtain ⟨hcurrent, hsome⟩ := hok.1 rfl _ htop
      obtain ⟨t, ht⟩ := Option.isSome_iff_exists.mp hsome
      exact ⟨id, t, hcurrent, ht, hm.sched.slot_eq ht (hm.polls _ (top?_mem_polls htop))⟩
  · intro i t p ht hp
    exact hlinked.placed i t p ht
      (hold (lt_completions_of_taskId? (hm.sched.occupant i t ht)) hp)

/-- An event that inserts nothing keeps the links of what it leaves in the table. -/
lemma linked_of_keeps (hm : m.Valid) (hlinked : Linked m.spawner m.sched m.sched.spawnQueue)
    (hok : m.KeepsParents e) (heffect : Effect m e s) (hkeeps : m.sched.Keeps s) :
    Linked m.spawner s m.sched.spawnQueue where
  queued task hmem p hp := by
    obtain ⟨parentId, t, hparent, ht, hslot⟩ := hlinked.queued task hmem p hp
    obtain ⟨children, hlookup, _⟩ :=
      heffect.survivor hm.sched ht (hok.2 task hmem parentId hparent)
    exact ⟨parentId, _, hparent, hlookup, hslot⟩
  placed i t' p ht' hp := by
    obtain ⟨t, ht, hslot⟩ := hkeeps.task i t' ht'
    obtain ⟨parentId, u, hu, hslot', hchild⟩ := hlinked.placed i t p ht (hslot ▸ hp)
    have hstays : ¬ m.Ends e (m.sched.keyAt i) := by
      intro hends
      have hgone := heffect.lookup_of_ends hends
      rw [← hkeeps.keyAt, lookup_keyAt, ht'] at hgone
      cases hgone
    have hparent : ¬ m.Ends e parentId := by
      rintro ⟨root, hroot, hbelow⟩
      exact hstays ⟨root, hroot, hbelow.tail ⟨u, hu, hchild⟩⟩
    obtain ⟨children, hlookup, hkept⟩ := heffect.survivor hm.sched hu hparent
    refine ⟨parentId, _, hlookup, hslot', hkeeps.keyAt i ▸ hkept _ hchild ?_⟩
    intro hroot
    exact hstays ⟨_, hroot, .refl⟩

lemma linked_of_step (hm : m.Valid) (hlinked : Linked m.spawner m.sched m.sched.spawnQueue)
    (hok : m.KeepsParents e) (h : m.step e = some (m', out)) :
    Linked m'.spawner m'.sched m'.sched.spawnQueue := by
  have heffect := effect_of_step h
  rw [spawner_of_step h]
  generalize m'.sched = s at heffect ⊢
  have hkeeps : m.spawned e = [] → m.sched.Keeps s →
      Linked (m.spawner ++ m.spawned e) s s.spawnQueue := by
    intro hspawned hkeeps
    rw [hspawned, List.append_nil, hkeeps.queue]
    exact linked_of_keeps hm hlinked hok heffect hkeeps
  cases heffect with
  | quiet hspawned _ hsame => exact hkeeps hspawned (.of_same hsame)
  | spawn => exact linked_spawn hm hlinked hok
  | handle hspawned _ _ hhandled => exact hkeeps hspawned hhandled.toKeeps
  | insert hsame =>
    rw [spawned, List.append_nil, hsame.queue, spawnQueue_prepared]
    · refine (prepared_induction (I := Linked m.spawner) (fun s task rest hs hI =>
        hI.insertTask hs) hm.sched ?_).2.of_same hsame
      exact ⟨hlinked.queued, hlinked.placed⟩
    · simp
  | cancel _ hended => exact hkeeps rfl hended.toKeeps
  | finish _ _ hended => exact hkeeps rfl hended.toKeeps

theorem linked_of_reachable (h : Reachable KeepsParents m) :
    Linked m.spawner m.sched m.sched.spawnQueue := by
  refine h.invariant_of (J := Valid) (I := fun m => Linked m.spawner m.sched m.sched.spawnQueue)
    (fun m h => valid_of_reachable h) ?_ ?_
  · exact ⟨by simp, by simp [task?, table, GenTable.get?]⟩
  · rintro m e m' hm _ hlinked hok ⟨out, hstep⟩
    exact linked_of_step hm hlinked hok hstep

/-! ### All runs -/

lemma active_of_spawned (hlinked : Linked m.spawner m.sched m.sched.spawnQueue)
    (hspawned : m.Spawned p k) (hk : m.Active k) : m.Active p := by
  rw [active_iff] at hk ⊢
  right
  rcases hk with ⟨task, hmem, rfl⟩ | ⟨i, t, ht, rfl⟩
  · obtain ⟨parentId, t, _, ht, hslot⟩ := hlinked.queued task hmem p hspawned
    exact ⟨parentId.slot, t, (lookup_eq_some.mp ht).1, hslot⟩
  · obtain ⟨parentId, u, hu, hslot, _⟩ := hlinked.placed i t p ht hspawned
    exact ⟨parentId.slot, u, (lookup_eq_some.mp hu).1, hslot⟩

/-- As long as the events keep the parents of what is spawned, a task that is active has only active
ancestors: once a task has completed or was cancelled, nothing it spawned, directly or not, is
queued or in the table. -/
theorem structured_of_keepsParents (h : Reachable KeepsParents m)
    (hspawned : Relation.TransGen m.Spawned p k) (hk : m.Active k) : m.Active p := by
  have hlinked := linked_of_reachable h
  induction hspawned with
  | single hspawned => exact active_of_spawned hlinked hspawned hk
  | tail _ hspawned ih => exact ih (active_of_spawned hlinked hspawned hk)

lemma keepsParents_of_ending (hending : m.ending e = none)
    (hspawn : e = .spawn → ∀ poll, m.top? = some poll →
      m.sched.currentTask = some poll.1 ∧ (m.sched.lookup poll.1).isSome) : m.KeepsParents e :=
  ⟨hspawn, fun _ _ _ _ => not_ends hending⟩

/-- A parent spawns a child and waits while the child is polled. -/
theorem structured_parent_waits :
    (exec {} [.spawn, .runStep [] [], .spawn, .pollReturn none [], .runStep [] []]).Active 0 := by
  refine structured_of_keepsParents (k := 1) (reach_exec _ _ ⟨?_, ?_, ?_, ?_, ?_, trivial⟩)
    (.single rfl) (.inr ⟨_, List.mem_cons_of_mem _ List.mem_cons_self, rfl⟩)
  · exact keepsParents_of_ending rfl fun _ poll hpoll => by cases hpoll
  · exact keepsParents_of_ending rfl fun he => by cases he
  · exact keepsParents_of_ending rfl fun _ poll hpoll => by cases hpoll; exact ⟨rfl, rfl⟩
  · exact keepsParents_of_ending rfl fun he => by cases he
  · exact keepsParents_of_ending rfl fun he => by cases he

/-- A task spawns a child and finishes in the same poll: the request is still queued, and the child
runs without its parent. -/
theorem orphan_of_same_poll : ¬ ∀ m p k, Reachable anyEvent m →
    Relation.TransGen m.Spawned p k → m.Active k → m.Active p := by
  intro h
  have horphan := h _ 0 1 (reachable_exec
    [.spawn, .runStep [] [], .spawn, .pollReturn (some (.ok ⟨0, {}⟩)) [], .runStep [] []])
    (.single rfl) (.inr ⟨_, List.mem_cons_self, rfl⟩)
  revert horphan
  simp only [Active]
  decide

end Machine

end AmlaSandbox.Scheduling
