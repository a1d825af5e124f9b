import AmlaSandbox.Library.ParentTree
import AmlaSandbox.Scheduler.Lineage
import Mathlib.Data.List.ReduceOption

/-!
# The root of a task

The root of a task is stored in the task and also found by a walk over the parents. The walk goes
through a bounded number of tasks.
-/

namespace AmlaSandbox.Scheduling

open Library Scheduler

variable {m : Machine} {s : Scheduler} {id root : TaskId} {t : Task} {n : Nat}

namespace Scheduler

/-! ### The walk -/

/-- Maximum depth when traversing the task parent chain in `rootTask`. -/
def rootTaskMaxDepth : Nat := 100

/-- The loop of `root_task` with the number of turns that are left. -/
def rootWalk (s : Scheduler) : Nat → TaskId → Option TaskId
  | 0, _ => none
  | depth + 1, current =>
    if s.tasks.length ≤ current.slot then none
    else if s.gen current.slot ≠ current.generation then none
    else
      match s.task? current.slot with
      | none => none
      | some task =>
        match task.parent with
        | none => some current
        | some parentId => s.rootWalk depth parentId

/-- Find the root task, the top of the spawn chain, for a given task. -/
def rootTask (s : Scheduler) (id : TaskId) : Option TaskId := s.rootWalk rootTaskMaxDepth id

/-- The parent of the task of an id. -/
def parent? (s : Scheduler) (id : TaskId) : Option (Option TaskId) :=
  (s.lookup id).map (·.parent)

lemma parent?_eq_some {parent : Option TaskId} :
    s.parent? id = some parent ↔ ∃ t, s.lookup id = some t ∧ t.parent = parent :=
  Option.map_eq_some_iff

lemma isSome_parent? : (s.parent? id).isSome = (s.lookup id).isSome := Option.isSome_map

lemma rootWalk_eq_climb (depth : Nat) (id : TaskId) :
    s.rootWalk depth id = climb s.parent? depth id := by
  induction depth generalizing id with
  | zero => rfl
  | succ depth ih =>
    rw [rootWalk, climb]
    cases ht : s.lookup id with
    | none =>
      have hparent : s.parent? id = none := by rw [parent?, ht, Option.map_none]
      rw [hparent]
      split_ifs with hlen hgen
      · rfl
      · rfl
      · have hlookup : s.lookup id = s.task? id.slot := if_pos (not_not.mp hgen)
        rw [← hlookup, ht]
    | some t =>
      have hparent : s.parent? id = some t.parent := by rw [parent?, ht, Option.map_some]
      obtain ⟨htask, hkey⟩ := lookup_eq_some.mp ht
      have hlt : id.slot < s.tasks.length := GenTable.lt_of_get? htask
      have hgen : s.gen id.slot = id.generation := (congrArg Key.generation hkey).symm
      rw [if_neg (Nat.not_le.mpr hlt), if_neg (not_not.mpr hgen), htask, hparent]
      cases htop : t.parent with
      | none => simp [htop]
      | some parentId => simp [htop, ih]

/-! ### Walks in a scheduler where every task has its lineage -/

/-- The number of the spawn of the task of an id. -/
def spawnNumber (s : Scheduler) (id : TaskId) : Nat := (s.lookup id).elim 0 (·.slot)

/-- The root that the task of an id stores. -/
def storedRoot (s : Scheduler) (id : TaskId) : Option TaskId := (s.lookup id).bind (·.root)

namespace Lineage

variable {pending : List Task} {a b : TaskId}

/-- A parent in the table was spawned first and has the same root. -/
lemma parentOf (h : s.Lineage pending) (hab : ParentOf s.parent? a b)
    (hb : (s.parent? b).isSome) :
    s.spawnNumber b < s.spawnNumber a ∧ s.storedRoot b = s.storedRoot a := by
  obtain ⟨t, ht, hparent⟩ := parent?_eq_some.mp hab
  obtain ⟨u, hu⟩ := Option.isSome_iff_exists.mp (isSome_parent? ▸ hb)
  cases h.placed a t ht with
  | root hnone _ =>
    rw [hnone] at hparent
    cases hparent
  | child hsome hroot hleads =>
    obtain rfl := Option.some.inj (hsome.symm.trans hparent)
    obtain ⟨huroot, hlt⟩ := hleads.task u hu
    simp [spawnNumber, storedRoot, ht, hu, hlt, hroot, huroot]

/-- A walk ends at the stored root of the task where it began. -/
lemma root_of_ascends (h : s.Lineage pending) (hwalk : Ascends s.parent? id n root) :
    s.storedRoot id = some root := by
  rw [← hwalk.label_eq s.storedRoot fun a b hab hb => (h.parentOf hab hb).2]
  obtain ⟨t, ht, hparent⟩ := parent?_eq_some.mp hwalk.up_top
  cases h.placed root t ht with
  | root _ hroot => simp [storedRoot, ht, hroot]
  | child hsome _ _ =>
    rw [hparent] at hsome
    cases hsome

end Lineage

end Scheduler

namespace Machine

/-- The walk over the parents of a task whose ancestors are all in the table ends at the root that
the task stores. `rootTask` finds it if the walk goes through at most `rootTaskMaxDepth` tasks, and
gives up otherwise. -/
theorem rootTask_of_live_ancestors (h : Reachable anyEvent m) (ht : m.sched.lookup id = some t)
    (hlive : ∀ a, Relation.ReflTransGen (ParentOf m.sched.parent?) id a →
      (m.sched.lookup a).isSome) :
    ∃ n root, Ascends m.sched.parent? id n root ∧ t.root = some root ∧
      m.sched.rootTask id = if n ≤ rootTaskMaxDepth then some root else none := by
  have hlineage := (inherited_of_reachable h).lineage
  obtain ⟨n, root, hwalk⟩ := exists_ascends m.sched.spawnNumber
    (fun a b hab hb => (hlineage.parentOf hab hb).1)
    fun a ha => isSome_parent?.trans (hlive a ha)
  refine ⟨n, root, hwalk, ?_, ?_⟩
  · have hroot := hlineage.root_of_ascends hwalk
    rwa [storedRoot, ht] at hroot
  · rw [rootTask, rootWalk_eq_climb, hwalk.climb_eq]

/-- No task in the table has lost its parent. -/
def ParentsStay (s : Scheduler) : Prop :=
  ∀ t ∈ s.tasks.reduceOption, ∀ p ∈ t.parent, (s.lookup p).isSome

instance : Decidable (ParentsStay s) :=
  inferInstanceAs (Decidable (∀ t ∈ s.tasks.reduceOption, ∀ p ∈ t.parent, (s.lookup p).isSome))

lemma live_of_parentsStay (hs : ParentsStay s) (hid : (s.lookup id).isSome) (a : TaskId)
    (ha : Relation.ReflTransGen (ParentOf s.parent?) id a) : (s.lookup a).isSome := by
  induction ha with
  | refl => exact hid
  | tail _ hab ih =>
    obtain ⟨t, ht, hparent⟩ := parent?_eq_some.mp hab
    obtain ⟨htask, _⟩ := lookup_eq_some.mp ht
    have hmem := List.mem_of_getElem? (GenTable.get?_eq_some.mp htask)
    exact hs t (List.reduceOption_mem_iff.mpr hmem) _ hparent

/-- A task spawns a child, and each of them spawns one more when it is first polled. -/
def nestedSpawns (depth : Nat) : Machine :=
  exec {} ([.spawn, .runStep [] []] ++
    (List.replicate depth [.spawn, .pollReturn none [], .runStep [] []]).flatten)

theorem rootTask_of_nested_spawns :
    ∃ n root, Ascends (nestedSpawns 2).sched.parent? ⟨2, 0⟩ n root ∧ some ⟨0, 0⟩ = some root ∧
      (nestedSpawns 2).sched.rootTask ⟨2, 0⟩ =
        if n ≤ rootTaskMaxDepth then some root else none :=
  rootTask_of_live_ancestors (t := ⟨2, some ⟨1, 0⟩, some ⟨0, 0⟩, []⟩) (reachable_exec _)
    (by decide) (live_of_parentsStay (by decide) (by decide))

/-- The walk gives up below a hundred nested spawns. -/
theorem rootTask_gives_up : ¬ ∀ m id t, Reachable anyEvent m → m.sched.lookup id = some t →
    (∀ a, Relation.ReflTransGen (ParentOf m.sched.parent?) id a → (m.sched.lookup a).isSome) →
      m.sched.rootTask id = t.root := by
  intro h
  obtain ⟨hstay, hlookup, hnone⟩ : ParentsStay (nestedSpawns 100).sched ∧
      (nestedSpawns 100).sched.lookup ⟨100, 0⟩ =
        some ⟨100, some ⟨99, 0⟩, some ⟨0, 0⟩, []⟩ ∧
      (nestedSpawns 100).sched.rootTask ⟨100, 0⟩ = none := by
    decide +kernel
  have hroot := h (nestedSpawns 100) _ _ (reachable_exec _) hlookup
    (live_of_parentsStay hstay (by rw [hlookup, Option.isSome_some]))
  rw [hnone] at hroot
  cases hroot

end Machine

end AmlaSandbox.Scheduling
