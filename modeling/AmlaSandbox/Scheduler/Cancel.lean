import AmlaSandbox.Scheduler.Table
import Mathlib.Data.Finset.Card
import Mathlib.Logic.Relation

/-!
# Cancellation

`Below s root id` says that `id` is reached from `root` through the children lists. Cancelling or
completing a task removes exactly the tasks below it: the recursion is followed by the number of
tasks that still have children, which each level of it decreases.
-/

namespace AmlaSandbox.Scheduling

open Library

namespace Scheduler

variable {s s' s'' : Scheduler} {i j k : Nat} {id root : TaskId} {t t' : Task}
  {P : TaskId → Prop}

/-- `b` is in the children list of the task `a`. -/
def Child (s : Scheduler) (a b : TaskId) : Prop := ∃ t, s.lookup a = some t ∧ b ∈ t.children

/-- `id` is `root` or one of its descendants. -/
def Below (s : Scheduler) (root id : TaskId) : Prop := Relation.ReflTransGen s.Child root id

/-- A set of ids that contains the children of its members. -/
def ClosedUnder (P : TaskId → Prop) (s : Scheduler) : Prop := ∀ a b, P a → s.Child a b → P b

lemma closedUnder_below : ClosedUnder (s.Below root) s := fun _ _ ha hab => ha.tail hab

/-! ### What a sweep does -/

/-- A sweep through a set of tasks removes some of them, with all their children, marks the
completion slots of those it removes, and leaves every other entry as it is. -/
structure Swept (P : TaskId → Prop) (s s' : Scheduler) : Prop extends Keeps s s' where
  entry : ∀ i, s'.task? i = s.task? i ∨ s'.task? i = none ∧ P (s.keyAt i)
  closed : ∀ i t, s.task? i = some t → s'.task? i = none → ∀ c ∈ t.children, s'.lookup c = none
  slot : ∀ k, s'.slot? k = s.slot? k ∨ ∃ i t, s.task? i = some t ∧ t.slot = k ∧ P (s.keyAt i) ∧
    s'.task? i = none ∧ s'.slot? k = (s.slot? k).map TaskSlot.cancel

lemma cancel_cancel (slot : TaskSlot) : slot.cancel.cancel = slot.cancel := by
  cases h : slot.result <;> simp [TaskSlot.cancel, h]

lemma map_cancel_cancel (o : Option TaskSlot) :
    (o.map TaskSlot.cancel).map TaskSlot.cancel = o.map TaskSlot.cancel := by
  cases o <;> simp [cancel_cancel]

namespace Swept

lemma refl (s : Scheduler) : Swept P s s :=
  ⟨Keeps.refl s, fun _ => .inl rfl, fun i t ht hnone => by simp [ht] at hnone, fun _ => .inl rfl⟩

/-- What is left is what was there. -/
lemma task?_eq (h : Swept P s s') (ht : s'.task? i = some t) : s.task? i = some t := by
  rcases h.entry i with hi | ⟨hi, _⟩
  · rw [← hi, ht]
  · rw [hi] at ht
    cases ht

lemma task?_eq_none (h : Swept P s s') (hi : s.task? i = none) : s'.task? i = none := by
  rcases h.entry i with hi' | ⟨hi', _⟩
  · rw [hi', hi]
  · exact hi'

lemma trans (h : Swept P s s') (h' : Swept P s' s'') : Swept P s s'' where
  toKeeps := h.toKeeps.trans h'.toKeeps
  entry i := by
    rcases h'.entry i with hi' | ⟨hi', hP⟩
    · rcases h.entry i with hi | ⟨hi, hP⟩
      · exact .inl (hi'.trans hi)
      · exact .inr ⟨hi'.trans hi, hP⟩
    · exact .inr ⟨hi', h.keyAt i ▸ hP⟩
  closed i t ht hnone c hc := by
    rcases h.entry i with hi | ⟨hi, _⟩
    · exact h'.closed i t (hi.trans ht) hnone c hc
    · exact h'.lookup_eq_none (h.closed i t ht hi c hc)
  slot k := by
    rcases h'.slot k with hk' | ⟨i, t, ht, hslot, hP, hnone, hk'⟩
    · rcases h.slot k with hk | ⟨i, t, ht, hslot, hP, hnone, hk⟩
      · exact .inl (hk'.trans hk)
      · exact .inr ⟨i, t, ht, hslot, hP, h'.task?_eq_none hnone, hk'.trans hk⟩
    · refine .inr ⟨i, t, h.task?_eq ht, hslot, h.keyAt i ▸ hP, hnone, ?_⟩
      rcases h.slot k with hk | ⟨_, _, _, _, _, _, hk⟩
      · rw [hk', hk]
      · rw [hk', hk, map_cancel_cancel]

lemma closedUnder (h : Swept P s s') (hP : ClosedUnder P s) : ClosedUnder P s' := by
  rintro a b ha ⟨t, ht, hb⟩
  obtain ⟨htask, hkey⟩ := lookup_eq_some.mp ht
  have hlook : s.lookup a = some t :=
    lookup_eq_some.mpr ⟨h.task?_eq htask, hkey.trans (h.keyAt _)⟩
  exact hP a b ha ⟨t, hlook, hb⟩

end Swept

/-! ### The recursion -/

/-- The slots whose task still has children. -/
def parentSlots (s : Scheduler) : Finset Nat :=
  (Finset.range s.tasks.length).filter fun i => (s.task? i).any fun t => !t.children.isEmpty

lemma mem_parentSlots :
    i ∈ s.parentSlots ↔ ∃ t, s.task? i = some t ∧ t.children ≠ [] := by
  simp only [parentSlots, Finset.mem_filter, Finset.mem_range, Option.any_eq_true,
    Bool.not_eq_true', List.isEmpty_eq_false_iff]
  exact ⟨fun h => h.2, fun ⟨t, ht, hne⟩ => ⟨GenTable.lt_of_get? ht, t, ht, hne⟩⟩

lemma card_parentSlots_le : s.parentSlots.card ≤ s.tasks.length :=
  (Finset.card_filter_le _ _).trans (Finset.card_range _).le

lemma Swept.card_parentSlots_le (h : Swept P s s') :
    s'.parentSlots.card ≤ s.parentSlots.card := by
  apply Finset.card_le_card
  intro i hi
  obtain ⟨t, ht, hne⟩ := mem_parentSlots.mp hi
  exact mem_parentSlots.mpr ⟨t, h.task?_eq ht, hne⟩

lemma task?_markCancelled :
    (s.markCancelled id t).task? j =
      if j = id.slot then (s.task? j).map fun t => { t with children := [] } else s.task? j :=
  task?_modifyTask _

lemma slot?_markCancelled :
    (s.markCancelled id t).slot? k =
      if k = t.slot then (s.slot? k).map TaskSlot.cancel else s.slot? k :=
  slot?_modifySlot _

lemma keeps_markCancelled : Keeps s (s.markCancelled id t) := by
  have hslot : Keeps s (s.modifySlot t.slot TaskSlot.cancel) := Keeps.modifySlot fun _ => rfl
  exact hslot.trans (Keeps.modifyTask fun _ => rfl)

/-- Taking the children of a task that has some leaves fewer tasks with children. -/
lemma card_parentSlots_markCancelled (ht : s.lookup id = some t) (hne : t.children ≠ []) :
    (s.markCancelled id t).parentSlots.card < s.parentSlots.card := by
  obtain ⟨htask, _⟩ := lookup_eq_some.mp ht
  apply Finset.card_lt_card
  constructor
  · intro i hi
    obtain ⟨t', ht', hne'⟩ := mem_parentSlots.mp hi
    rw [task?_markCancelled] at ht'
    split_ifs at ht' with hslot
    · obtain ⟨t'', _, rfl⟩ := Option.map_eq_some_iff.mp ht'
      simp at hne'
    · exact mem_parentSlots.mpr ⟨t', ht', hne'⟩
  · intro hsub
    obtain ⟨t', ht', hne'⟩ := mem_parentSlots.mp (hsub (mem_parentSlots.mpr ⟨t, htask, hne⟩))
    rw [task?_markCancelled, if_pos rfl, htask] at ht'
    obtain rfl : _ = t' := Option.some.inj ht'
    simp at hne'

lemma closedUnder_markCancelled (hP : ClosedUnder P s) : ClosedUnder P (s.markCancelled id t) := by
  rintro a b ha ⟨t', ht', hb⟩
  obtain ⟨htask, hkey⟩ := lookup_eq_some.mp ht'
  rw [task?_markCancelled] at htask
  split_ifs at htask
  · obtain ⟨t'', _, rfl⟩ := Option.map_eq_some_iff.mp htask
    simp at hb
  · exact hP a b ha ⟨t', lookup_eq_some.mpr ⟨htask, hkey⟩, hb⟩

/-- A loop of sweeps over a list of ids is a sweep that removes them all. -/
lemma foldl_swept {f : Scheduler → TaskId → Scheduler} {n : Nat}
    (hf : ∀ s id, ClosedUnder P s → P id → s.parentSlots.card < n →
      Swept P s (f s id) ∧ (f s id).lookup id = none) (ids : List TaskId) (s : Scheduler)
    (hP : ClosedUnder P s) (hids : ∀ id ∈ ids, P id) (hn : ids ≠ [] → s.parentSlots.card < n) :
    Swept P s (ids.foldl f s) ∧ ∀ id ∈ ids, (ids.foldl f s).lookup id = none := by
  induction ids generalizing s with
  | nil => exact ⟨Swept.refl s, by simp⟩
  | cons id ids ih =>
    have hcard := hn (List.cons_ne_nil id ids)
    obtain ⟨hswept, hgone⟩ := hf s id hP (hids id List.mem_cons_self) hcard
    obtain ⟨hswept', hgone'⟩ := ih (f s id) (hswept.closedUnder hP)
      (fun c hc => hids c (List.mem_cons_of_mem id hc))
      fun _ => hswept.card_parentSlots_le.trans_lt hcard
    refine ⟨hswept.trans hswept', ?_⟩
    intro c hc
    rcases List.mem_cons.mp hc with rfl | hc
    · exact hswept'.lookup_eq_none hgone
    · exact hgone' c hc

/-- A task whose children were swept from its marked state is swept once its slot is freed. -/
lemma swept_of_markCancelled (ht : s.lookup id = some t) (hid : P id)
    (hswept : Swept P (s.markCancelled id t) s')
    (hgone : ∀ c ∈ t.children, s'.lookup c = none) (w : Option Waker) :
    Swept P s ((s'.freeTask id.slot).wakeTaken w) := by
  obtain ⟨htask, hkey⟩ := lookup_eq_some.mp ht
  have hkeeps : Keeps s' ((s'.freeTask id.slot).wakeTaken w) :=
    Keeps.freeTask.trans (Keeps.wakeTaken _)
  have hentry : ∀ j, ((s'.freeTask id.slot).wakeTaken w).task? j =
      if j = id.slot then none else s'.task? j := by
    intro j
    rw [(same_wakeTaken w).task?, task?_freeTask]
  have hmark : ∀ j, j ≠ id.slot → (s.markCancelled id t).task? j = s.task? j := by
    intro j hj
    rw [task?_markCancelled, if_neg hj]
  refine ⟨(keeps_markCancelled.trans hswept.toKeeps).trans hkeeps, ?_, ?_, ?_⟩
  · intro j
    rw [hentry]
    split_ifs with hj
    · exact .inr ⟨rfl, by rw [hj, ← hkey]; exact hid⟩
    · rw [← hmark j hj]
      exact hswept.entry j
  · intro j u hu hnone c hc
    apply hkeeps.lookup_eq_none
    rw [hentry] at hnone
    split_ifs at hnone with hj
    · obtain rfl : t = u := by
        rw [hj, htask] at hu
        exact Option.some.inj hu
      exact hgone c hc
    · exact hswept.closed j u ((hmark j hj).trans hu) hnone c hc
  · intro k
    rw [(same_wakeTaken w).slot?, slot?_freeTask]
    by_cases hk : k = t.slot
    · subst hk
      refine .inr ⟨id.slot, t, htask, rfl, hkey ▸ hid, by rw [hentry, if_pos rfl], ?_⟩
      rcases hswept.slot t.slot with hslot | ⟨_, _, _, _, _, _, hslot⟩
      · rw [hslot, slot?_markCancelled, if_pos rfl]
      · rw [hslot, slot?_markCancelled, if_pos rfl, map_cancel_cancel]
    · have hslot := hswept.slot k
      rw [slot?_markCancelled, if_neg hk] at hslot
      apply hslot.imp_right
      rintro ⟨j, u, hu, rfl, hPj, hnone, hslot⟩
      have hj : j ≠ id.slot := by
        rintro rfl
        rw [task?_markCancelled, if_pos rfl, htask] at hu
        exact hk (by rw [← Option.some.inj hu])
      exact ⟨j, u, (hmark j hj) ▸ hu, rfl, hPj, by rw [hentry, if_neg hj, hnone], hslot⟩

lemma lookup_freeTask : (s.freeTask id.slot).lookup id = none := by
  by_contra hne
  obtain ⟨t, ht⟩ := Option.ne_none_iff_exists'.mp hne
  have hsome := (lookup_eq_some.mp ht).1
  rw [task?_freeTask, if_pos rfl] at hsome
  cases hsome

/-- The recursion sweeps through every closed set that contains its root, as long as the bound on
its depth exceeds the number of tasks with children. -/
lemma cancelAux_swept (fuel : Nat) (id : TaskId) (s : Scheduler) (hP : ClosedUnder P s) (hid : P id)
    (hfuel : s.parentSlots.card < fuel) :
    Swept P s (cancelAux fuel id s) ∧ (cancelAux fuel id s).lookup id = none := by
  induction fuel generalizing id s with
  | zero => exact absurd hfuel (Nat.not_lt_zero _)
  | succ fuel ih =>
    rw [cancelAux]
    cases ht : s.lookup id with
    | none => exact ⟨Swept.refl s, ht⟩
    | some task =>
      -- the children are swept from the marked state, where the task has none left
      obtain ⟨hswept, hgone⟩ := foldl_swept (fun s id hP hid hn => ih id s hP hid hn)
        task.children (s.markCancelled id task) (closedUnder_markCancelled hP)
        (fun c hc => hP id c hid ⟨task, ht, hc⟩)
        fun hne => Nat.lt_of_lt_of_le (card_parentSlots_markCancelled ht hne)
          (Nat.le_of_lt_succ hfuel)
      exact ⟨swept_of_markCancelled ht hid hswept hgone _,
        (Keeps.wakeTaken _).lookup_eq_none lookup_freeTask⟩

/-! ### The bound on the depth -/

lemma foldl_congr_of_card {f g : Scheduler → TaskId → Scheduler} {n : Nat}
    (hfg : ∀ s id, s.parentSlots.card < n → f s id = g s id)
    (hf : ∀ s id, s.parentSlots.card < n → (f s id).parentSlots.card ≤ s.parentSlots.card)
    (ids : List TaskId) (s : Scheduler) (hn : ids ≠ [] → s.parentSlots.card < n) :
    ids.foldl f s = ids.foldl g s := by
  induction ids generalizing s with
  | nil => rfl
  | cons id ids ih =>
    have hcard := hn (List.cons_ne_nil id ids)
    rw [List.foldl_cons, List.foldl_cons, ← hfg s id hcard]
    exact ih (f s id) fun _ => (hf s id hcard).trans_lt hcard

lemma card_parentSlots_cancelAux {fuel : Nat} (hfuel : s.parentSlots.card < fuel) :
    (cancelAux fuel id s).parentSlots.card ≤ s.parentSlots.card :=
  (cancelAux_swept (P := fun _ => True) fuel id s (fun _ _ _ _ => trivial) trivial
    hfuel).1.card_parentSlots_le

/-- The bound does not matter once it exceeds the number of tasks with children. -/
lemma cancelAux_congr (fuel fuel' : Nat) (id : TaskId) (s : Scheduler)
    (hfuel : s.parentSlots.card < fuel) (hfuel' : s.parentSlots.card < fuel') :
    cancelAux fuel id s = cancelAux fuel' id s := by
  induction fuel generalizing fuel' id s with
  | zero => exact absurd hfuel (Nat.not_lt_zero _)
  | succ fuel ih =>
    obtain ⟨fuel', rfl⟩ := Nat.exists_eq_succ_of_ne_zero (Nat.ne_zero_of_lt hfuel')
    rw [cancelAux, cancelAux]
    cases ht : s.lookup id with
    | none => rfl
    | some task =>
      have hle := Nat.le_of_lt_succ hfuel
      have hle' := Nat.le_of_lt_succ hfuel'
      have hfold := foldl_congr_of_card (n := s.parentSlots.card)
        (fun s' id' hn => ih fuel' id' s' (hn.trans_le hle) (hn.trans_le hle'))
        (fun s' id' hn => card_parentSlots_cancelAux (hn.trans_le hle))
        task.children (s.markCancelled id task) fun hne => card_parentSlots_markCancelled ht hne
      dsimp only
      rw [hfold]

/-- `cancel_task_internal` as it is written: the bound on the depth is never reached. -/
theorem cancelTaskInternal_eq (s : Scheduler) (id : TaskId) :
    s.cancelTaskInternal id =
      match s.lookup id with
      | none => s
      | some task =>
        ((task.children.foldl cancelTaskInternal (s.markCancelled id task)).freeTask
          id.slot).wakeTaken (s.takenWaker task.slot) := by
  rw [cancelTaskInternal, cancelAux]
  cases ht : s.lookup id with
  | none => rfl
  | some task =>
    have hle := card_parentSlots_le (s := s)
    have hfold := foldl_congr_of_card (n := s.parentSlots.card) (g := cancelTaskInternal)
      (fun s' id' hn => cancelAux_congr _ _ id' s' (hn.trans_le hle)
        (Nat.lt_succ_of_le card_parentSlots_le))
      (fun s' id' hn => card_parentSlots_cancelAux (hn.trans_le hle))
      task.children (s.markCancelled id task) fun hne => card_parentSlots_markCancelled ht hne
    dsimp only
    rw [hfold]

theorem cancelTaskInternal_swept (s : Scheduler) (hP : ClosedUnder P s) (hid : P id) :
    Swept P s (s.cancelTaskInternal id) ∧ (s.cancelTaskInternal id).lookup id = none :=
  cancelAux_swept _ id s hP hid (Nat.lt_succ_of_le card_parentSlots_le)

end Scheduler

end AmlaSandbox.Scheduling
