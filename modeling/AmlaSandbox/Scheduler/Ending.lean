import AmlaSandbox.Scheduler.Cancel

/-!
# Tasks that end

A task ends when it is cancelled or when it completes. Both remove exactly the tasks below it and
leave the rest alone; they differ in what is written into the completion slot of the task itself.
-/

namespace AmlaSandbox.Scheduling

open Library

namespace Scheduler

variable {s s' s'' : Scheduler} {i j k : Nat} {id root : TaskId} {t t' : Task}
  {P : TaskId → Prop} {mark : TaskSlot → TaskSlot} {result : TaskResult}

/-- The task `root` has ended. What is below it is gone, every other task at most lost `root` from
its children, and no completion slot changed but those of the removed tasks. The slot of `root` is
changed by `mark`. -/
structure Ended (mark : TaskSlot → TaskSlot) (root : TaskId) (s s' : Scheduler) : Prop
    extends Keeps s s' where
  removed : ∀ id, s.Below root id → s'.lookup id = none
  survivor : ∀ i t, s.task? i = some t → ¬ s.Below root (s.keyAt i) →
    ∃ children, s'.task? i = some { t with children } ∧ ∀ c ∈ t.children, c ≠ root → c ∈ children
  slot : ∀ k, s'.slot? k = s.slot? k ∨
    ∃ i t, s.task? i = some t ∧ t.slot = k ∧ s.Below root (s.keyAt i) ∧
      (s'.slot? k = (s.slot? k).map TaskSlot.cancel ∨
        s.keyAt i = root ∧ s'.slot? k = (s.slot? k).map mark)

/-- What is below a task is gone once the task is, if children go with their parents. -/
lemma lookup_eq_none_of_below (hroot : s'.lookup root = none)
    (hchild : ∀ a b, s.Child a b → s'.lookup a = none → b ≠ root → s'.lookup b = none)
    (hid : s.Below root id) : s'.lookup id = none := by
  induction hid with
  | refl => exact hroot
  | @tail a b _ hab ih =>
    by_cases hne : b = root
    · subst hne
      exact hroot
    · exact hchild a b hab ih hne

lemma task?_eq_none_of_lookup (hgone : s.lookup (s.keyAt i) = none) : s.task? i = none := by
  rwa [lookup_keyAt] at hgone

/-! ### Unlinking from the parent -/

/-- Some tasks may have lost the child `root`. -/
structure Unlinked (root : TaskId) (s s' : Scheduler) : Prop extends Keeps s s' where
  entry : ∀ i t, s.task? i = some t → ∃ children, s'.task? i = some { t with children } ∧
    children ⊆ t.children ∧ ∀ c ∈ t.children, c ≠ root → c ∈ children
  slot : ∀ k, s'.slot? k = s.slot? k

namespace Unlinked

lemma refl (s : Scheduler) : Unlinked root s s :=
  ⟨Keeps.refl s, fun _ t ht => ⟨t.children, ht, fun _ hc => hc, fun _ hc _ => hc⟩, fun _ => rfl⟩

lemma dropChild : Unlinked root s (s.dropChild i root) where
  toKeeps := Keeps.modifyTask fun _ => rfl
  entry j t ht := by
    rw [Scheduler.dropChild, task?_modifyTask]
    split_ifs
    · exact ⟨_, by rw [ht]; rfl, List.filter_subset_self _, fun c hc hne => by simp [hc, hne]⟩
    · exact ⟨t.children, ht, fun _ hc => hc, fun _ hc _ => hc⟩
  slot _ := rfl

lemma unlink (parent : Option TaskId) : Unlinked root s (s.unlink parent root) := by
  cases parent with
  | none => exact refl s
  | some parentId => exact dropChild

lemma unlinkChecked (parent : Option TaskId) : Unlinked root s (s.unlinkChecked parent root) := by
  cases parent with
  | none => exact refl s
  | some parentId =>
    rw [Scheduler.unlinkChecked]
    split_ifs
    · exact dropChild
    · exact refl s

lemma child (h : Unlinked root s s') {a b : TaskId} (hab : s'.Child a b) : s.Child a b := by
  obtain ⟨t', ht', hb⟩ := hab
  obtain ⟨htask', hkey⟩ := lookup_eq_some.mp ht'
  obtain ⟨t, ht, _⟩ := h.task _ _ htask'
  obtain ⟨children, hentry, hsub, _⟩ := h.entry _ t ht
  obtain rfl : _ = t' := Option.some.inj (hentry.symm.trans htask')
  exact ⟨t, lookup_eq_some.mpr ⟨ht, hkey.trans (h.keyAt _)⟩, hsub hb⟩

lemma closedUnder (h : Unlinked root s s') (hP : ClosedUnder P s) : ClosedUnder P s' :=
  fun a b ha hab => hP a b ha (h.child hab)

end Unlinked

/-! ### Cancellation -/

/-- Unlinking a task from its parent and sweeping what is below it ends the task. -/
lemma ended_of_swept (hunlink : Unlinked root s s') (hswept : Swept (s.Below root) s' s'')
    (hgone : s''.lookup root = none) : Ended TaskSlot.cancel root s s'' where
  toKeeps := hunlink.toKeeps.trans hswept.toKeeps
  removed id := by
    apply lookup_eq_none_of_below hgone
    rintro a b ⟨t, ht, hb⟩ ha hne
    obtain ⟨htask, hkey⟩ := lookup_eq_some.mp ht
    obtain ⟨children, hentry, _, hkept⟩ := hunlink.entry _ t htask
    have hnone : s''.task? a.slot = none := by
      apply task?_eq_none_of_lookup
      rwa [hswept.keyAt, hunlink.keyAt, ← hkey]
    exact hswept.closed _ _ hentry hnone b (hkept b hb hne)
  survivor i t ht hbelow := by
    obtain ⟨children, hentry, _, hkept⟩ := hunlink.entry i t ht
    rcases hswept.entry i with hi | ⟨_, hP⟩
    · exact ⟨children, hi.trans hentry, hkept⟩
    · exact absurd (hunlink.keyAt i ▸ hP) hbelow
  slot k := by
    rcases hswept.slot k with hk | ⟨i, t', ht', hslot', hP, _, hk⟩
    · exact .inl (hk.trans (hunlink.slot k))
    · obtain ⟨t, ht, hslot⟩ := hunlink.task i t' ht'
      rw [hunlink.slot k] at hk
      exact .inr ⟨i, t, ht, hslot ▸ hslot', hunlink.keyAt i ▸ hP, .inl hk⟩

lemma Ended.of_same (h : Ended mark root s s') (hsame : Same s' s'') : Ended mark root s s'' where
  toKeeps := h.toKeeps.trans (Keeps.of_same hsame)
  removed id hid := hsame.lookup.trans (h.removed id hid)
  survivor i t ht hbelow := by
    obtain ⟨children, hentry, hkept⟩ := h.survivor i t ht hbelow
    exact ⟨children, hsame.task?.trans hentry, hkept⟩
  slot k := by
    rw [hsame.slot?]
    exact h.slot k

lemma Ended.of_same_left (hsame : Same s s') (h : Ended mark root s' s'') :
    Ended mark root s s'' := by
  have hbelow : s'.Below = s.Below := by
    unfold Below Child
    simp only [hsame.lookup]
  refine ⟨(Keeps.of_same hsame).trans h.toKeeps, ?_, ?_, ?_⟩
  · intro id hid
    exact h.removed id (hbelow ▸ hid)
  · intro i t ht hid
    exact h.survivor i t (hsame.task?.trans ht) (by rwa [hbelow, hsame.keyAt])
  · intro k
    have hslot := h.slot k
    simp only [hsame.slot?, hsame.task?, hsame.keyAt, hbelow] at hslot
    exact hslot

theorem cancelTask_ended (ht : s.lookup id = some t) :
    Ended TaskSlot.cancel id s (s.cancelTask id).1 := by
  rw [cancelTask, ht]
  have hunlink : Unlinked id s (s.unlink t.parent id) := Unlinked.unlink t.parent
  obtain ⟨hswept, hgone⟩ := cancelTaskInternal_swept _ (hunlink.closedUnder closedUnder_below)
    (Relation.ReflTransGen.refl (a := id))
  exact (ended_of_swept hunlink hswept hgone).of_same ⟨rfl, rfl, rfl⟩

lemma cancelTask_of_lookup_eq_none (h : s.lookup id = none) : (s.cancelTask id).1 = s := by
  rw [cancelTask, h]

/-! ### Completion -/

lemma map_cancel_finish (o : Option TaskSlot) :
    (o.map (TaskSlot.finish result)).map TaskSlot.cancel = o.map (TaskSlot.finish result) := by
  cases o <;> rfl

lemma slot?_modifySlot_finish : (s.modifySlot j (TaskSlot.finish result)).slot? k =
    if k = j then (s.slot? k).map (TaskSlot.finish result) else s.slot? k :=
  slot?_modifySlot _

/-- The completion slots after the children of a finished task are swept. -/
lemma slot?_of_finish (ht : s.task? i = some t)
    (hswept : Swept (s.Below (s.keyAt i)) (s.modifySlot t.slot (TaskSlot.finish result)) s')
    (k : Nat) : s'.slot? k = s.slot? k ∨
      ∃ j u, s.task? j = some u ∧ u.slot = k ∧ s.Below (s.keyAt i) (s.keyAt j) ∧
        (s'.slot? k = (s.slot? k).map TaskSlot.cancel ∨
          s.keyAt j = s.keyAt i ∧ s'.slot? k = (s.slot? k).map (TaskSlot.finish result)) := by
  have hslot := hswept.slot k
  rw [slot?_modifySlot_finish] at hslot
  by_cases hk : k = t.slot
  · refine .inr ⟨i, t, ht, hk.symm, Relation.ReflTransGen.refl, .inr ⟨rfl, ?_⟩⟩
    rw [if_pos hk] at hslot
    rcases hslot with hslot | ⟨_, _, _, _, _, _, hslot⟩
    · exact hslot
    · rw [hslot, map_cancel_finish]
  · rw [if_neg hk] at hslot
    apply hslot.imp_right
    rintro ⟨j, u, hu, huk, hP, _, hslot⟩
    exact ⟨j, u, hu, huk, hP, .inl hslot⟩

/-- Sweeping the children of a finished task, unlinking it and freeing its slot ends it. -/
lemma ended_of_finish (ht : s.task? i = some t)
    (hswept : Swept (s.Below (s.keyAt i)) (s.modifySlot t.slot (TaskSlot.finish result)) s')
    (hgone : ∀ c ∈ t.children, s'.lookup c = none) (hunlink : Unlinked (s.keyAt i) s' s'') :
    Ended (TaskSlot.finish result) (s.keyAt i) s (s''.freeTask i) := by
  have hmark : Keeps s (s.modifySlot t.slot (TaskSlot.finish result)) :=
    Keeps.modifySlot fun _ => rfl
  have hkeeps : Keeps s' (s''.freeTask i) := hunlink.toKeeps.trans Keeps.freeTask
  have hall : Keeps s (s''.freeTask i) := (hmark.trans hswept.toKeeps).trans hkeeps
  have hroot : (s''.freeTask i).lookup (s.keyAt i) = none := by
    rw [← hall.keyAt, lookup_keyAt, task?_freeTask, if_pos rfl]
  refine ⟨hall, fun id => lookup_eq_none_of_below hroot ?_, ?_, ?_⟩
  · rintro a b ⟨u, hu, hb⟩ ha hne
    obtain ⟨htask, hkey⟩ := lookup_eq_some.mp hu
    by_cases hi : a.slot = i
    · obtain rfl : t = u := Option.some.inj (ht.symm.trans (hi ▸ htask))
      exact hkeeps.lookup_eq_none (hgone b hb)
    · -- the task left the table during the sweep, since nothing after it touches its slot
      rcases hswept.entry a.slot with hentry | ⟨hnone, _⟩
      · obtain ⟨_, hkept, _⟩ := hunlink.entry _ u (hentry.trans htask)
        rw [hkey, ← hall.keyAt, lookup_keyAt, task?_freeTask, if_neg hi, hkept] at ha
        cases ha
      · exact hkeeps.lookup_eq_none (hswept.closed _ u htask hnone b hb)
  · intro j u hu hbelow
    have hj : j ≠ i := by
      rintro rfl
      exact hbelow Relation.ReflTransGen.refl
    rcases hswept.entry j with hentry | ⟨_, hP⟩
    · obtain ⟨children, hkept, _, hmem⟩ := hunlink.entry j u (hentry.trans hu)
      exact ⟨children, by rw [task?_freeTask, if_neg hj, hkept], hmem⟩
    · exact absurd (hmark.keyAt j ▸ hP) hbelow
  · intro k
    rw [slot?_freeTask, hunlink.slot k]
    exact slot?_of_finish ht hswept k

theorem completeTask_ended (result : TaskResult) (ht : s.task? i = some t) :
    Ended (TaskSlot.finish result) (s.keyAt i) s (s.completeTask i result) := by
  rw [completeTask, ht]
  have hmark : Keeps s (s.modifySlot t.slot (TaskSlot.finish result)) :=
    Keeps.modifySlot fun _ => rfl
  have hclosed : ClosedUnder (s.Below (s.keyAt i))
      (s.modifySlot t.slot (TaskSlot.finish result)) := closedUnder_below
  obtain ⟨hswept, hgone⟩ := foldl_swept (fun s id hP hid _ => cancelTaskInternal_swept s hP hid)
    t.children (s.modifySlot t.slot (TaskSlot.finish result)) hclosed
    (fun c hc => .single ⟨t, lookup_keyAt.trans ht, hc⟩) fun _ => Nat.lt_succ_self _
  have hkey := (hmark.trans hswept.toKeeps).keyAt i
  dsimp only
  generalize t.children.foldl cancelTaskInternal _ = swept at hswept hgone hkey ⊢
  rw [hkey]
  exact (ended_of_finish ht hswept hgone (Unlinked.unlinkChecked t.parent)).of_same
    (same_wakeTaken _)

end Scheduler

end AmlaSandbox.Scheduling
