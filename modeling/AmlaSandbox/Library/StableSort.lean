import Mathlib.Data.List.Sort

/-!
# Stable sorting

A stable sort by a comparison that need not tell all elements apart, and what is left of a list when
each element that is equal to the one before is dropped.
-/

namespace AmlaSandbox.Library

variable {α : Type}

/-! ### Stable sorts -/

/-- `ys` is a stable sort of `xs`: elements that compare equal stay in order. -/
structure IsStableSort (cmp : α → α → Ordering) (xs ys : List α) : Prop where
  perm : ys.Perm xs
  sorted : ys.Pairwise fun a b => (cmp a b).isLE
  stable : ∀ a, ys.filter (fun b => cmp a b = .eq) = xs.filter fun b => cmp a b = .eq

/-- The stable sort by a comparison. -/
def sortBy (cmp : α → α → Ordering) (xs : List α) : List α := xs.mergeSort fun a b => (cmp a b).isLE

variable {cmp : α → α → Ordering} [Std.TransCmp cmp] {xs ys : List α}

lemma isLE_total (a b : α) : ((cmp a b).isLE || (cmp b a).isLE) = true := by
  have hswap : cmp b a = (cmp a b).swap := Std.OrientedCmp.eq_swap
  rw [hswap]
  cases cmp a b <;> rfl

theorem isStableSort_sortBy (xs : List α) : IsStableSort cmp xs (sortBy cmp xs) := by
  have hperm : (sortBy cmp xs).Perm xs := List.mergeSort_perm ..
  refine ⟨hperm, List.pairwise_mergeSort (fun _ _ _ => Std.TransCmp.isLE_trans) isLE_total _, ?_⟩
  intro a
  -- the elements of a class are sorted in any order, so the sort keeps theirs
  have hclass : (xs.filter fun b => cmp a b = .eq).Pairwise fun b c => (cmp b c).isLE := by
    refine List.pairwise_of_forall_mem_list fun b hb c hc => ?_
    have hb : cmp a b = .eq := of_decide_eq_true (List.mem_filter.mp hb).2
    have hc : cmp a c = .eq := of_decide_eq_true (List.mem_filter.mp hc).2
    rw [Std.TransCmp.eq_trans (Std.OrientedCmp.eq_symm hb) hc]
    rfl
  have hsub : (xs.filter fun b => cmp a b = .eq).Sublist (sortBy cmp xs) :=
    List.sublist_mergeSort (fun _ _ _ => Std.TransCmp.isLE_trans) isLE_total hclass
      List.filter_sublist
  have hsub' := hsub.filter fun b => cmp a b = .eq
  rw [List.filter_filter] at hsub'
  simp only [Bool.and_self] at hsub'
  exact (hsub'.eq_of_length (hperm.filter _).length_eq.symm).symm

omit [Std.TransCmp cmp] in
/-- Elements that compare equal form the same sublists before and after. -/
lemma IsStableSort.sublist_iff (h : IsStableSort cmp xs ys) {a : α} {zs : List α}
    (hzs : ∀ b ∈ zs, cmp a b = .eq) : zs.Sublist ys ↔ zs.Sublist xs := by
  have hfilter (ws : List α) :
      zs.Sublist ws ↔ zs.Sublist (ws.filter fun b => cmp a b = .eq) := by
    constructor
    · intro hsub
      have hsub' := hsub.filter fun b => cmp a b = .eq
      rwa [List.filter_eq_self.mpr fun b hb => decide_eq_true (hzs b hb)] at hsub'
    · exact fun hsub => hsub.trans List.filter_sublist
  rw [hfilter ys, hfilter xs, h.stable a]

/-- What stands between equal elements of a sorted list compares equal to them. -/
lemma IsStableSort.eq_of_between (h : IsStableSort cmp xs ys) {a b : α}
    (hsub : [a, b, a].Sublist ys) : cmp a b = .eq := by
  have hpair := h.sorted.sublist hsub
  obtain ⟨hfront, hback⟩ := List.pairwise_cons.mp hpair
  have hab := hfront b (by simp)
  have hba := List.pairwise_pair.mp hback
  have hswap : cmp b a = (cmp a b).swap := Std.OrientedCmp.eq_swap
  rw [hswap] at hba
  revert hab hba
  cases cmp a b <;> decide

/-! ### Repeated elements -/

/-- No element comes back behind another one. -/
def NoReturn (xs : List α) : Prop := ∀ a b, a ≠ b → ¬ [a, b, a].Sublist xs

/-- In a stable sort an element comes back only where it does so among those that compare equal. -/
theorem IsStableSort.noReturn_iff (h : IsStableSort cmp xs ys) :
    NoReturn ys ↔ ∀ a b, a ≠ b → cmp a b = .eq → ¬ [a, b, a].Sublist xs := by
  have hself (a : α) : cmp a a = .eq := Std.ReflCmp.compare_self
  have hclass {a b : α} (heq : cmp a b = .eq) : ∀ c ∈ [a, b, a], cmp a c = .eq := by
    simp [heq, hself]
  constructor
  · exact fun hreturn a b hab heq hsub => hreturn a b hab ((h.sublist_iff (hclass heq)).mpr hsub)
  · intro hreturn a b hab hsub
    have heq := h.eq_of_between hsub
    exact hreturn a b hab heq ((h.sublist_iff (hclass heq)).mp hsub)

lemma noReturn_cons_self {p : α} : NoReturn (p :: p :: xs) ↔ NoReturn (p :: xs) := by
  refine forall_congr' fun a => forall_congr' fun b => imp_congr_right fun hab => not_congr ?_
  constructor
  · intro hsub
    cases hsub with
    | cons _ hsub => exact hsub
    | cons_cons _ hsub =>
      cases hsub with
      | cons _ hsub => exact hsub.cons_cons _
      | cons_cons _ _ => exact absurd rfl hab
  · exact fun hsub => hsub.cons p

lemma noReturn_cons_of_ne {p x : α} (h : p ≠ x) :
    NoReturn (p :: x :: xs) ↔ p ∉ x :: xs ∧ NoReturn (x :: xs) := by
  constructor
  · intro hreturn
    refine ⟨fun hmem => ?_, fun a b hab hsub => hreturn a b hab (hsub.cons p)⟩
    have hmem : p ∈ xs := (List.mem_cons.mp hmem).resolve_left h
    exact hreturn p x h (((List.singleton_sublist.mpr hmem).cons_cons x).cons_cons p)
  · rintro ⟨hmem, hreturn⟩ a b hab hsub
    cases hsub with
    | cons _ hsub => exact hreturn a b hab hsub
    | cons_cons _ hsub => exact hmem (hsub.subset (by simp))

variable [DecidableEq α]

/-- The elements without those that are equal to the one before; `prev` is the one before all. -/
def dropRepeats : Option α → List α → List α
  | _, [] => []
  | prev, x :: xs => if prev = some x then dropRepeats prev xs else x :: dropRepeats (some x) xs

lemma mem_cons_dropRepeats {a p : α} :
    a ∈ p :: dropRepeats (some p) xs ↔ a ∈ p :: xs := by
  induction xs generalizing p with
  | nil => rfl
  | cons x xs ih =>
    rw [dropRepeats]
    split_ifs with heq
    · obtain rfl := Option.some.inj heq
      rw [ih]
      simp
    · rw [List.mem_cons, ih, ← List.mem_cons]

lemma nodup_cons_dropRepeats {p : α} :
    (p :: dropRepeats (some p) xs).Nodup ↔ NoReturn (p :: xs) := by
  induction xs generalizing p with
  | nil =>
    refine iff_of_true (List.nodup_singleton p) fun a b _ hsub => ?_
    simpa using hsub.length_le
  | cons x xs ih =>
    rw [dropRepeats]
    split_ifs with heq
    · obtain rfl := Option.some.inj heq
      rw [ih, noReturn_cons_self]
    · have hne : p ≠ x := fun h => heq (congrArg some h)
      rw [List.nodup_cons, mem_cons_dropRepeats, ih, noReturn_cons_of_ne hne]

/-- Each element is left once if, and only if, none comes back. -/
theorem nodup_dropRepeats : (dropRepeats none xs).Nodup ↔ NoReturn xs := by
  cases xs with
  | nil =>
    refine iff_of_true List.nodup_nil fun a b _ hsub => ?_
    simpa using hsub.length_le
  | cons x xs => exact nodup_cons_dropRepeats

lemma mem_dropRepeats {a : α} : a ∈ dropRepeats none xs ↔ a ∈ xs := by
  cases xs with
  | nil => rfl
  | cons x xs => exact mem_cons_dropRepeats

end AmlaSandbox.Library
