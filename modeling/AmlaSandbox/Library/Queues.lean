import Mathlib.Data.List.Basic
import Mathlib.Data.List.Nodup
import Mathlib.Data.List.Perm.Basic
import Mathlib.Tactic.Common

/-!
# Queues

First in, first out, with a bound on what is stored. A move takes in what fits and gives out from
the front; over any number of moves, what came in is what went out followed by what is stored.

The order of last uses in a record of uses, and lists that are kept in this order.

A priority queue, by what its operations do to the elements that it holds. In which order elements
with equal keys leave it is left open.
-/

namespace AmlaSandbox.Library

/-! ## Bounded queues -/

structure BoundedQueue (α : Type*) where
  capacity : ℕ
  queue : List α
  fits : queue.length ≤ capacity

namespace BoundedQueue

variable {α : Type*}

def empty (capacity : ℕ) : BoundedQueue α := ⟨capacity, [], Nat.zero_le _⟩

variable (q : BoundedQueue α)

def room : ℕ := q.capacity - q.queue.length

/-- Append what fits. -/
def put (data : List α) : BoundedQueue α where
  capacity := q.capacity
  queue := q.queue ++ data.take q.room
  fits := by
    have := q.fits
    simp [room]
    omega

/-- Remove the first `n` items. -/
def get (n : ℕ) : BoundedQueue α where
  capacity := q.capacity
  queue := q.queue.drop n
  fits := by
    have := q.fits
    simp
    omega

/-- `Move q inp out q'`: some operations lead from `q` to `q'`, taking in `inp` and giving out
`out`. -/
inductive Move : BoundedQueue α → List α → List α → BoundedQueue α → Prop
  | idle (q : BoundedQueue α) : Move q [] [] q
  | put (q : BoundedQueue α) (data : List α) : Move q (data.take q.room) [] (q.put data)
  | get (q : BoundedQueue α) (n : ℕ) : Move q [] (q.queue.take n) (q.get n)
  | trans {q q' q'' inp inp' out out'} : Move q inp out q' → Move q' inp' out' q'' →
      Move q (inp ++ inp') (out ++ out') q''

namespace Move

variable {q q' : BoundedQueue α} {inp out : List α}

lemma conserve (h : Move q inp out q') : q.queue ++ inp = out ++ q'.queue := by
  induction h with
  | idle q => simp
  | put q data => rfl
  | get q n => simp [BoundedQueue.get]
  | trans _ _ ih ih' => rw [← List.append_assoc, ih, List.append_assoc, ih', List.append_assoc]

lemma capacity_eq (h : Move q inp out q') : q'.capacity = q.capacity := by
  induction h with
  | idle q => rfl
  | put q data => rfl
  | get q n => rfl
  | trans _ _ ih ih' => exact ih'.trans ih

/-- What an empty queue gave out is a prefix of what it took in, and the rest is stored. -/
lemma prefix_of_empty {capacity : ℕ} (h : Move (empty capacity) inp out q') :
    out <+: inp ∧ inp.drop out.length = q'.queue := by
  have hconserve : inp = out ++ q'.queue := h.conserve
  rw [hconserve]
  exact ⟨List.prefix_append _ _, List.drop_left⟩

end Move

end BoundedQueue

/-! ## Recency -/

section

variable {α : Type*}

/-- The last use of `a` comes before the last use of `b`. -/
def UsedBefore (uses : List α) (a b : α) : Prop :=
  ∃ earlier later, uses = earlier ++ a :: later ∧ a ∉ later ∧ b ∈ later

/-- What is listed was used, and is listed in the order of its last uses. -/
structure ByRecency (uses order : List α) : Prop where
  used : ∀ a ∈ order, a ∈ uses
  sorted : order.Pairwise (UsedBefore uses)

variable {uses order order' : List α} {a b c : α}

lemma UsedBefore.ne (h : UsedBefore uses a b) : a ≠ b := by
  obtain ⟨_, later, _, hnot, hmem⟩ := h
  rintro rfl
  exact hnot hmem

/-- A use of something else does not change the order of two last uses. -/
lemma UsedBefore.concat (h : UsedBefore uses a b) (hc : a ≠ c) :
    UsedBefore (uses ++ [c]) a b := by
  obtain ⟨earlier, later, rfl, hnot, hmem⟩ := h
  exact ⟨earlier, later ++ [c], by simp, by simp [hnot, hc], by simp [hmem]⟩

/-- What is used now is used after all that was used before. -/
lemma usedBefore_concat (h : a ∈ uses) (hb : a ≠ b) : UsedBefore (uses ++ [b]) a b := by
  obtain ⟨later, earlier, heq, hnot⟩ := List.eq_append_cons_of_mem (List.mem_reverse.mpr h)
  have huses : uses = earlier.reverse ++ a :: later.reverse := by
    rw [← List.reverse_reverse uses, heq]
    simp
  exact ⟨earlier.reverse, later.reverse ++ [b], by simp [huses], by simp [hnot, hb], by simp⟩

namespace ByRecency

lemma nil : ByRecency uses [] := ⟨by simp, .nil⟩

lemma nodup (h : ByRecency uses order) : order.Nodup := h.sorted.imp UsedBefore.ne

lemma sublist (h : ByRecency uses order) (hsub : order'.Sublist order) : ByRecency uses order' :=
  ⟨fun a ha => h.used a (hsub.subset ha), h.sorted.sublist hsub⟩

/-- What is not listed can be used without being listed. -/
lemma pass (h : ByRecency uses order) (hc : c ∉ order) : ByRecency (uses ++ [c]) order where
  used a ha := List.mem_append_left _ (h.used a ha)
  sorted := h.sorted.imp_of_mem fun ha _ hab => hab.concat fun hac => hc (hac ▸ ha)

/-- What is used moves to the end. -/
lemma use [DecidableEq α] (h : ByRecency uses order) :
    ByRecency (uses ++ [c]) (order.erase c ++ [c]) := by
  have hrest : ByRecency (uses ++ [c]) (order.erase c) :=
    (h.sublist List.erase_sublist).pass h.nodup.not_mem_erase
  refine ⟨fun a ha => ?_, List.pairwise_append.mpr ⟨hrest.sorted, List.pairwise_singleton _ _, ?_⟩⟩
  · rcases List.mem_append.mp ha with ha | ha
    · exact hrest.used a ha
    · exact List.mem_append_right _ ha
  · intro a ha b hb
    obtain rfl := List.mem_singleton.mp hb
    obtain ⟨hne, hmem⟩ := h.nodup.mem_erase_iff.mp ha
    exact usedBefore_concat (h.used a hmem) hne

/-- The head was used before all others. -/
lemma usedBefore_of_head (h : ByRecency uses (a :: order)) (hb : b ∈ a :: order) (hne : b ≠ a) :
    UsedBefore uses a b :=
  (List.pairwise_cons.mp h.sorted).1 b ((List.mem_cons.mp hb).resolve_left hne)

end ByRecency

end

/-! ## Priority queues -/

universe u

/-- A priority queue whose elements leave it in the order of their keys. -/
structure MinHeap (α : Type u) {β : Type*} [LE β] (key : α → β) where
  Heap : Type u
  toList : Heap → List α
  empty : Heap
  push : α → Heap → Heap
  pop : Heap → Option (α × Heap)
  toList_empty : toList empty = []
  push_perm : ∀ a h, (toList (push a h)).Perm (a :: toList h)
  pop_none : ∀ h, pop h = none → toList h = []
  pop_perm : ∀ h a h', pop h = some (a, h') → (toList h).Perm (a :: toList h')
  pop_le : ∀ h a h', pop h = some (a, h') → ∀ b ∈ toList h', key a ≤ key b

namespace MinHeap

variable {α : Type u} {β : Type*} [LE β] {key : α → β} (Q : MinHeap α key) {h h' : Q.Heap} {a b : α}

/-- The element that leaves next. -/
def peek (h : Q.Heap) : Option α := (Q.pop h).map Prod.fst

variable {Q}

@[simp] lemma mem_push : b ∈ Q.toList (Q.push a h) ↔ b = a ∨ b ∈ Q.toList h := by
  rw [(Q.push_perm a h).mem_iff, List.mem_cons]

lemma mem_pop (hpop : Q.pop h = some (a, h')) : b ∈ Q.toList h ↔ b = a ∨ b ∈ Q.toList h' := by
  rw [(Q.pop_perm h a h' hpop).mem_iff, List.mem_cons]

lemma length_pop (hpop : Q.pop h = some (a, h')) :
    (Q.toList h).length = (Q.toList h').length + 1 := by
  rw [(Q.pop_perm h a h' hpop).length_eq, List.length_cons]

lemma peek_none (hpeek : Q.peek h = none) : Q.toList h = [] :=
  Q.pop_none h (Option.map_eq_none_iff.mp hpeek)

lemma peek_some (hpeek : Q.peek h = some a) : ∃ h', Q.pop h = some (a, h') := by
  obtain ⟨⟨b, h'⟩, hpop, rfl⟩ := Option.map_eq_some_iff.mp hpeek
  exact ⟨h', hpop⟩

lemma mem_of_peek (hpeek : Q.peek h = some a) : a ∈ Q.toList h := by
  obtain ⟨h', hpop⟩ := peek_some hpeek
  exact (mem_pop hpop).mpr (.inl rfl)

lemma peek_le [Std.IsPreorder β] (hpeek : Q.peek h = some a) (hb : b ∈ Q.toList h) :
    key a ≤ key b := by
  obtain ⟨h', hpop⟩ := peek_some hpeek
  rcases (mem_pop hpop).mp hb with rfl | hb
  · exact Std.le_refl (key b)
  · exact Q.pop_le h a h' hpop b hb

end MinHeap

/-! ### Unordered lists as priority queues -/

section

variable {α : Type u} {β : Type*} [LE β] [DecidableLE β] (key : α → β)

/-- An element with the least key, and the other elements. -/
def selectMin (a : α) : List α → α × List α
  | [] => (a, [])
  | b :: l =>
    let least := selectMin b l
    if key a ≤ key least.1 then (a, least.1 :: least.2) else (least.1, a :: least.2)

lemma selectMin_perm (a : α) (l : List α) :
    (a :: l).Perm ((selectMin key a l).1 :: (selectMin key a l).2) := by
  induction l generalizing a with
  | nil => exact List.Perm.refl _
  | cons b l ih =>
    simp only [selectMin]
    split_ifs
    · exact (ih b).cons a
    · exact ((ih b).cons a).trans (List.Perm.swap _ _ _)

lemma selectMin_le [Std.IsLinearPreorder β] (a : α) (l : List α) :
    ∀ b ∈ (selectMin key a l).2, key (selectMin key a l).1 ≤ key b := by
  induction l generalizing a with
  | nil => exact fun b hb => absurd hb List.not_mem_nil
  | cons b l ih =>
    simp only [selectMin]
    split_ifs with hle <;> intro c hc <;> rcases List.mem_cons.mp hc with rfl | hc
    · exact hle
    · exact Std.le_trans hle (ih b c hc)
    · exact Std.le_of_not_ge hle
    · exact ih b c hc

/-- A list from which an element with the least key is taken. -/
def MinHeap.ofList [Std.IsLinearPreorder β] : MinHeap α key where
  Heap := List α
  toList l := l
  empty := []
  push := List.cons
  pop
    | [] => none
    | a :: l => some (selectMin key a l)
  toList_empty := rfl
  push_perm _ _ := List.Perm.refl _
  pop_none
    | [], _ => rfl
  pop_perm
    | a :: l, b, l', hpop => by
      have hperm := selectMin_perm key a l
      rwa [Option.some.inj hpop] at hperm
  pop_le
    | a :: l, b, l', hpop => by
      have hle := selectMin_le key a l
      rwa [Option.some.inj hpop] at hle

end

end AmlaSandbox.Library
