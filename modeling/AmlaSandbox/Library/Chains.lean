import Mathlib.Data.List.Chain
import Mathlib.Data.List.Forall2

/-!
# Threads through a chain

A chain of containers in which every element of a link comes from an element of the link before it.
A thread picks one element of each link, each one related to the next.
-/

namespace AmlaSandbox.Library

variable {α β : Type*}

/-- One element of every link, each related to the one after it. -/
structure Thread (mem : α → β → Prop) (R : β → β → Prop) (chain : List α) (xs : List β) :
    Prop where
  mem : List.Forall₂ mem chain xs
  linked : xs.IsChain R

/-- If every element has an origin one link up, every element of the last link ends a thread. -/
theorem exists_thread {mem : α → β → Prop} {R : β → β → Prop} {chain : List α}
    (h : chain.IsChain fun a b => ∀ y, mem b y → ∃ x, mem a x ∧ R x y) {last : α} {y : β}
    (hlast : chain.getLast? = some last) (hy : mem last y) :
    ∃ xs, Thread mem R chain xs ∧ xs.getLast? = some y := by
  induction chain with
  | nil => simp at hlast
  | cons a rest ih =>
    cases rest with
    | nil =>
      obtain rfl : a = last := by simpa using hlast
      exact ⟨[y], ⟨.cons hy .nil, .singleton y⟩, rfl⟩
    | cons b rest =>
      rw [List.isChain_cons_cons] at h
      rw [List.getLast?_cons_cons] at hlast
      obtain ⟨xs, ⟨hmem, hlinked⟩, hend⟩ := ih h.2 hlast
      -- the thread below starts in `b`, so it has an origin in `a`
      cases hmem with
      | cons hx hrest =>
        obtain ⟨x', hx', hR⟩ := h.1 _ hx
        exact ⟨_, ⟨.cons hx' (.cons hx hrest), .cons_cons hR hlinked⟩, by simpa using hend⟩

lemma isChain_and {R S : α → α → Prop} {chain : List α} :
    (chain.IsChain fun a b => R a b ∧ S a b) ↔ chain.IsChain R ∧ chain.IsChain S := by
  induction chain with
  | nil => simp
  | cons a rest ih =>
    cases rest with
    | nil => simp
    | cons b rest =>
      simp only [List.isChain_cons_cons, ih]
      tauto

/-- The last link is the first one or is related to the link before it. -/
lemma eq_head_or_rel_last {R : α → α → Prop} {chain : List α} (h : chain.IsChain R) {a b : α}
    (ha : chain.head? = some a) (hb : chain.getLast? = some b) : b = a ∨ ∃ p ∈ chain, R p b := by
  induction chain generalizing a with
  | nil => simp at ha
  | cons c rest ih =>
    obtain rfl : c = a := by simpa using ha
    cases rest with
    | nil => exact .inl (by simpa using hb.symm)
    | cons d rest =>
      rw [List.isChain_cons_cons] at h
      rw [List.getLast?_cons_cons] at hb
      rcases ih h.2 rfl hb with rfl | ⟨p, hp, hR⟩
      · exact .inr ⟨c, by simp, h.1⟩
      · exact .inr ⟨p, List.mem_cons_of_mem c hp, hR⟩

/-- A transitive relation between neighbours holds between any earlier and later link. -/
lemma rel_of_isChain {R : α → α → Prop} [IsTrans α R] {chain : List α} (h : chain.IsChain R)
    {i j : ℕ} (hij : i < j) {a b : α} (ha : chain[i]? = some a) (hb : chain[j]? = some b) :
    R a b := by
  obtain ⟨hi, rfl⟩ := List.getElem?_eq_some_iff.mp ha
  obtain ⟨hj, rfl⟩ := List.getElem?_eq_some_iff.mp hb
  exact List.pairwise_iff_getElem.mp (List.isChain_iff_pairwise.mp h) i j hi hj hij

end AmlaSandbox.Library
