import Mathlib.Data.Countable.Defs
import Mathlib.Data.List.Basic
import Mathlib.Tactic.Common

/-!
# Words cut into segments

A pattern is a list of items, each of which takes a segment of a word and may look at what stands
before and behind it. Codes of which the end can be told from what follows can be written one after
the other and still be read.
-/

namespace AmlaSandbox.Library

/-! ## Patterns -/

section

variable {ι κ α β : Type*}

/-- The word is cut into one segment for each item; `before` is what stands before the word. -/
def Cut (takes : ι → List α → List α → List α → Prop) : List ι → List α → List α → Prop
  | [], _, w => w = []
  | x :: p, before, w =>
    ∃ n ≤ w.length, takes x before (w.take n) (w.drop n) ∧
      Cut takes p (before ++ w.take n) (w.drop n)

namespace Cut

variable {takes : ι → List α → List α → List α → Prop}
variable {x : ι} {p q : List ι} {before u v w : List α}

instance decidable [∀ x before u after, Decidable (takes x before u after)] :
    ∀ p before w, Decidable (Cut takes p before w)
  | [], _, w => decidable_of_iff (w.isEmpty = true) List.isEmpty_iff
  | x :: p, before, w =>
    have (n : ℕ) : Decidable (Cut takes p (before ++ w.take n) (w.drop n)) := decidable p _ _
    decidable_of_iff (∃ n < w.length + 1, takes x before (w.take n) (w.drop n) ∧
      Cut takes p (before ++ w.take n) (w.drop n)) (by simp only [Nat.lt_succ_iff, Cut])

@[simp] lemma nil_iff : Cut takes [] before w ↔ w = [] := Iff.rfl

lemma cons_iff : Cut takes (x :: p) before w ↔
    ∃ u v, w = u ++ v ∧ takes x before u v ∧ Cut takes p (before ++ u) v := by
  constructor
  · rintro ⟨n, _, htakes, hcut⟩
    exact ⟨_, _, (List.take_append_drop n w).symm, htakes, hcut⟩
  · rintro ⟨u, v, rfl, htakes, hcut⟩
    refine ⟨u.length, by simp, ?_⟩
    rw [List.take_left, List.drop_left]
    exact ⟨htakes, hcut⟩

lemma cons (htakes : takes x before u v) (hcut : Cut takes p (before ++ u) v) :
    Cut takes (x :: p) before (u ++ v) :=
  cons_iff.mpr ⟨u, v, rfl, htakes, hcut⟩

/-- Items that take in another way whatever they take of a word. -/
lemma imp {takes' : ι → List α → List α → List α → Prop}
    (h : ∀ x ∈ p, ∀ before u after, (∀ a ∈ u, a ∈ w) →
      takes x before u after → takes' x before u after) (hcut : Cut takes p before w) :
    Cut takes' p before w := by
  induction p generalizing before w with
  | nil => exact hcut
  | cons x p ih =>
    obtain ⟨u, v, rfl, htakes, hcut⟩ := cons_iff.mp hcut
    refine cons (h x List.mem_cons_self _ _ _ (fun a ha => List.mem_append_left v ha) htakes) ?_
    refine ih (fun y hy before u' after hu' => ?_) hcut
    exact h y (List.mem_cons_of_mem x hy) _ _ _ fun a ha => List.mem_append_right u (hu' a ha)

lemma map_iff {f : κ → ι} {p : List κ} :
    Cut takes (p.map f) before w ↔ Cut (fun x => takes (f x)) p before w := by
  induction p generalizing before w with
  | nil => rfl
  | cons x p ih =>
    rw [List.map_cons]
    simp only [Cut, ih]

/-- A letter may be replaced where no item tells the difference. -/
lemma map_letters {takes' : ι → List β → List β → List β → Prop} {g : α → β}
    (h : ∀ x ∈ p, ∀ before u after, takes x before u after →
      takes' x (before.map g) (u.map g) (after.map g)) (hcut : Cut takes p before w) :
    Cut takes' p (before.map g) (w.map g) := by
  induction p generalizing before w with
  | nil =>
    obtain rfl := nil_iff.mp hcut
    exact nil_iff.mpr rfl
  | cons x p ih =>
    obtain ⟨u, v, rfl, htakes, hcut⟩ := cons_iff.mp hcut
    rw [List.map_append]
    refine cons (h x List.mem_cons_self _ _ _ htakes) ?_
    rw [← List.map_append]
    exact ih (fun y hy => h y (List.mem_cons_of_mem x hy)) hcut

/-- A letter that an item always takes is in the word. -/
lemma mem_of_takes {a : α} (hx : x ∈ p) (h : ∀ before u after, takes x before u after → a ∈ u)
    (hcut : Cut takes p before w) : a ∈ w := by
  induction p generalizing before w with
  | nil => cases hx
  | cons y p ih =>
    obtain ⟨u, v, rfl, htakes, hcut⟩ := cons_iff.mp hcut
    rcases List.mem_cons.mp hx with rfl | hx
    · exact List.mem_append_left v (h _ _ _ htakes)
    · exact List.mem_append_right u (ih hx hcut)

/-- A word that is spelled item by item, for items that do not look around. -/
lemma flatMap_append {fill : ι → List α}
    (h : ∀ x ∈ p, ∀ before after, takes x before (fill x) after)
    (hcut : ∀ before, Cut takes q before v) :
    Cut takes (p ++ q) before (p.flatMap fill ++ v) := by
  induction p generalizing before with
  | nil => exact hcut before
  | cons x p ih =>
    rw [List.flatMap_cons, List.append_assoc, List.cons_append]
    exact cons (h x List.mem_cons_self _ _) (ih fun y hy => h y (List.mem_cons_of_mem x hy))

/-- What grows by one at most where segments meet, and is 0 on each of them. -/
lemma measure_le {size : List α → ℕ} (hnil : size [] = 0)
    (happend : ∀ u v, size (u ++ v) ≤ size u + size v + 1)
    (h : ∀ x ∈ p, ∀ before u after, takes x before u after → size u = 0)
    (hcut : Cut takes p before w) : size w ≤ p.length := by
  induction p generalizing before w with
  | nil =>
    rw [nil_iff.mp hcut, hnil]
    exact Nat.zero_le _
  | cons x p ih =>
    obtain ⟨u, v, rfl, htakes, hcut⟩ := cons_iff.mp hcut
    have hu : size u = 0 := h x List.mem_cons_self _ _ _ htakes
    have hv : size v ≤ p.length := ih (fun y hy => h y (List.mem_cons_of_mem x hy)) hcut
    calc size (u ++ v) ≤ size u + size v + 1 := happend u v
      _ ≤ (x :: p).length := by
        rw [List.length_cons]
        omega

end Cut

/-! ### Adjacent letters -/

section Adjacent

variable [DecidableEq α] {a b c d : α} {u v w : List α}

/-- The number of places where `a` is followed by `b`. -/
def adjacent (a b : α) : List α → ℕ
  | [] => 0
  | [_] => 0
  | c :: d :: w => (if c = a ∧ d = b then 1 else 0) + adjacent a b (d :: w)

lemma adjacent_le_cons : adjacent a b w ≤ adjacent a b (c :: w) := by
  cases w with
  | nil => exact Nat.zero_le _
  | cons d w => exact Nat.le_add_left _ _

lemma adjacent_append_le : adjacent a b (u ++ v) ≤ adjacent a b u + adjacent a b v + 1 := by
  induction u with
  | nil =>
    rw [List.nil_append]
    omega
  | cons c u ih =>
    cases u with
    | nil =>
      cases v with
      | nil => exact Nat.zero_le _
      | cons d v =>
        simp only [List.singleton_append, adjacent]
        split_ifs <;> omega
    | cons d u =>
      simp only [List.cons_append, adjacent] at ih ⊢
      omega

lemma adjacent_append_right : adjacent a b v ≤ adjacent a b (u ++ v) := by
  induction u with
  | nil => exact Nat.le_refl _
  | cons c u ih => exact Nat.le_trans ih adjacent_le_cons

lemma adjacent_eq_zero (h : a ∉ w ∨ b ∉ w) : adjacent a b w = 0 := by
  induction w with
  | nil => rfl
  | cons c w ih =>
    cases w with
    | nil => rfl
    | cons d w =>
      simp only [List.mem_cons, not_or] at h ih
      have hne : ¬ (c = a ∧ d = b) := by
        rintro ⟨rfl, rfl⟩
        rcases h with h | h
        · exact h.1 rfl
        · exact h.2.1 rfl
      rw [adjacent, if_neg hne, ih (h.imp And.right And.right)]

lemma le_adjacent_replicate {n : ℕ} :
    n ≤ adjacent a b ((List.replicate n [a, b]).flatten ++ w) := by
  induction n with
  | zero => exact Nat.zero_le _
  | succ n ih =>
    rw [List.replicate_succ, List.flatten_cons, List.append_assoc, List.cons_append,
      List.singleton_append, adjacent, if_pos ⟨rfl, rfl⟩]
    have hle := Nat.le_trans ih (adjacent_le_cons (a := a) (b := b) (c := b))
    omega

end Adjacent

end

/-! ## Self-delimiting codes -/

variable {α β γ : Type*} {code : α → List γ} {code' : β → List γ}

/-- What is coded, and what comes after the code, can be told from both written together. -/
def SelfDelimiting (code : α → List γ) : Prop :=
  ∀ a b x y, code a ++ x = code b ++ y → a = b ∧ x = y

namespace SelfDelimiting

lemma injective (h : SelfDelimiting code) : Function.Injective code :=
  fun a b hab => (h a b [] [] (by rw [hab])).1

lemma append_inj_iff (h : SelfDelimiting code) {a b : α} {x y : List γ} :
    code a ++ x = code b ++ y ↔ a = b ∧ x = y := by
  constructor
  · exact h a b x y
  · rintro ⟨rfl, rfl⟩
    rfl

/-- Two codes one after the other. -/
lemma pair (h : SelfDelimiting code) (h' : SelfDelimiting code') :
    SelfDelimiting fun p : α × β => code p.1 ++ code' p.2 := by
  rintro ⟨a, b⟩ ⟨a', b'⟩ x y hxy
  simp only [List.append_assoc, h.append_inj_iff, h'.append_inj_iff] at hxy
  obtain ⟨rfl, rfl, hxy⟩ := hxy
  exact ⟨rfl, hxy⟩

/-- Codes of one length need no end. -/
lemma of_length {n : ℕ} (hlength : ∀ a, (code a).length = n) (hinj : Function.Injective code) :
    SelfDelimiting code := by
  intro a b x y hxy
  obtain ⟨hab, hrest⟩ := List.append_inj hxy ((hlength a).trans (hlength b).symm)
  exact ⟨hinj hab, hrest⟩

/-- Codes with a fixed start. -/
lemma cons_lead (h : SelfDelimiting code) (lead : List γ) :
    SelfDelimiting fun a => lead ++ code a := by
  intro a b x y hxy
  simp only [List.append_assoc, List.append_cancel_left_eq] at hxy
  exact h a b x y hxy

lemma comp (h : SelfDelimiting code) {f : β → α} (hf : Function.Injective f) :
    SelfDelimiting (code ∘ f) := by
  intro a b x y hxy
  obtain ⟨hab, hrest⟩ := h _ _ x y hxy
  exact ⟨hf hab, hrest⟩

end SelfDelimiting

/-- A number as so many signs, up to another sign. -/
def unary (zero one : γ) (n : ℕ) : List γ := List.replicate n one ++ [zero]

lemma unary_succ (zero one : γ) (n : ℕ) : unary zero one (n + 1) = one :: unary zero one n := rfl

lemma selfDelimiting_unary {zero one : γ} (hne : one ≠ zero) : SelfDelimiting (unary zero one) := by
  intro n
  induction n with
  | zero =>
    rintro (_ | m) x y hxy
    · exact ⟨rfl, List.append_cancel_left hxy⟩
    · rw [unary_succ] at hxy
      exact absurd (List.cons.inj hxy).1.symm hne
  | succ n ih =>
    rintro (_ | m) x y hxy
    · rw [unary_succ] at hxy
      exact absurd (List.cons.inj hxy).1 hne
    · rw [unary_succ, unary_succ] at hxy
      obtain ⟨hnm, hrest⟩ := ih m x y (List.cons.inj hxy).2
      exact ⟨congrArg (· + 1) hnm, hrest⟩

/-- What can be counted has a code in which one given value has a given code, if that starts with a
sign of its own. -/
lemma exists_selfDelimiting [Countable α] (zero one sign : γ) (hne : one ≠ zero)
    (hzero : sign ≠ zero) (hone : sign ≠ one) (a : α) (rest : List γ) :
    ∃ code : α → List γ, SelfDelimiting code ∧ code a = sign :: rest := by
  classical
  obtain ⟨f, hf⟩ := exists_injective_nat α
  have hunary := (selfDelimiting_unary hne).comp hf
  have hstart : ∀ n x y, sign :: rest ++ x ≠ unary zero one n ++ y := by
    rintro (_ | n) x y hxy
    · exact hzero (List.cons.inj hxy).1
    · rw [unary_succ] at hxy
      exact hone (List.cons.inj hxy).1
  refine ⟨fun b => if b = a then sign :: rest else unary zero one (f b), ?_, if_pos rfl⟩
  intro b c x y hxy
  simp only at hxy
  split_ifs at hxy with hb hc hc
  · exact ⟨hb.trans hc.symm, List.append_cancel_left hxy⟩
  · exact absurd hxy (hstart _ x y)
  · exact absurd hxy.symm (hstart _ y x)
  · exact hunary b c x y hxy

end AmlaSandbox.Library
