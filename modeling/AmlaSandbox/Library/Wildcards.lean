import Mathlib.Data.List.Basic

/-!
# Wildcards

Patterns over words: a letter, any one letter, or any number of letters. One pattern lies within
another when the second can be read over the first, letter by letter and wildcard by wildcard.
-/

namespace AmlaSandbox.Library

inductive Wild (α : Type*)
  | lit (a : α)
  | one
  | many
deriving DecidableEq

namespace Wild

variable {α : Type*} {a : α} {x : Wild α} {w v : List α} {p q r skipped : List (Wild α)}

/-- The words of a pattern. -/
inductive Matches : List (Wild α) → List α → Prop
  | nil : Matches [] []
  | lit (a : α) {p : List (Wild α)} {w : List α} : Matches p w → Matches (lit a :: p) (a :: w)
  | one (a : α) {p : List (Wild α)} {w : List α} : Matches p w → Matches (one :: p) (a :: w)
  | many (skipped : List α) {p : List (Wild α)} {w : List α} :
    Matches p w → Matches (many :: p) (skipped ++ w)

/-- The first pattern lies within the second: `many` passes over any part of it, `one` over
anything but `many`. -/
inductive Within : List (Wild α) → List (Wild α) → Prop
  | nil : Within [] []
  | lit (a : α) {p q : List (Wild α)} : Within p q → Within (lit a :: p) (lit a :: q)
  | one {x : Wild α} {p q : List (Wild α)} (hx : x ≠ many) :
    Within p q → Within (x :: p) (one :: q)
  | many (skipped : List (Wild α)) {p q : List (Wild α)} :
    Within p q → Within (skipped ++ p) (many :: q)

/-! ### Words -/

@[simp] lemma matches_nil_iff : Matches [] w ↔ w = [] := by
  constructor
  · intro h
    cases h
    rfl
  · rintro rfl
    exact .nil

@[simp] lemma matches_lit_iff : Matches (lit a :: p) w ↔ ∃ v, w = a :: v ∧ Matches p v := by
  constructor
  · intro h
    cases h with
    | lit a h => exact ⟨_, rfl, h⟩
  · rintro ⟨v, rfl, h⟩
    exact .lit a h

@[simp] lemma matches_one_iff : Matches (one :: p) w ↔ ∃ b v, w = b :: v ∧ Matches p v := by
  constructor
  · intro h
    cases h with
    | one b h => exact ⟨b, _, rfl, h⟩
  · rintro ⟨b, v, rfl, h⟩
    exact .one b h

lemma matches_many_iff : Matches (many :: p) w ↔ ∃ v, v <:+ w ∧ Matches p v := by
  constructor
  · intro h
    cases h with
    | many skipped h => exact ⟨_, List.suffix_append _ _, h⟩
  · rintro ⟨v, ⟨skipped, rfl⟩, h⟩
    exact .many skipped h

/-- A suffix of the pattern accounts for a suffix of the word. -/
lemma Matches.suffix (h : Matches (skipped ++ p) w) : ∃ v, v <:+ w ∧ Matches p v := by
  induction skipped generalizing w with
  | nil => exact ⟨w, List.suffix_refl w, h⟩
  | cons x skipped ih =>
    rw [List.cons_append] at h
    cases h with
    | lit a h =>
      obtain ⟨v, hv, hp⟩ := ih h
      exact ⟨v, hv.trans (List.suffix_cons _ _), hp⟩
    | one a h =>
      obtain ⟨v, hv, hp⟩ := ih h
      exact ⟨v, hv.trans (List.suffix_cons _ _), hp⟩
    | many passed h =>
      obtain ⟨v, hv, hp⟩ := ih h
      exact ⟨v, hv.trans (List.suffix_append _ _), hp⟩

/-! ### Containment -/

@[simp] lemma within_nil_iff : Within p [] ↔ p = [] := by
  constructor
  · intro h
    cases h
    rfl
  · rintro rfl
    exact .nil

@[simp] lemma within_lit_iff : Within p (lit a :: q) ↔ ∃ r, p = lit a :: r ∧ Within r q := by
  constructor
  · intro h
    cases h with
    | lit a h => exact ⟨_, rfl, h⟩
  · rintro ⟨r, rfl, h⟩
    exact .lit a h

@[simp] lemma within_one_iff :
    Within p (one :: q) ↔ ∃ x r, p = x :: r ∧ x ≠ many ∧ Within r q := by
  constructor
  · intro h
    cases h with
    | one hx h => exact ⟨_, _, rfl, hx, h⟩
  · rintro ⟨x, r, rfl, hx, h⟩
    exact .one hx h

lemma within_many_iff : Within p (many :: q) ↔ ∃ r, r <:+ p ∧ Within r q := by
  constructor
  · intro h
    cases h with
    | many skipped h => exact ⟨_, List.suffix_append _ _, h⟩
  · rintro ⟨r, ⟨skipped, rfl⟩, h⟩
    exact .many skipped h

/-- Every word of a contained pattern is a word of the other one. -/
theorem Within.sound (h : Within p q) (hw : Matches p w) : Matches q w := by
  induction h generalizing w with
  | nil => exact hw
  | lit a _ ih =>
    obtain ⟨v, rfl, hv⟩ := matches_lit_iff.mp hw
    exact .lit a (ih hv)
  | one hx _ ih =>
    -- what is not `many` stands for exactly one letter
    cases hw with
    | lit a hv => exact .one a (ih hv)
    | one a hv => exact .one a (ih hv)
    | many _ _ => exact absurd rfl hx
  | many skipped _ ih =>
    obtain ⟨v, hv, hp⟩ := hw.suffix
    exact matches_many_iff.mpr ⟨v, hv, ih hp⟩

theorem Within.refl (p : List (Wild α)) : Within p p := by
  induction p with
  | nil => exact .nil
  | cons x p ih =>
    cases x with
    | lit a => exact .lit a ih
    | one => exact .one (by simp) ih
    | many => exact .many [Wild.many] ih

/-- What lies within a pattern has a suffix within any suffix of that pattern. -/
lemma Within.suffix (h : Within p (skipped ++ q)) : ∃ r, r <:+ p ∧ Within r q := by
  induction skipped generalizing p with
  | nil => exact ⟨p, List.suffix_refl p, h⟩
  | cons x skipped ih =>
    rw [List.cons_append] at h
    cases h with
    | lit a h =>
      obtain ⟨r, hr, hq⟩ := ih h
      exact ⟨r, hr.trans (List.suffix_cons _ _), hq⟩
    | one _ h =>
      obtain ⟨r, hr, hq⟩ := ih h
      exact ⟨r, hr.trans (List.suffix_cons _ _), hq⟩
    | many passed h =>
      obtain ⟨r, hr, hq⟩ := ih h
      exact ⟨r, hr.trans (List.suffix_append _ _), hq⟩

/-- Containment composes. The induction is on the second containment, which decides what the
middle pattern begins with. -/
theorem Within.trans (h : Within p q) (h' : Within q r) : Within p r := by
  induction h' generalizing p with
  | nil => exact h
  | lit a _ ih =>
    obtain ⟨p', rfl, hp⟩ := within_lit_iff.mp h
    exact .lit a (ih hp)
  | one hx _ ih =>
    cases h with
    | lit a hp => exact .one (by simp) (ih hp)
    | one hy hp => exact .one hy (ih hp)
    | many _ _ => exact absurd rfl hx
  | many skipped _ ih =>
    obtain ⟨p', hp', hq⟩ := h.suffix
    exact within_many_iff.mpr ⟨p', hp', ih hq⟩

/-! ### Completeness -/

/-- One letter for each place of a pattern without `many`. -/
def fill (fresh : α) : Wild α → α
  | lit a => a
  | _ => fresh

lemma matches_fill (fresh : α) (h : many ∉ p) : Matches p (p.map (fill fresh)) := by
  induction p with
  | nil => exact .nil
  | cons x p ih =>
    rw [List.mem_cons, not_or] at h
    cases x with
    | lit a => exact .lit a (ih h.2)
    | one => exact .one fresh (ih h.2)
    | many => exact absurd rfl h.1

/-- One word decides containment: the one with a letter for `one` that the parent does not have. -/
lemma within_of_matches_fill {fresh : α} (hp : many ∉ p) (hq : lit fresh ∉ q)
    (h : Matches q (p.map (fill fresh))) : Within p q := by
  induction q generalizing p with
  | nil => simpa using h
  | cons y q ih =>
    rw [List.mem_cons, not_or] at hq
    cases y with
    | lit a =>
      rw [matches_lit_iff] at h
      obtain ⟨v, hv, h⟩ := h
      obtain ⟨x, p', rfl, hx, rfl⟩ := List.map_eq_cons_iff.mp hv
      rw [List.mem_cons, not_or] at hp
      cases x with
      | lit b =>
        obtain rfl : b = a := hx
        exact .lit b (ih hp.2 hq.2 h)
      | one =>
        obtain rfl : fresh = a := hx
        exact absurd rfl hq.1
      | many => exact absurd rfl hp.1
    | one =>
      rw [matches_one_iff] at h
      obtain ⟨b, v, hv, h⟩ := h
      obtain ⟨x, p', rfl, -, rfl⟩ := List.map_eq_cons_iff.mp hv
      rw [List.mem_cons, not_or] at hp
      exact .one (Ne.symm hp.1) (ih hp.2 hq.2 h)
    | many =>
      obtain ⟨v, ⟨skipped, hv⟩, h⟩ := matches_many_iff.mp h
      obtain ⟨p₁, p₂, rfl, -, rfl⟩ := List.map_eq_append_iff.mp hv.symm
      rw [List.mem_append, not_or] at hp
      exact .many p₁ (ih hp.2 hq.2 h)

end Wild

end AmlaSandbox.Library
