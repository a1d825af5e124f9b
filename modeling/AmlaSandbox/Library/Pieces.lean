import Mathlib.Data.List.Basic
import Mathlib.Tactic.Common

/-!
# Patterns of letters and runs

A pattern is a list of pieces, each of which stands for one letter that it accepts or for a run of
any letters. The words of a pattern are found by trying every length of every run. A match that
meets a run after some letters may as well meet it later.
-/

namespace AmlaSandbox.Library

inductive Piece (α : Type*)
  | letter (accepts : α → Bool)
  | run

namespace Piece

variable {α : Type*} {a : α} {accepts : α → Bool} {x : Piece α} {w v skipped : List α}
  {p q letters : List (Piece α)}

def isRun : Piece α → Bool
  | letter _ => false
  | run => true

/-- The words of a pattern. -/
inductive Matches : List (Piece α) → List α → Prop
  | nil : Matches [] []
  | letter {accepts : α → Bool} {a : α} {p : List (Piece α)} {w : List α} : accepts a = true →
      Matches p w → Matches (letter accepts :: p) (a :: w)
  | run (skipped : List α) {p : List (Piece α)} {w : List α} :
      Matches p w → Matches (run :: p) (skipped ++ w)

/-- Every run is tried with every length. -/
def backtrack : List (Piece α) → List α → Bool
  | [], w => w.isEmpty
  | letter _ :: _, [] => false
  | letter accepts :: p, a :: w => accepts a && backtrack p w
  | run :: p, [] => backtrack p []
  | run :: p, a :: w => backtrack p (a :: w) || backtrack (run :: p) w
termination_by p w => p.length + w.length

/-! ### Words -/

@[simp] lemma matches_nil_iff : Matches [] w ↔ w = [] := by
  constructor
  · intro h
    cases h
    rfl
  · rintro rfl
    exact .nil

@[simp] lemma matches_letter_iff :
    Matches (letter accepts :: p) w ↔ ∃ a v, w = a :: v ∧ accepts a = true ∧ Matches p v := by
  constructor
  · intro h
    cases h with
    | letter ha h => exact ⟨_, _, rfl, ha, h⟩
  · rintro ⟨a, v, rfl, ha, h⟩
    exact .letter ha h

/-- Letters that accept one letter each spell a word. -/
lemma matches_spelled_iff [DecidableEq α] :
    Matches (v.map (fun a => letter (a = ·)) ++ p) w ↔ ∃ u, w = v ++ u ∧ Matches p u := by
  induction v generalizing w with
  | nil => simp
  | cons a v ih =>
    rw [List.map_cons, List.cons_append, matches_letter_iff]
    constructor
    · rintro ⟨a', w', rfl, ha, hw⟩
      obtain ⟨u, rfl, hu⟩ := ih.mp hw
      exact ⟨u, by rw [of_decide_eq_true ha, List.cons_append], hu⟩
    · rintro ⟨u, rfl, hu⟩
      exact ⟨a, v ++ u, rfl, decide_eq_true rfl, ih.mpr ⟨u, rfl, hu⟩⟩

lemma matches_run_iff : Matches (run :: p) w ↔ ∃ v, v <:+ w ∧ Matches p v := by
  constructor
  · intro h
    cases h with
    | run skipped h => exact ⟨_, List.suffix_append _ _, h⟩
  · rintro ⟨v, ⟨skipped, rfl⟩, h⟩
    exact .run skipped h

/-- A run takes in what comes before. -/
lemma Matches.run_append (h : Matches (Piece.run :: p) w) (skipped : List α) :
    Matches (Piece.run :: p) (skipped ++ w) := by
  obtain ⟨v, hv, hp⟩ := matches_run_iff.mp h
  exact matches_run_iff.mpr ⟨v, hv.trans (List.suffix_append _ _), hp⟩

/-- A run stands for nothing, or for one letter more. -/
lemma matches_run_cons_iff :
    Matches (run :: p) (a :: w) ↔ Matches p (a :: w) ∨ Matches (run :: p) w := by
  constructor
  · intro h
    obtain ⟨v, hv, hp⟩ := matches_run_iff.mp h
    rcases List.suffix_cons_iff.mp hv with rfl | hv
    · exact .inl hp
    · exact .inr (matches_run_iff.mpr ⟨v, hv, hp⟩)
  · rintro (h | h)
    · exact .run [] h
    · exact h.run_append [a]

lemma matches_run_run_iff : Matches (run :: run :: p) w ↔ Matches (run :: p) w := by
  constructor
  · intro h
    obtain ⟨v, ⟨skipped, rfl⟩, hv⟩ := matches_run_iff.mp h
    exact hv.run_append skipped
  · exact Matches.run []

/-- A word of two patterns one behind the other is cut in two. -/
lemma matches_append_iff :
    Matches (p ++ q) w ↔ ∃ u v, w = u ++ v ∧ Matches p u ∧ Matches q v := by
  induction p generalizing w with
  | nil => simp
  | cons x p ih =>
    cases x with
    | letter accepts =>
      rw [List.cons_append, matches_letter_iff]
      constructor
      · rintro ⟨a, w, rfl, ha, hw⟩
        obtain ⟨u, v, rfl, hu, hv⟩ := ih.mp hw
        exact ⟨a :: u, v, rfl, .letter ha hu, hv⟩
      · rintro ⟨u, v, rfl, hu, hv⟩
        obtain ⟨a, u, rfl, ha, hu⟩ := matches_letter_iff.mp hu
        exact ⟨a, u ++ v, rfl, ha, ih.mpr ⟨u, v, rfl, hu, hv⟩⟩
    | run =>
      rw [List.cons_append, matches_run_iff]
      constructor
      · rintro ⟨w, ⟨skipped, rfl⟩, hw⟩
        obtain ⟨u, v, rfl, hu, hv⟩ := ih.mp hw
        exact ⟨skipped ++ u, v, (List.append_assoc ..).symm, .run skipped hu, hv⟩
      · rintro ⟨u, v, rfl, hu, hv⟩
        obtain ⟨w, ⟨skipped, rfl⟩, hw⟩ := matches_run_iff.mp hu
        exact ⟨w ++ v, ⟨skipped, (List.append_assoc ..).symm⟩, ih.mpr ⟨w, v, rfl, hw, hv⟩⟩

theorem backtrack_iff : backtrack p w = true ↔ Matches p w := by
  induction p, w using backtrack.induct with
  | case1 w => simp [backtrack]
  | case2 accepts p => simp [backtrack]
  | case3 accepts p a w ih => simp [backtrack, ih]
  | case4 p ih =>
    rw [backtrack, ih, matches_run_iff]
    simp
  | case5 p a w ih ih' => rw [backtrack, Bool.or_eq_true, ih, ih', matches_run_cons_iff]

/-- Nothing is left to match by runs alone. -/
lemma matches_empty_iff : Matches p [] ↔ p.all isRun = true := by
  induction p with
  | nil => simp
  | cons x p ih =>
    cases x with
    | letter accepts => simp [isRun]
    | run => simp [matches_run_iff, ih, isRun]

/-! ### Letters before a run -/

/-- A run is any later start. -/
lemma matches_run_drop_iff {n : ℕ} (hle : n ≤ w.length) :
    Matches (run :: p) (w.drop n) ↔
      Matches p (w.drop n) ∨ ∃ k, n < k ∧ k ≤ w.length ∧ Matches p (w.drop k) := by
  rw [matches_run_iff]
  constructor
  · rintro ⟨v, hv, hp⟩
    have hlen := hv.length_le
    rw [List.length_drop] at hlen
    have hdrop := List.suffix_iff_eq_drop.mp (hv.trans (List.drop_suffix n w))
    rw [hdrop] at hp
    rcases Nat.lt_or_ge n (w.length - v.length) with hlt | hge
    · exact .inr ⟨_, hlt, Nat.sub_le _ _, hp⟩
    · rw [show w.length - v.length = n by omega] at hp
      exact .inl hp
  · rintro (hp | ⟨k, hlt, -, hp⟩)
    · exact ⟨_, List.suffix_refl _, hp⟩
    · refine ⟨_, ?_, hp⟩
      rw [show k = n + (k - n) by omega, ← List.drop_drop]
      exact List.drop_suffix _ _

/-- Pieces that stand for one letter each take in as many letters. -/
lemma Matches.length_le (hletters : ∀ x ∈ letters, x.isRun = false)
    (h : Matches (letters ++ p) w) : letters.length ≤ w.length := by
  induction letters generalizing w with
  | nil => exact Nat.zero_le _
  | cons x letters ih =>
    obtain ⟨hx, hrest⟩ := List.forall_mem_cons.mp hletters
    cases x with
    | letter accepts =>
      obtain ⟨a, v, rfl, _, hv⟩ := matches_letter_iff.mp h
      exact Nat.succ_le_succ (ih hrest hv)
    | run => cases hx

lemma Matches.drop_letters (hletters : ∀ x ∈ letters, x.isRun = false)
    (h : Matches (letters ++ p) w) : Matches p (w.drop letters.length) := by
  induction letters generalizing w with
  | nil => exact h
  | cons x letters ih =>
    obtain ⟨hx, hrest⟩ := List.forall_mem_cons.mp hletters
    cases x with
    | letter accepts =>
      obtain ⟨a, v, rfl, _, hv⟩ := matches_letter_iff.mp h
      exact ih hrest hv
    | run => cases hx

/-- A match that starts later meets the run behind the letters later: the run may start earlier. -/
lemma Matches.run_earlier {n m : ℕ} (hletters : ∀ x ∈ letters, x.isRun = false) (hnm : n ≤ m)
    (h : Matches (letters ++ Piece.run :: p) (w.drop m)) :
    Matches (Piece.run :: p) (w.drop (n + letters.length)) := by
  have hrun := h.drop_letters hletters
  rw [List.drop_drop] at hrun
  have hsplit : w.drop (n + letters.length) =
      (w.drop (n + letters.length)).take (m - n) ++ w.drop (m + letters.length) := by
    have hdrop : (w.drop (n + letters.length)).drop (m - n) = w.drop (m + letters.length) := by
      rw [List.drop_drop]
      congr 1
      omega
    rw [← hdrop, List.take_append_drop]
  rw [hsplit]
  exact hrun.run_append _

end Piece

end AmlaSandbox.Library
