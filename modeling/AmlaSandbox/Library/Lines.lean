import Mathlib.Data.List.Basic
import Mathlib.Data.List.Infix
import Mathlib.Tactic.Common

/-!
# Lines and newest entries

Lists cut into lines at a separator, and the longest suffix of a list of entries whose total length
stays below a limit.
-/

namespace AmlaSandbox.Library

variable {α : Type*}

/-! ### Lines -/

/-- A separator at the end and nowhere else. -/
def IsLine (sep : α) (l : List α) : Prop := ∃ body, l = body ++ [sep] ∧ sep ∉ body

/-- Nothing, or a list that ends with a separator. -/
def AtLineEnd (sep : α) (l : List α) : Prop := ∀ a, l.getLast? = some a → a = sep

section Cut

variable [DecidableEq α]

/-- What follows the first separator. -/
def dropLine (sep : α) (l : List α) : List α := (l.dropWhile (· ≠ sep)).tail

/-- The complete lines, without what follows the last separator. -/
def lines (sep : α) : List α → List (List α)
  | [] => []
  | a :: l =>
    if a = sep then [a] :: lines sep l
    else
      match lines sep l with
      | [] => []
      | line :: rest => (a :: line) :: rest

/-- What follows the last separator. -/
def unfinished (sep : α) : List α → List α
  | [] => []
  | a :: l => if sep ∈ a :: l then unfinished sep l else a :: l

end Cut

variable {sep a : α} {l l' body : List α} {ls : List (List α)} {k : ℕ}

lemma atLineEnd_nil : AtLineEnd sep [] := nofun

lemma IsLine.atLineEnd_append (h : IsLine sep l') : AtLineEnd sep (l ++ l') := by
  obtain ⟨body, rfl, _⟩ := h
  intro a ha
  rw [← List.append_assoc, List.getLast?_append] at ha
  simpa using ha.symm

lemma atLineEnd_flatten (h : ∀ l ∈ ls, IsLine sep l) : AtLineEnd sep ls.flatten := by
  induction ls using List.reverseRecOn with
  | nil => exact atLineEnd_nil
  | append_singleton ls l ih =>
    rw [List.flatten_append, List.flatten_singleton]
    exact (h l (by simp)).atLineEnd_append

lemma AtLineEnd.of_append (h : AtLineEnd sep (l ++ l')) : AtLineEnd sep l' := by
  intro a ha
  apply h
  rw [List.getLast?_append, ha, Option.some_or]

lemma AtLineEnd.mem (h : AtLineEnd sep l) (hne : l ≠ []) : sep ∈ l := by
  cases ha : l.getLast? with
  | none => exact absurd (List.getLast?_eq_none_iff.mp ha) hne
  | some a =>
    rw [← h a ha]
    exact List.mem_of_getLast? ha

/-- A list is a line followed by a rest, or a part of its first line. -/
lemma IsLine.append_cases {r rest : List α} (h : IsLine sep l') (heq : l ++ r = l' ++ rest) :
    (∃ l'', l = l' ++ l'' ∧ l'' ++ r = rest) ∨ sep ∉ l := by
  obtain ⟨body, rfl, hbody⟩ := h
  rcases List.append_eq_append_iff.mp heq with ⟨c, hline, hr⟩ | ⟨c, hl, hrest⟩
  · cases c using List.reverseRecOn with
    | nil =>
      refine .inl ⟨[], ?_, ?_⟩
      · simpa using hline.symm
      · simpa using hr
    | append_singleton c b =>
      rw [← List.append_assoc] at hline
      obtain ⟨hc, _⟩ := List.append_inj' hline rfl
      exact .inr fun hmem => hbody (by rw [hc]; exact List.mem_append_left _ hmem)
  · exact .inl ⟨c, hl, hrest.symm⟩

/-- Where a list of lines is cut at the end of a line, both parts are lists of lines. -/
lemma exists_split_of_atLineEnd {r : List α} (h : ∀ l ∈ ls, IsLine sep l)
    (heq : l ++ r = ls.flatten) (hend : AtLineEnd sep l) :
    ∃ ls₁ ls₂, ls = ls₁ ++ ls₂ ∧ l = ls₁.flatten ∧ r = ls₂.flatten := by
  induction ls generalizing l with
  | nil =>
    obtain ⟨rfl, rfl⟩ := List.append_eq_nil_iff.mp heq
    exact ⟨[], [], rfl, rfl, rfl⟩
  | cons x ls ih =>
    rcases (h x (by simp)).append_cases heq with ⟨l', rfl, hrest⟩ | hnot
    · have htail : AtLineEnd sep l' := hend.of_append
      obtain ⟨ls₁, ls₂, rfl, rfl, rfl⟩ := ih (fun y hy => h y (by simp [hy])) hrest htail
      exact ⟨x :: ls₁, ls₂, rfl, rfl, rfl⟩
    · cases l with
      | nil => exact ⟨[], x :: ls, rfl, rfl, heq⟩
      | cons a l => exact absurd (hend.mem (List.cons_ne_nil _ _)) hnot

section Cut

variable [DecidableEq α]

lemma lines_of_notMem (h : sep ∉ l) : lines sep l = [] := by
  induction l with
  | nil => rfl
  | cons a l ih =>
    rw [List.mem_cons, not_or] at h
    simp [lines, Ne.symm h.1, ih h.2]

lemma lines_append (h : IsLine sep l) : lines sep (l ++ l') = l :: lines sep l' := by
  obtain ⟨body, rfl, hbody⟩ := h
  induction body with
  | nil => simp [lines]
  | cons a body ih =>
    rw [List.mem_cons, not_or] at hbody
    have htail := ih hbody.2
    rw [List.append_assoc, List.singleton_append] at htail
    simp [lines, Ne.symm hbody.1, htail]

/-- The complete lines of a part of a list of lines are the first of these. -/
lemma isPrefix_lines {r : List α} (h : ∀ l ∈ ls, IsLine sep l) (heq : l ++ r = ls.flatten) :
    lines sep l <+: ls := by
  induction ls generalizing l with
  | nil =>
    obtain ⟨rfl, rfl⟩ := List.append_eq_nil_iff.mp heq
    exact List.prefix_refl _
  | cons x ls ih =>
    rcases (h x (by simp)).append_cases heq with ⟨l', rfl, hrest⟩ | hnot
    · rw [lines_append (h x (by simp)), List.cons_prefix_cons]
      exact ⟨rfl, ih (fun y hy => h y (by simp [hy])) hrest⟩
    · rw [lines_of_notMem hnot]
      exact List.nil_prefix

lemma dropLine_append (h : sep ∉ body) : dropLine sep (body ++ sep :: l) = l := by
  induction body with
  | nil => simp [dropLine]
  | cons a body ih =>
    rw [List.mem_cons, not_or] at h
    have hdrop := ih h.2
    simpa [dropLine, Ne.symm h.1] using hdrop

lemma exists_body (h : sep ∈ l) : ∃ body, sep ∉ body ∧ l = body ++ sep :: dropLine sep l := by
  obtain ⟨body, rest, rfl, hbody⟩ := List.eq_append_cons_of_mem h
  refine ⟨body, hbody, ?_⟩
  rw [dropLine_append hbody]

lemma unfinished_of_notMem (h : sep ∉ l) : unfinished sep l = l := by
  cases l with
  | nil => rfl
  | cons a l => rw [unfinished, if_neg h]

lemma unfinished_append (h : IsLine sep l) : unfinished sep (l ++ l') = unfinished sep l' := by
  obtain ⟨body, rfl, -⟩ := h
  induction body with
  | nil => simp [unfinished]
  | cons a body ih =>
    rw [List.cons_append, List.cons_append, unfinished, if_pos (by simp), ih]

lemma notMem_unfinished (l : List α) : sep ∉ unfinished sep l := by
  induction l with
  | nil => simp [unfinished]
  | cons a l ih =>
    rw [unfinished]
    split_ifs with h
    · exact ih
    · exact h

/-- Every list is made of lines and a rest without a separator. -/
lemma exists_lines (sep : α) (l : List α) :
    ∃ (ls : List (List α)) (r : List α),
      (∀ x ∈ ls, IsLine sep x) ∧ sep ∉ r ∧ l = ls.flatten ++ r := by
  induction hn : l.length using Nat.strong_induction_on generalizing l with
  | _ n ih =>
    by_cases hsep : sep ∈ l
    · obtain ⟨body, hbody, hl⟩ := exists_body hsep
      have hlen := congrArg List.length hl
      rw [List.length_append, List.length_cons] at hlen
      obtain ⟨ls, r, hls, hr, hrest⟩ := ih _ (by omega) (dropLine sep l) rfl
      refine ⟨(body ++ [sep]) :: ls, r, ?_, hr, ?_⟩
      · exact List.forall_mem_cons.mpr ⟨⟨body, rfl, hbody⟩, hls⟩
      · rw [List.flatten_cons, List.append_assoc, ← hrest, List.append_assoc,
          List.singleton_append, ← hl]
    · exact ⟨[], l, by simp, hsep, rfl⟩

lemma lines_flatten_append (h : ∀ x ∈ ls, IsLine sep x) (l : List α) :
    lines sep (ls.flatten ++ l) = ls ++ lines sep l := by
  induction ls with
  | nil => rfl
  | cons x ls ih =>
    obtain ⟨hx, hls⟩ := List.forall_mem_cons.mp h
    rw [List.flatten_cons, List.append_assoc, lines_append hx, ih hls, List.cons_append]

lemma unfinished_flatten_append (h : ∀ x ∈ ls, IsLine sep x) (l : List α) :
    unfinished sep (ls.flatten ++ l) = unfinished sep l := by
  induction ls with
  | nil => rfl
  | cons x ls ih =>
    obtain ⟨hx, hls⟩ := List.forall_mem_cons.mp h
    rw [List.flatten_cons, List.append_assoc, unfinished_append hx, ih hls]

/-- A list that is read in two parts: the second part goes on with the unfinished line. -/
lemma lines_append_eq (l l' : List α) :
    lines sep (l ++ l') = lines sep l ++ lines sep (unfinished sep l ++ l') := by
  obtain ⟨ls, r, hls, hr, rfl⟩ := exists_lines sep l
  rw [lines_flatten_append hls, unfinished_flatten_append hls, lines_of_notMem hr,
    unfinished_of_notMem hr, List.append_nil, List.append_assoc, lines_flatten_append hls]

lemma unfinished_append_eq (l l' : List α) :
    unfinished sep (l ++ l') = unfinished sep (unfinished sep l ++ l') := by
  obtain ⟨ls, r, hls, hr, rfl⟩ := exists_lines sep l
  rw [unfinished_flatten_append hls, unfinished_of_notMem hr, List.append_assoc,
    unfinished_flatten_append hls]

lemma isLine_of_mem_lines {x : List α} (h : x ∈ lines sep l) : IsLine sep x := by
  obtain ⟨ls, r, hls, hr, rfl⟩ := exists_lines sep l
  rw [lines_flatten_append hls, lines_of_notMem hr, List.append_nil] at h
  exact hls x h

lemma IsLine.count (h : IsLine sep l) : l.count sep = 1 := by
  obtain ⟨body, rfl, hbody⟩ := h
  rw [List.count_append, List.count_eq_zero.mpr hbody, List.count_singleton_self]

lemma count_flatten (h : ∀ x ∈ ls, IsLine sep x) : ls.flatten.count sep = ls.length := by
  induction ls with
  | nil => rfl
  | cons x ls ih =>
    obtain ⟨hx, hls⟩ := List.forall_mem_cons.mp h
    rw [List.flatten_cons, List.count_append, hx.count, ih hls, List.length_cons, Nat.add_comm]

lemma length_lines (l : List α) : (lines sep l).length = l.count sep := by
  obtain ⟨ls, r, hls, hr, rfl⟩ := exists_lines sep l
  rw [lines_flatten_append hls, lines_of_notMem hr, List.append_nil, List.count_append,
    count_flatten hls, List.count_eq_zero.mpr hr, Nat.add_zero]

end Cut

/-! ### Newest entries -/

/-- `kept` is the longest suffix of `entries` whose total length is at most `limit`. -/
structure IsNewest (limit : ℕ) (entries kept : List (List α)) : Prop where
  suffix : kept <:+ entries
  bound : kept.flatten.length ≤ limit
  longest : ∀ s, s <:+ entries → s.flatten.length ≤ limit → s <:+ kept

variable {limit : ℕ} {entries kept t : List (List α)} {entry : List α}

lemma isNewest_nil : IsNewest limit ([] : List (List α)) [] :=
  ⟨List.suffix_refl _, Nat.zero_le _, fun _ hs _ => hs⟩

/-- After one more entry, the longest suffix is what still fits of the old one, with the entry. -/
lemma IsNewest.append (h : IsNewest limit entries kept) (ht : t <:+ kept)
    (hbound : t.flatten.length + entry.length ≤ limit)
    (hlongest : ∀ s, s <:+ kept → s.flatten.length + entry.length ≤ limit → s <:+ t) :
    IsNewest limit (entries ++ [entry]) (t ++ [entry]) where
  suffix := by
    obtain ⟨r, hr⟩ := ht.trans h.suffix
    exact ⟨r, by rw [← hr, List.append_assoc]⟩
  bound := by simpa using hbound
  longest s hs hlen := by
    cases s using List.reverseRecOn with
    | nil => exact List.nil_suffix
    | append_singleton s x =>
      obtain ⟨r, hr⟩ := hs
      rw [← List.append_assoc] at hr
      obtain ⟨hentries, hx⟩ := List.append_inj' hr rfl
      obtain rfl : x = entry := by simpa using hx
      rw [List.flatten_append, List.flatten_singleton, List.length_append] at hlen
      obtain ⟨q, hq⟩ := hlongest s (h.longest s ⟨r, hentries⟩ (by omega)) hlen
      exact ⟨q, by rw [← hq, List.append_assoc]⟩

section Cut

variable [DecidableEq α]

/-- Cutting lines short and dropping what is left of the first line keeps the longest suffix of
lines that is shorter than what was left. -/
lemma dropLine_drop (h : ∀ l ∈ ls, IsLine sep l) (hk : k < ls.flatten.length) :
    ∃ t, t <:+ ls ∧ dropLine sep (ls.flatten.drop k) = t.flatten ∧
      t.flatten.length < ls.flatten.length - k ∧
      ∀ s, s <:+ ls → s.flatten.length < ls.flatten.length - k → s <:+ t := by
  induction ls generalizing k with
  | nil => simp at hk
  | cons x ls ih =>
    rw [List.flatten_cons, List.length_append] at hk ⊢
    have hwhole : ∀ s, s <:+ x :: ls →
        s.flatten.length < x.length + ls.flatten.length - k → s <:+ ls := by
      intro s hs hlen
      apply (List.suffix_cons_iff.mp hs).resolve_left
      rintro rfl
      rw [List.flatten_cons, List.length_append] at hlen
      omega
    rcases Nat.lt_or_ge k x.length with hlt | hge
    · obtain ⟨body, rfl, hbody⟩ := h x (by simp)
      have hk' : k ≤ body.length := by
        rw [List.length_append, List.length_singleton] at hlt
        omega
      refine ⟨ls, List.suffix_cons _ _, ?_, by omega, hwhole⟩
      rw [List.append_assoc, List.drop_append_of_le_length hk', List.singleton_append]
      exact dropLine_append fun hmem => hbody (List.mem_of_mem_drop hmem)
    · obtain ⟨t, ht, hdrop, hlen, hlongest⟩ :=
        ih (k := k - x.length) (fun y hy => h y (by simp [hy])) (by omega)
      refine ⟨t, ht.trans (List.suffix_cons _ _), ?_, by omega, ?_⟩
      · rw [List.drop_append, List.drop_of_length_le hge, List.nil_append, hdrop]
      · intro s hs hslen
        exact hlongest s (hwhole s hs hslen) (by omega)

end Cut

end AmlaSandbox.Library
