import AmlaSandbox.Library.Wildcards
import AmlaSandbox.Text.Basic
import Mathlib.Data.Fintype.EquivFin
import Mathlib.Data.List.Infix
import Mathlib.Logic.Relation

/-!
# Method patterns

Glob patterns over the segments of a method name, and the check that a child pattern is a subset
of a parent pattern.
-/

namespace AmlaSandbox.Protocol

open Library

/-- The wildcard for one segment. -/
def star : Text := ['*']

/-- The wildcard for any number of segments. -/
def doubleStar : Text := ['*', '*']

/-- The segments of a method name or of a pattern. The empty string has none. -/
def segments (s : String) : List Text :=
  if s.isEmpty then [] else s.toList.splitOn '/'

def matchesParts : List Text → List Text → Bool
  | methodParts, [] => methodParts.isEmpty
  | methodParts, patternFirst :: restPattern =>
    if patternFirst = doubleStar then
      restPattern.isEmpty ||
        methodParts.tails.any fun suffix => matchesParts suffix restPattern
    else
      match methodParts with
      | [] => false
      | methodFirst :: methodRest =>
        if patternFirst = star then matchesParts methodRest restPattern
        else if patternFirst = methodFirst then matchesParts methodRest restPattern
        else false

def methodMatchesPattern (method pattern : String) : Bool :=
  matchesParts (segments method) (segments pattern)

/-- Past its first branch the source compares the parent's segment with `**` again; these branches
are not reached. -/
def patternPartsSubset : List Text → List Text → Bool
  | child, [] => child.isEmpty
  | child, parentFirst :: parentRest =>
    if parentFirst = doubleStar then
      parentRest.isEmpty || child.tails.any fun suffix => patternPartsSubset suffix parentRest
    else
      match child with
      | [] => false
      | childFirst :: childRest =>
        if childFirst = doubleStar then
          parentFirst = doubleStar && patternPartsSubset childRest parentRest
        else if childFirst = star then
          if parentFirst = star then patternPartsSubset childRest parentRest else false
        else if parentFirst = star then patternPartsSubset childRest parentRest
        else if childFirst = parentFirst then patternPartsSubset childRest parentRest
        else false

def patternIsSubset (child parent : String) : Bool :=
  patternPartsSubset (segments child) (segments parent)

/-! ### Segments as wildcards -/

def wildOf (segment : Text) : Wild Text :=
  if segment = doubleStar then .many
  else if segment = star then .one
  else .lit segment

lemma wildOf_cases (segment : Text) :
    (segment = doubleStar ∧ wildOf segment = .many) ∨
    (segment = star ∧ wildOf segment = .one) ∨
    (segment ≠ doubleStar ∧ segment ≠ star ∧ wildOf segment = .lit segment) := by
  unfold wildOf
  split_ifs with hmany hone
  · exact .inl ⟨hmany, rfl⟩
  · exact .inr (.inl ⟨hone, rfl⟩)
  · exact .inr (.inr ⟨hmany, hone, rfl⟩)

lemma star_ne_doubleStar : star ≠ doubleStar := by decide

lemma wildOf_eq_many_iff {segment : Text} : wildOf segment = .many ↔ segment = doubleStar := by
  rcases wildOf_cases segment with ⟨rfl, hw⟩ | ⟨rfl, hw⟩ | ⟨h, -, hw⟩
  · simp [hw]
  · simp [hw, star_ne_doubleStar]
  · simp [h, hw]

lemma eq_of_wildOf_eq_lit {segment a : Text} (h : wildOf segment = .lit a) : segment = a := by
  rcases wildOf_cases segment with ⟨-, hw⟩ | ⟨-, hw⟩ | ⟨-, -, hw⟩ <;> rw [hw] at h
  · cases h
  · cases h
  · exact Wild.lit.inj h

lemma matchesParts_doubleStar (methodParts restPattern : List Text) :
    matchesParts methodParts (doubleStar :: restPattern) =
      (restPattern.isEmpty ||
        methodParts.tails.any fun suffix => matchesParts suffix restPattern) := by
  cases methodParts <;> simp [matchesParts]

lemma patternPartsSubset_doubleStar (child parentRest : List Text) :
    patternPartsSubset child (doubleStar :: parentRest) =
      (parentRest.isEmpty ||
        child.tails.any fun suffix => patternPartsSubset suffix parentRest) := by
  cases child <;> simp [patternPartsSubset]

theorem matchesParts_iff {methodParts patternParts : List Text} :
    matchesParts methodParts patternParts ↔
      Wild.Matches (patternParts.map wildOf) methodParts := by
  induction patternParts generalizing methodParts with
  | nil => simp [matchesParts]
  | cons patternFirst restPattern ih =>
    rw [List.map_cons]
    rcases wildOf_cases patternFirst with ⟨rfl, hw⟩ | ⟨rfl, hw⟩ | ⟨hmany, hone, hw⟩ <;> rw [hw]
    · rw [matchesParts_doubleStar, Wild.matches_many_iff, Bool.or_eq_true, List.any_eq_true]
      constructor
      · rintro (hrest | ⟨suffix, hs, h⟩)
        · obtain rfl := List.isEmpty_iff.mp hrest
          exact ⟨[], List.nil_suffix, .nil⟩
        · exact ⟨suffix, (List.mem_tails _ _).mp hs, ih.mp h⟩
      · rintro ⟨suffix, hs, h⟩
        exact .inr ⟨suffix, (List.mem_tails _ _).mpr hs, ih.mpr h⟩
    · rw [Wild.matches_one_iff]
      cases methodParts with
      | nil => simp [matchesParts, star_ne_doubleStar]
      | cons methodFirst methodRest => simp [matchesParts, star_ne_doubleStar, ih]
    · rw [Wild.matches_lit_iff]
      cases methodParts with
      | nil => simp [matchesParts, hmany]
      | cons methodFirst methodRest =>
        simp only [matchesParts, if_neg hmany, if_neg hone]
        split_ifs with h
        · subst h
          simp [ih]
        · simp [Ne.symm h]

theorem patternPartsSubset_iff {child parent : List Text} :
    patternPartsSubset child parent ↔
      Wild.Within (child.map wildOf) (parent.map wildOf) := by
  induction parent generalizing child with
  | nil => simp [patternPartsSubset]
  | cons parentFirst parentRest ih =>
    rw [List.map_cons]
    rcases wildOf_cases parentFirst with ⟨rfl, hw⟩ | ⟨rfl, hw⟩ | ⟨hmany, hone, hw⟩ <;> rw [hw]
    · rw [patternPartsSubset_doubleStar, Wild.within_many_iff, Bool.or_eq_true, List.any_eq_true]
      constructor
      · rintro (hrest | ⟨suffix, hs, h⟩)
        · obtain rfl := List.isEmpty_iff.mp hrest
          exact ⟨[], List.nil_suffix, .nil⟩
        · exact ⟨suffix.map wildOf, ((List.mem_tails _ _).mp hs).map wildOf, ih.mp h⟩
      · rintro ⟨suffix, ⟨skipped, hs⟩, h⟩
        obtain ⟨c₁, c₂, rfl, -, rfl⟩ := List.map_eq_append_iff.mp hs.symm
        exact .inr ⟨c₂, (List.mem_tails _ _).mpr (List.suffix_append _ _), ih.mpr h⟩
    · rw [Wild.within_one_iff]
      cases child with
      | nil => simp [patternPartsSubset, star_ne_doubleStar]
      | cons childFirst childRest =>
        simp only [patternPartsSubset, if_neg star_ne_doubleStar, List.map_cons]
        by_cases hc : childFirst = doubleStar
        · simp [hc, wildOf_eq_many_iff.mpr, star_ne_doubleStar]
        · simp [hc, wildOf_eq_many_iff, ih]
    · rw [Wild.within_lit_iff]
      cases child with
      | nil => simp [patternPartsSubset, hmany]
      | cons childFirst childRest =>
        simp only [patternPartsSubset, if_neg hmany, if_neg hone, List.map_cons]
        rcases wildOf_cases childFirst with ⟨rfl, hc⟩ | ⟨rfl, hc⟩ | ⟨h₁, h₂, hc⟩
        · simp [hc, hmany]
        · simp [hc, star_ne_doubleStar]
        · rw [if_neg h₁, if_neg h₂, hc]
          split_ifs with h
          · subst h
            simp [ih]
          · simp [h]

/-! ### Method names -/

/-- The name with the given segments. -/
def joinSegments (segments : List Text) : String :=
  String.ofList (['/'].intercalate segments)

/-- Every list of segments is the list of some name, but for one empty segment alone. -/
lemma segments_joinSegments {parts : List Text} (hsep : ∀ part ∈ parts, '/' ∉ part)
    (hparts : parts ≠ [[]]) : segments (joinSegments parts) = parts := by
  by_cases hnil : parts = []
  · subst hnil
    rfl
  · have hsplit := List.splitOn_intercalate '/' hsep hnil
    have hne : ['/'].intercalate parts ≠ [] := by
      intro hempty
      rw [hempty] at hsplit
      exact hparts hsplit.symm
    rw [segments, joinSegments, String.toList_ofList, hsplit, if_neg]
    simpa using hne

lemma segments_ne_singleton_nil (s : String) : segments s ≠ [[]] := by
  rw [segments]
  split_ifs with hempty
  · simp
  · intro h
    have hs : ['/'].intercalate (s.toList.splitOn '/') = s.toList := List.intercalate_splitOn '/'
    rw [h] at hs
    exact hempty (by simpa using hs.symm)

lemma not_mem_of_mem_segments {s : String} {part : Text} (h : part ∈ segments s) : '/' ∉ part := by
  rw [segments] at h
  split_ifs at h
  · simp at h
  · exact Text.not_mem_of_mem_splitOn h

/-- A segment that a pattern does not have. -/
lemma exists_fresh (parts : List Text) :
    ∃ fresh : Text, fresh ∉ parts ∧ fresh ≠ [] ∧ '/' ∉ fresh := by
  obtain ⟨n, hn⟩ := Infinite.exists_notMem_finset (0 :: parts.map List.length).toFinset
  simp only [List.mem_toFinset, List.mem_cons, List.mem_map, not_or, not_exists, not_and] at hn
  refine ⟨List.replicate n 'a', ?_, by simpa using hn.1, by simp⟩
  intro hmem
  exact hn.2 _ hmem List.length_replicate

/-! ### Subsets -/

lemma methodMatchesPattern_iff {method pattern : String} :
    methodMatchesPattern method pattern ↔
      Wild.Matches ((segments pattern).map wildOf) (segments method) :=
  matchesParts_iff

lemma patternIsSubset_iff {child parent : String} :
    patternIsSubset child parent ↔
      Wild.Within ((segments child).map wildOf) ((segments parent).map wildOf) :=
  patternPartsSubset_iff

lemma methodMatchesPattern_of_subset {method child parent : String}
    (hsub : patternIsSubset child parent) (h : methodMatchesPattern method child) :
    methodMatchesPattern method parent := by
  rw [methodMatchesPattern_iff] at h ⊢
  exact (patternIsSubset_iff.mp hsub).sound h

/-- Without `**` in the child some method decides whether it is a subset. -/
lemma exists_deciding_method {child parent : String} (h : doubleStar ∉ segments child) :
    ∃ method, methodMatchesPattern method child ∧
      (methodMatchesPattern method parent → patternIsSubset child parent) := by
  obtain ⟨fresh, hfresh, hne, hsep⟩ := exists_fresh (segments parent)
  set word := ((segments child).map wildOf).map (Wild.fill fresh) with hword
  have hmany : Wild.many ∉ (segments child).map wildOf := by
    intro hmem
    obtain ⟨segment, hs, hw⟩ := List.mem_map.mp hmem
    rw [wildOf_eq_many_iff.mp hw] at hs
    exact h hs
  have hlit : Wild.lit fresh ∉ (segments parent).map wildOf := by
    intro hmem
    obtain ⟨segment, hs, hw⟩ := List.mem_map.mp hmem
    rw [eq_of_wildOf_eq_lit hw] at hs
    exact hfresh hs
  -- each segment of the method is the child's own or the fresh one
  have hfill (segment : Text) :
      (wildOf segment).fill fresh = segment ∨ (wildOf segment).fill fresh = fresh := by
    rcases wildOf_cases segment with ⟨-, hw⟩ | ⟨-, hw⟩ | ⟨-, -, hw⟩ <;> rw [hw]
    · exact .inr rfl
    · exact .inr rfl
    · exact .inl rfl
  have hparts : segments (joinSegments word) = word := by
    apply segments_joinSegments
    · intro part hpart
      rw [hword, List.map_map] at hpart
      obtain ⟨segment, hs, rfl⟩ := List.mem_map.mp hpart
      rcases hfill segment with hf | hf <;> rw [Function.comp_apply, hf]
      · exact not_mem_of_mem_segments hs
      · exact hsep
    · intro hsingle
      rw [hword, List.map_map, List.map_eq_singleton_iff] at hsingle
      obtain ⟨segment, hs, hempty⟩ := hsingle
      rcases hfill segment with hf | hf <;> rw [Function.comp_apply, hf] at hempty
      · exact segments_ne_singleton_nil child (by rw [hs, hempty])
      · exact hne hempty
  refine ⟨joinSegments word, ?_, ?_⟩
  · rw [methodMatchesPattern_iff, hparts]
    exact Wild.matches_fill fresh hmany
  · rw [methodMatchesPattern_iff, hparts]
    intro hparent
    exact patternIsSubset_iff.mpr (Wild.within_of_matches_fill hmany hlit hparent)

/-- The subset check never grants a method the parent pattern does not have, and refuses a child
without `**` only when it has such a method. -/
theorem patternIsSubset_exact (parent child : String) :
    (patternIsSubset child parent → ∀ method,
      methodMatchesPattern method child → methodMatchesPattern method parent) ∧
    (doubleStar ∉ segments child →
      (∀ method, methodMatchesPattern method child → methodMatchesPattern method parent) →
      patternIsSubset child parent) := by
  constructor
  · intro hsub method
    exact methodMatchesPattern_of_subset hsub
  · intro hchild hall
    obtain ⟨method, hmethod, hdecides⟩ := exists_deciding_method hchild
    exact hdecides (hall method hmethod)

/-- The subset check is a preorder, so a chain of accepted hops is accepted end to end. -/
theorem patternIsSubset_preorder :
    (∀ pattern, patternIsSubset pattern pattern) ∧
    (∀ a b c, patternIsSubset a b → patternIsSubset b c → patternIsSubset a c) ∧
    ∀ a b, Relation.ReflTransGen (fun child parent => patternIsSubset child parent) a b →
      patternIsSubset a b := by
  have hrefl (pattern : String) : patternIsSubset pattern pattern :=
    patternIsSubset_iff.mpr (Wild.Within.refl _)
  have htrans (a b c : String) (hab : patternIsSubset a b) (hbc : patternIsSubset b c) :
      patternIsSubset a c :=
    patternIsSubset_iff.mpr ((patternIsSubset_iff.mp hab).trans (patternIsSubset_iff.mp hbc))
  refine ⟨hrefl, htrans, ?_⟩
  intro a b h
  induction h with
  | refl => exact hrefl a
  | tail _ hbc ih => exact htrans _ _ _ ih hbc

example : patternIsSubset "api/*/users/*" "api/**/users/*" := by decide +kernel

end AmlaSandbox.Protocol
