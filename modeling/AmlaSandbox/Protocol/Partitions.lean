import AmlaSandbox.Protocol.Capabilities
import AmlaSandbox.Text.Basic

/-!
# Partition patterns

Which keys a partition pattern matches and which patterns it contains, and what containment means
for the capability to write.
-/

namespace AmlaSandbox.Protocol

/-- Errors of capability operations. -/
inductive CapabilityError
  | constraintViolation (message : String)
  | partitionDenied (key : String)
  | typeNotAllowed (message : String)
deriving DecidableEq

/-- The string starts with the path and a separator. -/
def startsWithPath (s path : String) : Bool := (path ++ "/").toList.isPrefixOf s.toList

namespace PartitionPattern

def «matches» (self : PartitionPattern) (key : String) : Bool :=
  if key = self.lead then true
  else if self.mode = .exact then false
  else if !startsWithPath key self.lead then false
  else if self.mode = .recursive then true
  else
    let remainder := key.toList.drop (self.lead ++ "/").toList.length
    !remainder.contains '/'

def contains (self child : PartitionPattern) : Bool :=
  if !self.lead.toList.isPrefixOf child.lead.toList then false
  else if self.mode = .recursive then
    if child.lead = self.lead then true else startsWithPath child.lead self.lead
  else if self.mode = .exact then child.lead = self.lead && child.mode = .exact
  else
    match child.mode with
    | .exact =>
      if !startsWithPath child.lead self.lead then false
      else
        let remainder := child.lead.toList.drop (self.lead ++ "/").toList.length
        !remainder.contains '/'
    | .nonRecursive => child.lead = self.lead
    | .recursive => false

end PartitionPattern

/-- Check if a key and value size are allowed for writing. -/
def MemoryWriteCap.check (self : MemoryWriteCap) (key : String) (valueSize : USize) :
    Except CapabilityError Unit :=
  if !self.partition.matches key then .error (.partitionDenied key)
  else
    match self.maxValueBytes with
    | some max =>
      if valueSize.toUInt64 > max then
        .error (.constraintViolation s!"Value size {valueSize} exceeds maximum {max}")
      else .ok ()
    | none => .ok ()

def MemoryWriteCap.isSupersetOf (self child : MemoryWriteCap) : Bool :=
  if !self.partition.contains child.partition then false
  else
    match self.maxValueBytes, child.maxValueBytes with
    | none, _ => true
    | some _, none => false
    | some p, some c => p ≥ c

/-! ### Keys -/

/-- The keys of a pattern: its path, what lies directly below it, or anything below it. -/
inductive InPartition (lead : Text) : PatternMode → Text → Prop
  | self (mode : PatternMode) : InPartition lead mode lead
  | child (name : Text) : '/' ∉ name → InPartition lead .nonRecursive (lead ++ '/' :: name)
  | below (rest : Text) : InPartition lead .recursive (lead ++ '/' :: rest)

/-- The patterns that a pattern contains. -/
inductive Contained (lead : Text) : PatternMode → Text → PatternMode → Prop
  | exact : Contained lead .exact lead .exact
  | nonRecursive : Contained lead .nonRecursive lead .nonRecursive
  | child (name : Text) : '/' ∉ name →
    Contained lead .nonRecursive (lead ++ '/' :: name) .exact
  | self (mode : PatternMode) : Contained lead .recursive lead mode
  | below (rest : Text) (mode : PatternMode) :
    Contained lead .recursive (lead ++ '/' :: rest) mode

section Paths

variable {lead lead₁ lead₂ key : Text} {mode mode₁ mode₂ : PatternMode}

lemma inPartition_exact_iff : InPartition lead .exact key ↔ key = lead := by
  constructor
  · intro h
    cases h
    rfl
  · rintro rfl
    exact .self _

lemma inPartition_nonRecursive_iff : InPartition lead .nonRecursive key ↔
    key = lead ∨ ∃ name, key = lead ++ '/' :: name ∧ '/' ∉ name := by
  constructor
  · intro h
    cases h with
    | self => exact .inl rfl
    | child name hname => exact .inr ⟨name, rfl, hname⟩
  · rintro (rfl | ⟨name, rfl, hname⟩)
    · exact .self _
    · exact .child name hname

lemma inPartition_recursive_iff : InPartition lead .recursive key ↔
    key = lead ∨ ∃ rest, key = lead ++ '/' :: rest := by
  constructor
  · intro h
    cases h with
    | self => exact .inl rfl
    | below rest => exact .inr ⟨rest, rfl⟩
  · rintro (rfl | ⟨rest, rfl⟩)
    · exact .self _
    · exact .below rest

lemma contained_exact_iff : Contained lead .exact lead₁ mode₁ ↔
    lead₁ = lead ∧ mode₁ = .exact := by
  constructor
  · intro h
    cases h
    exact ⟨rfl, rfl⟩
  · rintro ⟨rfl, rfl⟩
    exact .exact

lemma contained_nonRecursive_iff : Contained lead .nonRecursive lead₁ mode₁ ↔
    (mode₁ = .exact ∧ ∃ name, lead₁ = lead ++ '/' :: name ∧ '/' ∉ name) ∨
    (mode₁ = .nonRecursive ∧ lead₁ = lead) := by
  constructor
  · intro h
    cases h with
    | nonRecursive => exact .inr ⟨rfl, rfl⟩
    | child name hname => exact .inl ⟨rfl, name, rfl, hname⟩
  · rintro (⟨rfl, name, rfl, hname⟩ | ⟨rfl, rfl⟩)
    · exact .child name hname
    · exact .nonRecursive

lemma contained_recursive_iff : Contained lead .recursive lead₁ mode₁ ↔
    lead₁ = lead ∨ ∃ rest, lead₁ = lead ++ '/' :: rest := by
  constructor
  · intro h
    cases h with
    | self => exact .inl rfl
    | below rest => exact .inr ⟨rest, rfl⟩
  · rintro (rfl | ⟨rest, rfl⟩)
    · exact .self _
    · exact .below rest _

theorem Contained.sound (h : Contained lead₁ mode₁ lead₂ mode₂)
    (hkey : InPartition lead₂ mode₂ key) :
    InPartition lead₁ mode₁ key := by
  cases h with
  | exact => exact hkey
  | nonRecursive => exact hkey
  | child name hname =>
    cases hkey
    exact .child name hname
  | self mode =>
    cases hkey with
    | self => exact .self _
    | child name _ => exact .below name
    | below rest => exact .below rest
  | below rest mode =>
    cases hkey with
    | self => exact .below rest
    | child name _ =>
      rw [List.append_assoc, List.cons_append]
      exact .below _
    | below rest' =>
      rw [List.append_assoc, List.cons_append]
      exact .below _

theorem Contained.refl (lead : Text) (mode : PatternMode) : Contained lead mode lead mode := by
  cases mode with
  | exact => exact .exact
  | nonRecursive => exact .nonRecursive
  | recursive => exact .self _

theorem Contained.trans (h : Contained lead mode lead₁ mode₁)
    (h' : Contained lead₁ mode₁ lead₂ mode₂) : Contained lead mode lead₂ mode₂ := by
  cases h with
  | exact => exact h'
  | nonRecursive => exact h'
  | child name hname =>
    cases h'
    exact .child name hname
  | self mode =>
    cases h' with
    | exact => exact .self _
    | nonRecursive => exact .self _
    | child name _ => exact .below name _
    | self => exact .self _
    | below rest => exact .below rest _
  | below rest mode =>
    cases h' with
    | exact => exact .below rest _
    | nonRecursive => exact .below rest _
    | child name _ =>
      rw [List.append_assoc, List.cons_append]
      exact .below _ _
    | self => exact .below rest _
    | below rest' =>
      rw [List.append_assoc, List.cons_append]
      exact .below _ _

end Paths

/-! ### The checks -/

lemma startsWithPath_iff {s path : String} :
    startsWithPath s path ↔ ∃ rest, s.toList = path.toList ++ '/' :: rest := by
  simp only [startsWithPath, List.isPrefixOf_iff_prefix, String.toList_append]
  constructor
  · rintro ⟨rest, h⟩
    exact ⟨rest, by simpa using h.symm⟩
  · rintro ⟨rest, h⟩
    exact ⟨rest, by simp [h]⟩

lemma prefix_of_startsWithPath {s path : String} (h : startsWithPath s path) :
    path.toList <+: s.toList := by
  obtain ⟨rest, hs⟩ := startsWithPath_iff.mp h
  exact ⟨'/' :: rest, hs.symm⟩

/-- One level below a path: what follows the separator has no separator. -/
lemma remainder_iff {s path : String} :
    (startsWithPath s path ∧ (s.toList.drop (path ++ "/").toList.length).contains '/' = false) ↔
      ∃ name, s.toList = path.toList ++ '/' :: name ∧ '/' ∉ name := by
  have hpath : (path ++ "/").toList = path.toList ++ ['/'] := String.toList_append
  have hdrop (rest : Text) :
      (path.toList ++ '/' :: rest).drop (path.toList ++ ['/']).length = rest := by
    rw [show path.toList ++ '/' :: rest = (path.toList ++ ['/']) ++ rest by simp, List.drop_left]
  rw [startsWithPath_iff, hpath]
  constructor
  · rintro ⟨⟨rest, hs⟩, hrest⟩
    rw [hs, hdrop] at hrest
    exact ⟨rest, hs, by simpa using hrest⟩
  · rintro ⟨name, hs, hname⟩
    refine ⟨⟨name, hs⟩, ?_⟩
    rw [hs, hdrop]
    simpa using hname

namespace PartitionPattern

theorem matches_iff {self : PartitionPattern} {key : String} :
    self.matches key ↔ InPartition self.lead.toList self.mode key.toList := by
  obtain ⟨lead, mode⟩ := self
  cases mode with
  | exact =>
    rw [inPartition_exact_iff, String.toList_inj]
    simp [PartitionPattern.matches]
  | nonRecursive =>
    rw [inPartition_nonRecursive_iff, ← remainder_iff, String.toList_inj]
    simp [PartitionPattern.matches]
  | recursive =>
    rw [inPartition_recursive_iff, ← startsWithPath_iff, String.toList_inj]
    simp [PartitionPattern.matches]

theorem contains_iff {self child : PartitionPattern} :
    self.contains child ↔
      Contained self.lead.toList self.mode child.lead.toList child.mode := by
  obtain ⟨lead, mode⟩ := self
  obtain ⟨lead₁, mode₁⟩ := child
  -- the first test of the source follows from what each branch asks for
  have hprefix : lead₁ = lead ∨ startsWithPath lead₁ lead → lead.toList <+: lead₁.toList := by
    rintro (rfl | h)
    · exact List.prefix_rfl
    · exact prefix_of_startsWithPath h
  cases mode with
  | exact =>
    rw [contained_exact_iff, String.toList_inj]
    simp only [PartitionPattern.contains]
    grind
  | nonRecursive =>
    rw [contained_nonRecursive_iff, ← remainder_iff, String.toList_inj]
    cases mode₁ <;> simp [PartitionPattern.contains]
    · grind
    · grind
  | recursive =>
    rw [contained_recursive_iff, ← startsWithPath_iff, String.toList_inj]
    simpa [PartitionPattern.contains] using hprefix

end PartitionPattern

theorem MemoryWriteCap.check_ok_iff {self : MemoryWriteCap} {key : String} {valueSize : USize} :
    self.check key valueSize = .ok () ↔
      self.partition.matches key ∧ ∀ max ∈ self.maxValueBytes, valueSize.toUInt64 ≤ max := by
  obtain ⟨partition, maxValueBytes⟩ := self
  rw [MemoryWriteCap.check]
  cases partition.matches key with
  | false => simp
  | true =>
    cases maxValueBytes with
    | none => simp
    | some max =>
      simp only [Bool.not_true, Bool.false_eq_true, if_false, true_and, Option.mem_def,
        Option.some.injEq, forall_eq']
      split_ifs with h
      · simpa using h
      · simpa using h

theorem MemoryWriteCap.isSupersetOf_iff {self child : MemoryWriteCap} :
    self.isSupersetOf child ↔
      self.partition.contains child.partition ∧
        ∀ p ∈ self.maxValueBytes, ∃ c ∈ child.maxValueBytes, c ≤ p := by
  obtain ⟨partition, maxValueBytes⟩ := self
  obtain ⟨partition₁, maxValueBytes₁⟩ := child
  rw [MemoryWriteCap.isSupersetOf]
  cases partition.contains partition₁ with
  | false => simp
  | true => cases maxValueBytes <;> cases maxValueBytes₁ <;> simp

/-- Containment of partition patterns is sound and a preorder, and a capability to write that is
accepted as a subset allows no write that its superset rejects. -/
theorem partitions_contained :
    (∀ (p q : PartitionPattern) (key : String), p.contains q → q.matches key → p.matches key) ∧
    (∀ p : PartitionPattern, p.contains p) ∧
    (∀ p q r : PartitionPattern, p.contains q → q.contains r → p.contains r) ∧
    ∀ (parent child : MemoryWriteCap) (key : String) (valueSize : USize),
      parent.isSupersetOf child → child.check key valueSize = .ok () →
        parent.check key valueSize = .ok () := by
  have hsound (p q : PartitionPattern) (key : String) (h : p.contains q) (hkey : q.matches key) :
      p.matches key := by
    rw [PartitionPattern.matches_iff] at hkey ⊢
    exact (PartitionPattern.contains_iff.mp h).sound hkey
  refine ⟨hsound, ?_, ?_, ?_⟩
  · intro p
    exact PartitionPattern.contains_iff.mpr (Contained.refl _ _)
  · intro p q r hpq hqr
    rw [PartitionPattern.contains_iff] at hpq hqr ⊢
    exact hpq.trans hqr
  · intro parent child key valueSize hsub hcheck
    rw [MemoryWriteCap.isSupersetOf_iff] at hsub
    rw [MemoryWriteCap.check_ok_iff] at hcheck ⊢
    refine ⟨hsound _ _ key hsub.1 hcheck.1, ?_⟩
    intro max hmax
    obtain ⟨c, hc, hle⟩ := hsub.2 max hmax
    exact UInt64.le_trans (hcheck.2 c hc) hle

end AmlaSandbox.Protocol
