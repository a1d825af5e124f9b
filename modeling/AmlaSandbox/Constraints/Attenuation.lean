import AmlaSandbox.Constraints.Subsumption
import Mathlib.Logic.Function.Basic

/-!
# Attenuation of constraint sets

`ConstraintSet.subsumes` is the check that a set passes which is derived from another one. It looks
for a parent of each child clause, so a parent clause that the child drops is never compared. A
child that keeps the clauses of its parent and adds further ones may be refused.
-/

namespace AmlaSandbox.Constraints

open Json

/-- A set of constraints with implicit AND semantics. -/
structure ConstraintSet where
  constraints : List Constraint

namespace ConstraintSet

/-- Evaluate all constraints against the given parameters. -/
def evaluate (debug : Value → String) (self : ConstraintSet) (params : Value) :
    Except ConstraintError Unit :=
  Constraint.evaluateAll debug params self.constraints

/-- The parent has a clause on one of these parameters. -/
def constrainsAny (self : ConstraintSet) (params : List String) : Bool :=
  params.any fun cp => self.constraints.any fun pc => cp ∈ pc.referencedParams

/-- Some parent clause subsumes the child clause, on its own parameter if it has one. -/
def subsumesClause (self : ConstraintSet) (child : Constraint) : Bool :=
  if child.paramName.isSome then
    self.constraints.any fun pc => pc.paramName = child.paramName && pc.subsumes child
  else
    self.constraints.any fun pc => pc.subsumes child

/-- Check if this constraint set subsumes another, as attenuation asks. -/
def subsumes (self child : ConstraintSet) : Bool :=
  child.constraints.all fun c =>
    if self.constrainsAny c.referencedParams then self.subsumesClause c else true

lemma subsumesClause_iff {self : ConstraintSet} {c : Constraint} :
    self.subsumesClause c ↔ ∃ pc ∈ self.constraints,
      (c.paramName.isSome → pc.paramName = c.paramName) ∧ pc.subsumes c := by
  rw [subsumesClause]
  split_ifs with h
  · simp [h]
  · simp [h]

lemma subsumes_iff {parent child : ConstraintSet} :
    parent.subsumes child ↔ ∀ c ∈ child.constraints,
      parent.constrainsAny c.referencedParams = false ∨ parent.subsumesClause c := by
  rw [subsumes, List.all_eq_true]
  apply forall_congr'
  intro c
  apply imp_congr_right
  intro _
  by_cases h : parent.constrainsAny c.referencedParams <;> simp [h]

/-- Some clause of the set implies the given parent clause. -/
def covers (self : ConstraintSet) (parent : Constraint) : Bool :=
  self.constraints.any parent.coveredBy

lemma evaluate_ok_iff {debug : Value → String} {self : ConstraintSet} {params : Value} :
    self.evaluate debug params = .ok () ↔ ∀ c ∈ self.constraints, c.Admits params := by
  rw [evaluate, Constraint.evaluateAll_ok_iff, Constraint.admitsAll_iff]

/-- A parent clause the child covers holds wherever the child does. -/
lemma admits_of_covers {debug : Value → String} {self : ConstraintSet} {params : Value}
    {pc : Constraint} (hcov : self.covers pc) (heval : self.evaluate debug params = .ok ()) :
    pc.Admits params := by
  rw [covers, List.any_eq_true] at hcov
  obtain ⟨c, hc, hpc⟩ := hcov
  exact Constraint.coveredBy_sound hpc (evaluate_ok_iff.mp heval c hc)

/-- What attenuation promises of a pair of sets at given parameters. -/
def Attenuates (debug : Value → String) (parent child : ConstraintSet) (params : Value) : Prop :=
  parent.subsumes child → child.evaluate debug params = .ok () →
    parent.evaluate debug params = .ok ()

lemma not_evaluate_ok_iff {debug : Value → String} {self : ConstraintSet} {params : Value} :
    self.evaluate debug params ≠ .ok () ↔
      ∃ c ∈ self.constraints, c.evaluate debug params ≠ .ok () := by
  simp only [ne_eq, evaluate_ok_iff, Constraint.evaluate_ok_iff]
  push Not
  rfl

/-- Where the child accepts, the parent accepts exactly if the clauses that the child leaves
uncovered do. -/
lemma evaluate_ok_iff_uncovered {debug : Value → String} {parent child : ConstraintSet}
    {params : Value} (heval : child.evaluate debug params = .ok ()) :
    parent.evaluate debug params = .ok () ↔
      ∀ pc ∈ parent.constraints, child.covers pc = false → pc.evaluate debug params = .ok () := by
  rw [evaluate_ok_iff]
  constructor
  · intro h pc hpc _
    exact (Constraint.evaluate_ok_iff debug params pc).mpr (h pc hpc)
  · intro h pc hpc
    by_cases hcov : child.covers pc
    · exact admits_of_covers hcov heval
    · exact (Constraint.evaluate_ok_iff debug params pc).mp
        (h pc hpc (Bool.eq_false_of_not_eq_true hcov))

/-! ### Clauses that a child keeps -/

/-- A clause of the set implies the given parent clause. -/
def Enforces (self : ConstraintSet) (parent : Constraint) : Prop :=
  ∃ c ∈ self.constraints, parent.soundlySubsumes c

/-- The child has a clause on the same parameter under the same name for which the check has this
clause of the parent only to compare it with, and which it does not let pass wrongly. -/
def Confronts (parent child : ConstraintSet) (pc : Constraint) : Prop :=
  ∃ c ∈ child.constraints, c.paramName.isSome ∧ pc.paramName = c.paramName ∧
    Constraint.SoleValue pc c ∧
    ∀ pc' ∈ parent.constraints, pc'.paramName = c.paramName → pc'.hasArm c → pc' = pc

/-- A clause of the parent is implied by the child, or compared with a clause of the child. -/
def Keeps (parent child : ConstraintSet) (pc : Constraint) : Prop :=
  child.Enforces pc ∨ parent.Confronts child pc

/-- One clause for each of several parameters, whose names are no paths. -/
structure IsSimple (cs : ConstraintSet) : Prop where
  plain : ∀ c ∈ cs.constraints, ∃ name, c.paramName = some name ∧ IsPlain name
  single : ∀ c ∈ cs.constraints, ∀ c' ∈ cs.constraints, c'.paramName = c.paramName → c' = c

lemma constrainsAny_of_mem {self : ConstraintSet} {pc c : Constraint} {param : String}
    (hpc : pc ∈ self.constraints) (hp : pc.paramName = some param)
    (hc : c.paramName = some param) : self.constrainsAny c.referencedParams := by
  rw [Constraint.referencedParams_of_paramName hc, constrainsAny]
  simp only [List.any_cons, List.any_nil, Bool.or_false, List.any_eq_true, decide_eq_true_eq]
  exact ⟨pc, hpc, by simp [Constraint.referencedParams_of_paramName hp]⟩

/-- The check refuses a clause of the child unless the parent clause that it is compared with
implies it. -/
lemma enforces_of_confronts {parent child : ConstraintSet} {pc : Constraint}
    (hsub : parent.subsumes child) (hpc : pc ∈ parent.constraints)
    (h : parent.Confronts child pc) : child.Enforces pc := by
  obtain ⟨c, hc, hplain, hname, hsole, honly⟩ := h
  obtain ⟨param, hparam⟩ := Option.isSome_iff_exists.mp hplain
  have hconstrains := constrainsAny_of_mem hpc (hname.trans hparam) hparam
  have hclause : parent.subsumesClause c := by
    rcases subsumes_iff.mp hsub c hc with hnone | hclause
    · exact absurd hconstrains (by simp [hnone])
    · exact hclause
  obtain ⟨pc', hpc', hname', hsubsumes⟩ := subsumesClause_iff.mp hclause
  rw [Constraint.subsumes, Constraint.subsumesWith_simple hplain, Bool.and_eq_true] at hsubsumes
  obtain rfl := honly pc' hpc' (hname' hplain) (Constraint.hasArm_of_subsumesSameParam hsubsumes.2)
  refine ⟨c, hc, ?_⟩
  rw [Constraint.soundlySubsumes, Constraint.subsumesWith_simple hplain, Bool.and_eq_true]
  exact ⟨hsubsumes.1, Constraint.narrowsOrSole_iff.mpr ⟨hsubsumes.2, hsole⟩⟩

/-- The check keeps its promise to a parent whose clauses the child keeps. -/
lemma attenuates_of_keeps {debug : Value → String} {parent child : ConstraintSet}
    (hkeeps : ∀ pc ∈ parent.constraints, parent.Keeps child pc) (params : Value) :
    Attenuates debug parent child params := by
  intro hsub heval
  rw [evaluate_ok_iff] at heval ⊢
  intro pc hpc
  have henforces : child.Enforces pc := by
    rcases hkeeps pc hpc with henforces | hconfronts
    · exact henforces
    · exact enforces_of_confronts hsub hpc hconfronts
  obtain ⟨c, hc, hpc⟩ := henforces
  exact Constraint.subsumesWith_sound Constraint.ruleSound_narrowsOrSole pc c hpc (heval c hc)

/-! ### Clauses that a child does not keep -/

/-- Parameters whose values are those of `f` at the given names. -/
def assign (f : String → Option Value) (names : List String) : Value :=
  .object (names.filterMap fun name => (f name).map (name, ·))

lemma getParamOpt_assign {f : String → Option Value} {names : List String} {name : String}
    (hplain : IsPlain name) (hmem : name ∈ names) :
    getParamOpt (assign f names) name = f name := by
  have hlookup (names : List String) :
      (names.filterMap fun name => (f name).map (name, ·)).lookup name =
        if name ∈ names then f name else none := by
    induction names with
    | nil => rfl
    | cons other names ih =>
      by_cases hother : name = other
      · subst hother
        cases hf : f name <;> simp [hf, ih]
      · cases hf : f other <;> simp [hf, ih, hother, List.lookup_cons, beq_false_of_ne hother]
  rw [assign, getParamOpt_of_isPlain hplain, hlookup, if_pos hmem]

/-- What a plain clause asks depends on the value of its parameter. -/
lemma admits_congr {c : Constraint} {params params' : Value} {name : String}
    (hname : c.paramName = some name)
    (h : getParamOpt params name = getParamOpt params' name) :
    c.Admits params ↔ c.Admits params' := by
  cases c with
  | and | or => simp [Constraint.paramName] at hname
  | _ =>
    cases hname
    simp only [Constraint.Admits, HasParam, HasString, h]

/-- Any plain clause is violated by a missing parameter, or by some value. -/
lemma exists_violation {pc : Constraint} {name : String} (hname : pc.paramName = some name) :
    ∃ v : Option Value, ∀ params, getParamOpt params name = v → ¬ pc.Admits params := by
  cases pc with
  | and | or => simp [Constraint.paramName] at hname
  | notExists =>
    cases hname
    exact ⟨some .null, fun params h => by simp [Constraint.Admits, h]⟩
  | _ =>
    cases hname
    exact ⟨none, fun params h => by simp [Constraint.Admits, HasParam, HasString, h]⟩

/-- A comparison that lets another value pass than that of the equality. -/
lemma exists_between {pc c : Constraint} {name : String} (hp : pc.paramName = some name)
    (hc : c.paramName = some name) (h : ¬ Constraint.SoleValue pc c) :
    ∃ v, ∀ params, getParamOpt params name = some v → c.Admits params ∧ ¬ pc.Admits params := by
  cases pc with
  | eq _ value =>
    cases c with
    | lt | le | gt | ge =>
      cases hp
      cases hc
      simp only [Constraint.SoleValue, not_forall] at h
      obtain ⟨v, hv, hne⟩ := h
      refine ⟨v, fun params hparams => ?_⟩
      simp only [Constraint.Admits, HasParam, hparams, Option.some.injEq, exists_eq_left']
      exact ⟨by simpa [compareGt_eq, compareGe_eq] using hv, hne⟩
    | _ => exact absurd trivial h
  | _ => exact absurd trivial h

/-- Simple sets: the child can be satisfied together with any value of one parameter that passes
its clause on it, so a clause of the parent that it does not keep is not implied. -/
lemma keeps_of_attenuates {debug : Value → String} {parent child : ConstraintSet}
    (hparent : parent.IsSimple) (hchild : child.IsSimple) (hsub : parent.subsumes child)
    {start : Value} (hstart : child.evaluate debug start = .ok ())
    (h : ∀ params, Attenuates debug parent child params) :
    ∀ pc ∈ parent.constraints, parent.Keeps child pc := by
  intro pc hpc
  by_contra hnot
  obtain ⟨name, hname, hplain⟩ := hparent.plain pc hpc
  rw [evaluate_ok_iff] at hstart
  -- a value of the parameter that the parent rejects and the child does not
  obtain ⟨v, hrejects, hpasses⟩ : ∃ v : Option Value,
      (∀ params, getParamOpt params name = v → ¬ pc.Admits params) ∧
      ∀ c ∈ child.constraints, c.paramName = some name →
        ∀ params, getParamOpt params name = v → c.Admits params := by
    by_cases hnamed : ∃ c ∈ child.constraints, c.paramName = some name
    · obtain ⟨c, hc, hcname⟩ := hnamed
      have hsole : ¬ Constraint.SoleValue pc c := by
        intro hsole
        refine hnot (.inr ⟨c, hc, by rw [hcname]; rfl, hname.trans hcname.symm, hsole, ?_⟩)
        intro pc' hpc' hname' _
        exact hparent.single pc hpc pc' hpc' (hname'.trans (hcname.trans hname.symm))
      obtain ⟨v, hv⟩ := exists_between hname hcname hsole
      refine ⟨some v, fun params hparams => (hv params hparams).2, fun c' hc' hname' => ?_⟩
      obtain rfl := hchild.single c hc c' hc' (hname'.trans hcname.symm)
      exact fun params hparams => (hv params hparams).1
    · obtain ⟨v, hv⟩ := exists_violation hname
      exact ⟨v, hv, fun c hc hcname => absurd ⟨c, hc, hcname⟩ hnamed⟩
  have hlookup {other : String} (hother : IsPlain other)
      (hmem : other ∈ name :: child.constraints.filterMap Constraint.paramName) :=
    getParamOpt_assign (f := Function.update (getParamOpt start) name v) hother hmem
  have hrejected := hrejects _ ((hlookup hplain List.mem_cons_self).trans
    (Function.update_self ..))
  refine hrejected (evaluate_ok_iff.mp (h _ hsub (evaluate_ok_iff.mpr fun c hc => ?_)) pc hpc)
  obtain ⟨other, hother, hotherPlain⟩ := hchild.plain c hc
  have hmem : other ∈ child.constraints.filterMap Constraint.paramName :=
    List.mem_filterMap.mpr ⟨c, hc, hother⟩
  have hvalue := hlookup hotherPlain (List.mem_cons_of_mem name hmem)
  by_cases hsame : other = name
  · subst hsame
    exact hpasses c hc hother _ (hvalue.trans (Function.update_self ..))
  · rw [Function.update_of_ne hsame] at hvalue
    exact (admits_congr hother hvalue).mpr (hstart c hc)

/-- A child that passes the check admits no more than its parent if it keeps every clause of the
parent. Simple children that can be satisfied admit no more only then. -/
theorem attenuates_iff_keeps (debug : Value → String) :
    (∀ parent child : ConstraintSet, (∀ pc ∈ parent.constraints, parent.Keeps child pc) →
      ∀ params, Attenuates debug parent child params) ∧
    ∀ parent child : ConstraintSet, parent.IsSimple → child.IsSimple → parent.subsumes child →
      (∃ params, child.evaluate debug params = .ok ()) →
      ((∀ params, Attenuates debug parent child params) ↔
        ∀ pc ∈ parent.constraints, parent.Keeps child pc) := by
  refine ⟨fun _ _ hkeeps => attenuates_of_keeps hkeeps, ?_⟩
  rintro parent child hparent hchild hsub ⟨start, hstart⟩
  constructor
  · exact keeps_of_attenuates hparent hchild hsub hstart
  · exact attenuates_of_keeps

/-- The empty child, a child that spells the path `/amount`, and a child with a bound where the
parent has an equality all pass the check and admit what the parent rejects. -/
theorem not_attenuates :
    let debug := fun _ : Value => ""
    let limit : ConstraintSet := ⟨[.le "amount" (.number (.posInt 100))]⟩
    let respelled : ConstraintSet := ⟨[.le "/amount" (.number (.posInt 1000))]⟩
    let exact : ConstraintSet := ⟨[.eq "amount" (.number (.posInt 100))]⟩
    let bounded : ConstraintSet := ⟨[.le "amount" (.number (.posInt 1000))]⟩
    let params := Value.object [("amount", .number (.posInt 200))]
    ¬ Attenuates debug limit ⟨[]⟩ params ∧ ¬ Attenuates debug limit respelled params ∧
      ¬ Attenuates debug exact bounded params := by
  simp only [Attenuates]
  decide +kernel

/-! ### Attenuation by conjunction -/

/-- Merge another constraint set into this one (conjunction). -/
def extend (self other : ConstraintSet) : ConstraintSet := ⟨self.constraints ++ other.constraints⟩

/-- Create a new constraint set by merging two sets. -/
def merge (self other : ConstraintSet) : ConstraintSet := self.extend other

/-- The merged set accepts what both sets accept. -/
theorem merge_evaluate_ok_iff {debug : Value → String} {self other : ConstraintSet}
    {params : Value} : (self.merge other).evaluate debug params = .ok () ↔
      self.evaluate debug params = .ok () ∧ other.evaluate debug params = .ok () := by
  simp only [evaluate_ok_iff, merge, extend, List.mem_append]
  constructor
  · intro h
    exact ⟨fun c hc => h c (.inl hc), fun c hc => h c (.inr hc)⟩
  · rintro ⟨hself, hother⟩ c (hc | hc)
    · exact hself c hc
    · exact hother c hc

lemma subsumesClause_of_mem {self : ConstraintSet} {c : Constraint} (hc : c ∈ self.constraints) :
    self.subsumesClause c := by
  rw [subsumesClause]
  split_ifs
  · exact List.any_eq_true.mpr ⟨c, hc, by simp [Constraint.subsumes_self]⟩
  · exact List.any_eq_true.mpr ⟨c, hc, Constraint.subsumes_self c⟩

lemma constrainsAny_eq_false_iff {self : ConstraintSet} {params : List String} :
    self.constrainsAny params = false ↔
      ∀ param ∈ params, ∀ pc ∈ self.constraints, param ∉ pc.referencedParams := by
  simp [constrainsAny]

/-- The clauses that a child inherits never stand in the way, so a conjunction passes the check
exactly when each added clause is on parameters that the parent leaves alone or is subsumed by a
parent clause. -/
theorem subsumes_merge_iff (parent extra : ConstraintSet) :
    parent.subsumes (parent.merge extra) ↔
      ∀ c ∈ extra.constraints,
        (∀ param ∈ c.referencedParams, ∀ pc ∈ parent.constraints, param ∉ pc.referencedParams) ∨
        ∃ pc ∈ parent.constraints,
          (c.paramName.isSome → pc.paramName = c.paramName) ∧ pc.subsumes c := by
  simp only [← constrainsAny_eq_false_iff, ← subsumesClause_iff, ← subsumes_iff]
  constructor
  · intro h
    rw [subsumes_iff] at h ⊢
    intro c hc
    exact h c (List.mem_append_right _ hc)
  · intro h
    rw [subsumes_iff] at h ⊢
    intro c hc
    rcases List.mem_append.mp hc with hc | hc
    · exact .inr (subsumesClause_of_mem hc)
    · exact h c hc

/-- A lower bound next to the parent's upper bound is refused. -/
theorem not_subsumes_merge :
    let parent : ConstraintSet := ⟨[.le "amount" (.number (.posInt 100))]⟩
    let extra : ConstraintSet := ⟨[.ge "amount" (.number (.posInt 10))]⟩
    ¬ parent.subsumes (parent.merge extra) := by
  decide +kernel

end ConstraintSet

end AmlaSandbox.Constraints
