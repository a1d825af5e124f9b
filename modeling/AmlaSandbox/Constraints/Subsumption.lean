import AmlaSandbox.Constraints.Basic

/-!
# Subsumption of constraints

`Constraint.subsumes` compares two clauses, and promises that what satisfies the other clause
satisfies this one. The promise is broken where an equality subsumes a comparison that other values
than its own pass; without these arms the comparison is sound. `Constraint.coveredBy` leaves all
equalities over a comparison out, `Constraint.soundlySubsumes` only those that break the promise.
-/

namespace AmlaSandbox.Constraints

open Json

/-! ### Parameters with a given value -/

/-- The value at the end of a path of object keys. -/
def nest : List (List Char) → Value → Value
  | [], v => v
  | token :: tokens, v => .object [(String.ofList token, nest tokens v)]

lemma foldlM_child_nest (tokens : List (List Char)) (v : Value) :
    tokens.foldlM Value.child (nest tokens v) = some v := by
  induction tokens with
  | nil => rfl
  | cons token tokens ih =>
    rw [List.foldlM_cons, nest, Value.child, List.lookup_cons_self]
    exact ih

lemma exists_pointer {pointer : String} (h : pointer.toList.head? = some '/') (v : Value) :
    ∃ params : Value, params.pointer pointer = some v := by
  obtain ⟨rest, hrest⟩ := List.head?_eq_some_iff.mp h
  refine ⟨nest ((splitOn '/' ('/' :: rest)).tail.map unescape) v, ?_⟩
  rw [Value.pointer, hrest]
  exact foldlM_child_nest _ v

/-- Every path leads to any value in some parameters. -/
lemma exists_getParamOpt (path : String) (v : Value) :
    ∃ params, getParamOpt params path = some v := by
  by_cases h : path.toList.head? = some '/'
  · obtain ⟨params, hparams⟩ := exists_pointer h v
    exact ⟨params, by rw [getParamOpt, if_pos h, hparams]⟩
  · have hslash : ("/" ++ path).toList.head? = some '/' := by simp
    obtain ⟨params, hparams⟩ := exists_pointer hslash v
    exact ⟨params, by rw [getParamOpt, if_neg h, hparams]⟩

namespace Constraint

/-- The parameter a constraint applies to; `none` for the composite ones. -/
def paramName : Constraint → Option String
  | .lt param _ | .le param _ | .gt param _ | .ge param _ | .eq param _ | .ne param _
  | .in param _ | .notIn param _ | .startsWith param _ | .endsWith param _ | .contains param _
  | .exists param | .notExists param => some param
  | .and _ | .or _ => none

mutual
/-- All parameter names a constraint refers to, nested ones included. -/
def referencedParams : Constraint → List String
  | .lt param _ | .le param _ | .gt param _ | .ge param _ | .eq param _ | .ne param _
  | .in param _ | .notIn param _ | .startsWith param _ | .endsWith param _ | .contains param _
  | .exists param | .notExists param => [param]
  | .and cs | .or cs => referencedParamsList cs

def referencedParamsList : List Constraint → List String
  | [] => []
  | c :: cs => referencedParams c ++ referencedParamsList cs
end

/-- Subsumption for constraints on the same parameter. -/
def subsumesSameParam : Constraint → Constraint → Bool
  | .lt _ p, .lt _ c => compareLe c p
  | .le _ p, .le _ c | .le _ p, .eq _ c => compareLe c p
  | .gt _ p, .gt _ c => compareGe c p
  | .ge _ p, .ge _ c | .ge _ p, .eq _ c => compareGe c p
  | .eq _ p, .eq _ c | .ne _ p, .ne _ c => p = c
  | .in _ p, .in _ c => c.all (· ∈ p)
  | .notIn _ p, .notIn _ c => p.all (· ∈ c)
  | .startsWith _ p, .startsWith _ c => p.toList <+: c.toList
  | .endsWith _ p, .endsWith _ c => p.toList <:+ c.toList
  | .contains _ p, .contains _ c => p.toList <:+: c.toList
  | .exists _, .exists _ | .notExists _, .notExists _ => true
  | .eq _ value, .lt _ c => compareLt value c
  | .eq _ value, .le _ c => compareLe value c
  | .eq _ value, .gt _ c => compareGt value c
  | .eq _ value, .ge _ c => compareGe value c
  | _, _ => false

/-- `subsumesSameParam` has an arm for the two kinds of clauses. -/
def hasArm : Constraint → Constraint → Bool
  | .lt .., .lt .. | .le .., .le .. | .le .., .eq .. | .gt .., .gt .. | .ge .., .ge ..
  | .ge .., .eq .. | .eq .., .eq .. | .ne .., .ne .. | .in .., .in .. | .notIn .., .notIn ..
  | .startsWith .., .startsWith .. | .endsWith .., .endsWith .. | .contains .., .contains ..
  | .exists _, .exists _ | .notExists _, .notExists _
  | .eq .., .lt .. | .eq .., .le .. | .eq .., .gt .. | .eq .., .ge .. => true
  | _, _ => false

lemma hasArm_of_subsumesSameParam {p c : Constraint} (h : subsumesSameParam p c) :
    p.hasArm c := by
  revert h
  fun_cases subsumesSameParam p c <;> simp_all [hasArm]

/-- The last arm of `subsumes`: both constraints have a parameter, the same one. -/
def sameParam (self other : Constraint) : Bool :=
  match self.paramName, other.paramName with
  | some selfParam, some otherParam => selfParam = otherParam
  | _, _ => false

mutual
/-- The composite cases of `subsumes` over a given rule for clauses on the same parameter. -/
def subsumesWith (rule : Constraint → Constraint → Bool) : Constraint → Constraint → Bool
  | .and p, .and c => p.all fun pc => subsumesSome rule pc c
  | .or p, .or c => eachSubsumed rule p c
  | single, .and c => single.paramName.isSome && subsumesSome rule single c
  | single, .or c => single.paramName.isSome && subsumesEvery rule single c
  | self, other => sameParam self other && rule self other
termination_by structural _ other => other

/-- `cs.iter().any(|c| self.subsumes(c))` -/
def subsumesSome (rule : Constraint → Constraint → Bool) : Constraint → List Constraint → Bool
  | _, [] => false
  | self, c :: cs => subsumesWith rule self c || subsumesSome rule self cs
termination_by structural _ cs => cs

/-- `cs.iter().all(|c| self.subsumes(c))` -/
def subsumesEvery (rule : Constraint → Constraint → Bool) : Constraint → List Constraint → Bool
  | _, [] => true
  | self, c :: cs => subsumesWith rule self c && subsumesEvery rule self cs
termination_by structural _ cs => cs

/-- `cs.iter().all(|cc| p.iter().any(|pc| pc.subsumes(cc)))` -/
def eachSubsumed (rule : Constraint → Constraint → Bool) :
    List Constraint → List Constraint → Bool
  | _, [] => true
  | p, c :: cs => p.any (fun pc => subsumesWith rule pc c) && eachSubsumed rule p cs
termination_by structural _ cs => cs
end

/-- Check if this constraint subsumes another. -/
def subsumes : Constraint → Constraint → Bool := subsumesWith subsumesSameParam

/-- The arms that let an equality subsume a comparison its value passes. -/
def eqOverComparison : Constraint → Constraint → Bool
  | .eq .., .lt .. | .eq .., .le .. | .eq .., .gt .. | .eq .., .ge .. => true
  | _, _ => false

/-- The other arms of `subsumesSameParam`. -/
def narrows (self other : Constraint) : Bool :=
  !eqOverComparison self other && subsumesSameParam self other

/-- `subsumes` without the `eqOverComparison` arms. -/
def coveredBy : Constraint → Constraint → Bool := subsumesWith narrows

/-! ### Soundness of the clause rules -/

/-- A clause rule is sound if on one parameter it only relates a parent to narrower children. -/
def RuleSound (rule : Constraint → Constraint → Bool) : Prop :=
  ∀ p c params, sameParam p c → rule p c → c.Admits params → p.Admits params

lemma sameParam_iff {p c : Constraint} :
    sameParam p c ↔ ∃ param, p.paramName = some param ∧ c.paramName = some param := by
  simp only [sameParam]
  cases p.paramName <;> cases c.paramName <;> simp [eq_comm]

lemma ruleSound_narrows : RuleSound narrows := by
  intro p c params hparam hnarrow hc
  obtain ⟨param, hp, hcp⟩ := sameParam_iff.mp hparam
  obtain ⟨hne, hrule⟩ := Bool.and_eq_true_iff.mp hnarrow
  clear hparam hnarrow
  fun_cases subsumesSameParam p c <;>
    simp only [subsumesSameParam, eqOverComparison, paramName, Option.some.injEq, Bool.not_true,
      decide_eq_true_eq, List.all_eq_true, compareGe_eq, reduceCtorEq] at hne hrule hp hcp <;>
    subst hp <;> subst hcp
  case case1 => exact hc.mono fun v hv => compareLt_of_lt_of_le hv hrule
  case case2 => exact hc.mono fun v hv => compareLe_trans hv hrule
  case case3 => exact hc.mono fun v hv => hv ▸ hrule
  case case4 =>
    apply hc.mono
    intro v hv
    rcases compareLe_iff.mp hrule with rfl | hlt
    · exact hv
    · exact compareLt_trans hlt hv
  case case5 => exact hc.mono fun v hv => compareLe_trans hrule hv
  case case6 => exact hc.mono fun v hv => hv ▸ hrule
  case case7 | case8 => exact hrule ▸ hc
  case case9 => exact hc.mono fun v hv => hrule v hv
  case case10 => exact hc.mono fun v hv hmem => hv (hrule v hmem)
  case case11 | case12 | case13 => exact hc.mono fun s hs => hrule.trans hs
  case case14 | case15 => exact hc

lemma subsumesWith_simple {rule : Constraint → Constraint → Bool} {p c : Constraint}
    (hc : c.paramName.isSome) : subsumesWith rule p c = (sameParam p c && rule p c) := by
  cases c with
  | and | or => simp [paramName] at hc
  | _ => cases p <;> rfl

mutual
/-- The composite cases keep a sound clause rule sound. -/
theorem subsumesWith_sound {rule : Constraint → Constraint → Bool} (hrule : RuleSound rule)
    {params : Value} (p c : Constraint) (h : subsumesWith rule p c) (hc : c.Admits params) :
    p.Admits params := by
  match c with
  | .and cs =>
    rw [Admits] at hc
    cases p with
    | and ps =>
      simp only [subsumesWith, List.all_eq_true] at h
      rw [Admits, admitsAll_iff]
      exact fun pc hpc => subsumesSome_sound hrule pc cs (h pc hpc) hc
    | or ps => simp [subsumesWith, paramName] at h
    | _ =>
      simp only [subsumesWith, paramName, Option.isSome_some, Bool.true_and] at h
      exact subsumesSome_sound hrule _ cs h hc
  | .or cs =>
    rw [Admits] at hc
    cases p with
    | and ps => simp [subsumesWith, paramName] at h
    | or ps =>
      rw [subsumesWith] at h
      rw [Admits]
      exact eachSubsumed_sound hrule ps cs h hc
    | _ =>
      simp only [subsumesWith, paramName, Option.isSome_some, Bool.true_and] at h
      exact subsumesEvery_sound hrule _ cs h hc
  | .lt .. | .le .. | .gt .. | .ge .. | .eq .. | .ne .. | .in .. | .notIn .. | .startsWith ..
  | .endsWith .. | .contains .. | .exists _ | .notExists _ =>
    rw [subsumesWith_simple rfl, Bool.and_eq_true] at h
    exact hrule p _ params h.1 h.2 hc
termination_by structural c

theorem subsumesSome_sound {rule : Constraint → Constraint → Bool} (hrule : RuleSound rule)
    {params : Value} (p : Constraint) (cs : List Constraint) (h : subsumesSome rule p cs)
    (hcs : AdmitsAll params cs) : p.Admits params := by
  match cs with
  | [] => simp [subsumesSome] at h
  | c :: cs =>
    rw [AdmitsAll] at hcs
    rw [subsumesSome, Bool.or_eq_true] at h
    rcases h with h | h
    · exact subsumesWith_sound hrule p c h hcs.1
    · exact subsumesSome_sound hrule p cs h hcs.2
termination_by structural cs

theorem subsumesEvery_sound {rule : Constraint → Constraint → Bool} (hrule : RuleSound rule)
    {params : Value} (p : Constraint) (cs : List Constraint) (h : subsumesEvery rule p cs)
    (hcs : AdmitsSome params cs) : p.Admits params := by
  match cs with
  | [] => simp [AdmitsSome] at hcs
  | c :: cs =>
    rw [AdmitsSome] at hcs
    rw [subsumesEvery, Bool.and_eq_true] at h
    rcases hcs with hc | hcs
    · exact subsumesWith_sound hrule p c h.1 hc
    · exact subsumesEvery_sound hrule p cs h.2 hcs
termination_by structural cs

theorem eachSubsumed_sound {rule : Constraint → Constraint → Bool} (hrule : RuleSound rule)
    {params : Value} (ps cs : List Constraint) (h : eachSubsumed rule ps cs)
    (hcs : AdmitsSome params cs) : AdmitsSome params ps := by
  match cs with
  | [] => simp [AdmitsSome] at hcs
  | c :: cs =>
    rw [AdmitsSome] at hcs
    rw [eachSubsumed, Bool.and_eq_true, List.any_eq_true] at h
    rcases hcs with hc | hcs
    · obtain ⟨pc, hpc, hsub⟩ := h.1
      exact admitsSome_iff.mpr ⟨pc, hpc, subsumesWith_sound hrule pc c hsub hc⟩
    · exact eachSubsumed_sound hrule ps cs h.2 hcs
termination_by structural cs
end

lemma referencedParams_of_paramName {c : Constraint} {param : String}
    (h : c.paramName = some param) : c.referencedParams = [param] := by
  cases c with
  | and | or => cases h
  | _ =>
    cases h
    rfl

theorem coveredBy_sound {params : Value} {p c : Constraint} (h : p.coveredBy c)
    (hc : c.Admits params) : p.Admits params :=
  subsumesWith_sound ruleSound_narrows p c h hc

/-! ### The promise -/

/-- What `subsumes` promises of a pair of constraints. -/
def SoundOver (debug : Value → String) (self other : Constraint) : Prop :=
  self.subsumes other → ∀ params, other.evaluate debug params = .ok () →
    self.evaluate debug params = .ok ()

/-- No value but that of the equality passes the comparison. -/
def SoleValue : Constraint → Constraint → Prop
  | .eq _ value, .lt _ c => ∀ v, compareLt v c → v = value
  | .eq _ value, .le _ c => ∀ v, compareLe v c → v = value
  | .eq _ value, .gt _ c => ∀ v, compareGt v c → v = value
  | .eq _ value, .ge _ c => ∀ v, compareGe v c → v = value
  | _, _ => True

open Classical in
/-- The arms of `subsumesSameParam`, those of an equality over a comparison only where the
comparison leaves nothing but its value. -/
noncomputable def narrowsOrSole (self other : Constraint) : Bool :=
  subsumesSameParam self other && decide (SoleValue self other)

noncomputable def soundlySubsumes : Constraint → Constraint → Bool := subsumesWith narrowsOrSole

lemma narrowsOrSole_iff {p c : Constraint} :
    narrowsOrSole p c ↔ subsumesSameParam p c ∧ SoleValue p c := by
  simp [narrowsOrSole]

lemma ruleSound_narrowsOrSole : RuleSound narrowsOrSole := by
  intro p c params hparam hrule hc
  obtain ⟨hsub, hsole⟩ := narrowsOrSole_iff.mp hrule
  cases heq : eqOverComparison p c with
  | false => exact ruleSound_narrows p c params hparam (by simp [narrows, heq, hsub]) hc
  | true =>
    obtain ⟨param, hp, hcp⟩ := sameParam_iff.mp hparam
    cases p with
    | eq =>
      cases c with
      | lt | le | gt | ge =>
        cases hp
        cases hcp
        exact hc.mono fun v hv => hsole v (by simpa [compareGt_eq, compareGe_eq] using hv)
      | _ => simp [eqOverComparison] at heq
    | _ => simp [eqOverComparison] at heq

/-- A plain pair that keeps the promise has no other value to let pass. -/
lemma soleValue_of_soundOver {debug : Value → String} {p c : Constraint}
    (hparam : sameParam p c) (h : ∀ params, c.evaluate debug params = .ok () →
      p.evaluate debug params = .ok ()) : SoleValue p c := by
  simp only [evaluate_ok_iff] at h
  obtain ⟨param, hp, hcp⟩ := sameParam_iff.mp hparam
  cases p with
  | eq _ value =>
    cases c with
    | lt | le | gt | ge =>
      cases hp
      cases hcp
      intro v hv
      obtain ⟨params, hparams⟩ := exists_getParamOpt param v
      obtain ⟨v', hv', heq⟩ := h params ⟨v, hparams, by simpa [compareGt_eq, compareGe_eq] using hv⟩
      rw [hparams] at hv'
      cases hv'
      exact heq
    | _ => trivial
  | _ => trivial

/-- The promise holds of every pair whose acceptance survives without the equalities over a
comparison that lets another value pass, and of plain constraints only if they are no such pair. -/
theorem soundOver_iff (debug : Value → String) :
    (∀ p c : Constraint, (p.subsumes c → p.soundlySubsumes c) → SoundOver debug p c) ∧
    ∀ p c : Constraint, p.paramName.isSome → c.paramName.isSome →
      (SoundOver debug p c ↔ (sameParam p c → subsumesSameParam p c → SoleValue p c)) := by
  have hsound (p c : Constraint) (h : p.subsumes c → p.soundlySubsumes c) :
      SoundOver debug p c := by
    intro hsub params hc
    rw [evaluate_ok_iff] at hc ⊢
    exact subsumesWith_sound ruleSound_narrowsOrSole p c (h hsub) hc
  refine ⟨hsound, ?_⟩
  intro p c _ hplain
  have hsub : p.subsumes c ↔ sameParam p c ∧ subsumesSameParam p c := by
    rw [subsumes, subsumesWith_simple hplain, Bool.and_eq_true]
  constructor
  · intro h hparam hrule
    exact soleValue_of_soundOver hparam (h (hsub.mpr ⟨hparam, hrule⟩))
  · intro h
    apply hsound
    intro hpc
    obtain ⟨hparam, hrule⟩ := hsub.mp hpc
    rw [soundlySubsumes, subsumesWith_simple hplain, Bool.and_eq_true]
    exact ⟨hparam, narrowsOrSole_iff.mpr ⟨hrule, h hparam hrule⟩⟩

/-- An equality subsumes a bound above its value. -/
theorem not_soundOver :
    ¬ SoundOver (fun _ => "") (.eq "x" (.number (.posInt 50)))
      (.lt "x" (.number (.posInt 100))) := by
  intro h
  have hparent := h (by decide +kernel) (.object [("x", .number (.posInt 30))]) (by decide +kernel)
  revert hparent
  decide +kernel

/-! ### A clause subsumes itself -/

lemma compareLe_refl (v : Value) : compareLe v v := compareLe_iff.mpr (.inl rfl)

lemma subsumesSameParam_self {c : Constraint} (h : c.paramName.isSome) : subsumesSameParam c c := by
  cases c with
  | and | or => simp [paramName] at h
  | lt _ v | le _ v => exact compareLe_refl v
  | gt _ v | ge _ v => exact (compareGe_eq v v).trans (compareLe_refl v)
  | _ => simp [subsumesSameParam]

lemma subsumesSome_iff {rule : Constraint → Constraint → Bool} {p : Constraint}
    {cs : List Constraint} : subsumesSome rule p cs ↔ ∃ c ∈ cs, subsumesWith rule p c := by
  induction cs with
  | nil => simp [subsumesSome]
  | cons c cs ih => simp [subsumesSome, ih]

lemma eachSubsumed_iff {rule : Constraint → Constraint → Bool} {ps cs : List Constraint} :
    eachSubsumed rule ps cs ↔ ∀ c ∈ cs, ∃ p ∈ ps, subsumesWith rule p c := by
  induction cs with
  | nil => simp [eachSubsumed]
  | cons c cs ih => simp [eachSubsumed, ih]

mutual
theorem subsumes_self (c : Constraint) : c.subsumes c := by
  match c with
  | .and cs =>
    rw [subsumes, subsumesWith, List.all_eq_true]
    intro c hc
    exact subsumesSome_iff.mpr ⟨c, hc, subsumes_self_of_mem cs c hc⟩
  | .or cs =>
    rw [subsumes, subsumesWith, eachSubsumed_iff]
    intro c hc
    exact ⟨c, hc, subsumes_self_of_mem cs c hc⟩
  | .lt .. | .le .. | .gt .. | .ge .. | .eq .. | .ne .. | .in .. | .notIn .. | .startsWith ..
  | .endsWith .. | .contains .. | .exists _ | .notExists _ =>
    rw [subsumes, subsumesWith_simple rfl, subsumesSameParam_self rfl]
    simp [sameParam, paramName]
termination_by structural c

theorem subsumes_self_of_mem (cs : List Constraint) : ∀ c ∈ cs, c.subsumes c := by
  match cs with
  | [] => simp
  | c :: cs =>
    intro c' hc'
    rcases List.mem_cons.mp hc' with heq | hc'
    · rw [heq]
      exact subsumes_self c
    · exact subsumes_self_of_mem cs c' hc'
termination_by structural cs
end

end Constraint

end AmlaSandbox.Constraints
