import AmlaSandbox.Json.Value
import Mathlib.Data.List.Infix

/-!
# Constraints

Atomic and composite constraints on JSON parameters, their evaluation, and the comparison and
lookup helpers they share. `Constraint.Admits` says what a constraint asks of the parameters;
`Constraint.evaluate` is the code, which also reports why it failed.
-/

namespace AmlaSandbox.Constraints

open Json

/-- Constraint evaluation error. -/
inductive ConstraintError
  | missingParam (param : String)
  | typeMismatch (param expected actual : String)
  | violation (param rule actual : String)
deriving DecidableEq

/-- A constraint on JSON parameters; `and` and `or` have no parameter of their own. -/
inductive Constraint
  | lt (param : String) (value : Value)
  | le (param : String) (value : Value)
  | gt (param : String) (value : Value)
  | ge (param : String) (value : Value)
  | eq (param : String) (value : Value)
  | ne (param : String) (value : Value)
  | in (param : String) (values : List Value)
  | notIn (param : String) (values : List Value)
  | startsWith (param : String) (lead : String)
  | endsWith (param : String) (suffix : String)
  | contains (param : String) (substring : String)
  | exists (param : String)
  | notExists (param : String)
  | and (constraints : List Constraint)
  | or (constraints : List Constraint)

/-! ### Helper functions -/

/-- Look a parameter up; both `foo` and `/foo` name the same pointer. -/
def getParamOpt (params : Value) (path : String) : Option Value :=
  if path.toList.head? = some '/' then params.pointer path else params.pointer ("/" ++ path)

def getParam (params : Value) (path : String) : Except ConstraintError Value :=
  match getParamOpt params path with
  | some val => .ok val
  | none => .error (.missingParam path)

/-- A name that denotes itself as a JSON pointer. -/
def IsPlain (name : String) : Prop := '/' ∉ name.toList ∧ unescape name.toList = name.toList

lemma splitOn_of_notMem {sep : Char} {s : List Char} (h : sep ∉ s) : splitOn sep s = [s] := by
  induction s with
  | nil => rfl
  | cons c s ih =>
    obtain ⟨hne, hs⟩ := List.ne_and_not_mem_of_not_mem_cons h
    rw [splitOn, if_neg hne.symm, ih hs]

/-- A plain name is looked up as it is. -/
lemma getParamOpt_of_isPlain {map : List (String × Value)} {name : String} (h : IsPlain name) :
    getParamOpt (.object map) name = map.lookup name := by
  obtain ⟨hslash, hescape⟩ := h
  have hhead : name.toList.head? ≠ some '/' := fun hhead => hslash (List.mem_of_head? hhead)
  have hpath : ("/" ++ name).toList = '/' :: name.toList := by simp
  rw [getParamOpt, if_neg hhead, Value.pointer, hpath]
  dsimp only
  rw [if_pos rfl, splitOn, if_pos rfl, splitOn_of_notMem hslash, List.tail_cons, List.map_singleton,
    hescape]
  simp [Value.child]

def compareLt : Value → Value → Bool
  | .number a, .number b => a.asF64 < b.asF64
  | .string a, .string b => a < b
  | _, _ => false

def compareLe (a b : Value) : Bool := a = b || compareLt a b

def compareGt : Value → Value → Bool
  | .number a, .number b => a.asF64 > b.asF64
  | .string a, .string b => a > b
  | _, _ => false

def compareGe (a b : Value) : Bool := a = b || compareGt a b

lemma compareGt_eq (a b : Value) : compareGt a b = compareLt b a := by
  cases a <;> cases b <;> rfl

lemma compareGe_eq (a b : Value) : compareGe a b = compareLe b a := by
  simp only [compareGe, compareLe, compareGt_eq, eq_comm]

lemma compareLt_trans {a b c : Value} (hab : compareLt a b) (hbc : compareLt b c) :
    compareLt a c := by
  match a, b, c with
  | .number a, .number b, .number c =>
    simp only [compareLt, decide_eq_true_eq] at hab hbc ⊢
    exact lt_trans hab hbc
  | .string a, .string b, .string c =>
    simp only [compareLt, decide_eq_true_eq] at hab hbc ⊢
    exact String.lt_trans hab hbc
  | .number _, .number _, .null | .number _, .number _, .bool _ | .number _, .number _, .string _
  | .number _, .number _, .array _ | .number _, .number _, .object _
  | .string _, .string _, .null | .string _, .string _, .bool _ | .string _, .string _, .number _
  | .string _, .string _, .array _ | .string _, .string _, .object _ => simp [compareLt] at hbc
  | .null, _, _ | .bool _, _, _ | .array _, _, _ | .object _, _, _
  | .number _, .null, _ | .number _, .bool _, _ | .number _, .string _, _
  | .number _, .array _, _ | .number _, .object _, _
  | .string _, .null, _ | .string _, .bool _, _ | .string _, .number _, _
  | .string _, .array _, _ | .string _, .object _, _ => simp [compareLt] at hab

lemma compareLe_iff {a b : Value} : compareLe a b ↔ a = b ∨ compareLt a b := by
  simp [compareLe]

lemma compareLt_of_lt_of_le {a b c : Value} (hab : compareLt a b) (hbc : compareLe b c) :
    compareLt a c := by
  rcases compareLe_iff.mp hbc with rfl | hbc
  · exact hab
  · exact compareLt_trans hab hbc

lemma compareLe_trans {a b c : Value} (hab : compareLe a b) (hbc : compareLe b c) :
    compareLe a c := by
  rcases compareLe_iff.mp hab with rfl | hab
  · exact hbc
  · exact compareLe_iff.mpr (Or.inr (compareLt_of_lt_of_le hab hbc))

/-! ### What a constraint asks -/

/-- The parameter is present and its value satisfies `P`. -/
def HasParam (params : Value) (param : String) (P : Value → Prop) : Prop :=
  ∃ actual, getParamOpt params param = some actual ∧ P actual

/-- The parameter is present and is a string that satisfies `P`. -/
def HasString (params : Value) (param : String) (P : List Char → Prop) : Prop :=
  ∃ s, getParamOpt params param = some (.string s) ∧ P s.toList

lemma HasParam.mono {params : Value} {param : String} {P Q : Value → Prop}
    (h : HasParam params param P) (hPQ : ∀ v, P v → Q v) : HasParam params param Q := by
  obtain ⟨v, hv, hP⟩ := h
  exact ⟨v, hv, hPQ v hP⟩

lemma HasString.mono {params : Value} {param : String} {P Q : List Char → Prop}
    (h : HasString params param P) (hPQ : ∀ s, P s → Q s) : HasString params param Q := by
  obtain ⟨s, hs, hP⟩ := h
  exact ⟨s, hs, hPQ _ hP⟩

mutual
/-- The parameters satisfy the constraint. -/
def Constraint.Admits (params : Value) : Constraint → Prop
  | .lt p v => HasParam params p (compareLt · v)
  | .le p v => HasParam params p (compareLe · v)
  | .gt p v => HasParam params p (compareLt v ·)
  | .ge p v => HasParam params p (compareLe v ·)
  | .eq p v => HasParam params p (· = v)
  | .ne p v => HasParam params p (· ≠ v)
  | .in p vs => HasParam params p (· ∈ vs)
  | .notIn p vs => HasParam params p (· ∉ vs)
  | .startsWith p s => HasString params p (s.toList <+: ·)
  | .endsWith p s => HasString params p (s.toList <:+ ·)
  | .contains p s => HasString params p (s.toList <:+: ·)
  | .exists p => (getParamOpt params p).isSome
  | .notExists p => getParamOpt params p = none
  | .and cs => Constraint.AdmitsAll params cs
  | .or cs => Constraint.AdmitsSome params cs

def Constraint.AdmitsAll (params : Value) : List Constraint → Prop
  | [] => True
  | c :: cs => c.Admits params ∧ Constraint.AdmitsAll params cs

def Constraint.AdmitsSome (params : Value) : List Constraint → Prop
  | [] => False
  | c :: cs => c.Admits params ∨ Constraint.AdmitsSome params cs
end

lemma Constraint.admitsAll_iff {params : Value} {cs : List Constraint} :
    Constraint.AdmitsAll params cs ↔ ∀ c ∈ cs, c.Admits params := by
  induction cs with
  | nil => simp [AdmitsAll]
  | cons c cs ih => simp [AdmitsAll, ih]

lemma Constraint.admitsSome_iff {params : Value} {cs : List Constraint} :
    Constraint.AdmitsSome params cs ↔ ∃ c ∈ cs, c.Admits params := by
  induction cs with
  | nil => simp [AdmitsSome]
  | cons c cs ih => simp [AdmitsSome, ih]

/-! ### Evaluation -/

section Evaluation

/- `{:?}` of a JSON value, which error texts quote. -/
variable (debug : Value → String)

/-- `{:?}` of a slice of values. -/
def debugList (values : List Value) : String :=
  "[" ++ String.intercalate ", " (values.map debug) ++ "]"

def getParamString (params : Value) (path : String) : Except ConstraintError String := do
  let val ← getParam params path
  match val.asStr with
  | some s => pure s
  | none => throw (.typeMismatch path "string" (debug val))

/-- The body the value constraints share: fetch the parameter, then test it. -/
def checkParam (params : Value) (param rule : String) (test : Value → Bool) :
    Except ConstraintError Unit := do
  let actual ← getParam params param
  if test actual then pure () else throw (.violation param rule (debug actual))

/-- The body the string constraints share. -/
def checkString (params : Value) (param rule : String) (test : List Char → Bool) :
    Except ConstraintError Unit := do
  let actual ← getParamString debug params param
  if test actual.toList then pure () else throw (.violation param rule actual)

mutual
/-- Evaluate this constraint against the given parameters. -/
def Constraint.evaluate (params : Value) : Constraint → Except ConstraintError Unit
  | .exists p =>
    if (getParamOpt params p).isNone then .error (.missingParam p) else .ok ()
  | .notExists p =>
    match getParamOpt params p with
    | some val => .error (.violation p "must not exist" (debug val))
    | none => .ok ()
  | .lt p v => checkParam debug params p ("< " ++ debug v) (compareLt · v)
  | .le p v => checkParam debug params p ("<= " ++ debug v) (compareLe · v)
  | .gt p v => checkParam debug params p ("> " ++ debug v) (compareGt · v)
  | .ge p v => checkParam debug params p (">= " ++ debug v) (compareGe · v)
  | .eq p v => checkParam debug params p ("== " ++ debug v) (· = v)
  | .ne p v => checkParam debug params p ("!= " ++ debug v) (· ≠ v)
  | .in p vs => checkParam debug params p ("in " ++ debugList debug vs) (· ∈ vs)
  | .notIn p vs => checkParam debug params p ("not in " ++ debugList debug vs) (· ∉ vs)
  | .startsWith p s =>
    checkString debug params p ("starts with \"" ++ s ++ "\"") (s.toList <+: ·)
  | .endsWith p s => checkString debug params p ("ends with \"" ++ s ++ "\"") (s.toList <:+ ·)
  | .contains p s => checkString debug params p ("contains \"" ++ s ++ "\"") (s.toList <:+: ·)
  | .and cs => Constraint.evaluateAll params cs
  | .or cs =>
    Constraint.evaluateSome params cs
      (.violation "(or)" "at least one constraint must match" "empty Or")

/-- The loop of `and`: the first error ends it. -/
def Constraint.evaluateAll (params : Value) : List Constraint → Except ConstraintError Unit
  | [] => .ok ()
  | c :: cs => do
    Constraint.evaluate params c
    Constraint.evaluateAll params cs

/-- The loop of `or`, with the error to report if nothing else passes. -/
def Constraint.evaluateSome (params : Value) :
    List Constraint → ConstraintError → Except ConstraintError Unit
  | [], lastError => .error lastError
  | c :: cs, _ =>
    match Constraint.evaluate params c with
    | .ok () => .ok ()
    | .error e => Constraint.evaluateSome params cs e
end

lemma checkParam_ok_iff {params : Value} {param rule : String} {test : Value → Bool} :
    checkParam debug params param rule test = .ok () ↔
      HasParam params param fun v => test v := by
  simp only [checkParam, getParam, HasParam]
  cases getParamOpt params param with
  | none => simp [bind, Except.bind]
  | some v =>
    by_cases ht : test v <;> simp [bind, Except.bind, pure, Except.pure, ht]

lemma checkString_ok_iff {params : Value} {param rule : String} {test : List Char → Bool} :
    checkString debug params param rule test = .ok () ↔
      HasString params param fun s => test s := by
  simp only [checkString, getParamString, getParam, HasString]
  cases getParamOpt params param with
  | none => simp [bind, Except.bind]
  | some v =>
    cases v with
    | string s =>
      by_cases ht : test s.toList <;> simp [bind, Except.bind, pure, Except.pure, Value.asStr, ht]
    | _ => simp [bind, Except.bind, Value.asStr]

mutual
/-- The code accepts exactly the parameters the constraint asks for. -/
theorem Constraint.evaluate_ok_iff (params : Value) (c : Constraint) :
    c.evaluate debug params = .ok () ↔ c.Admits params := by
  match c with
  | .lt .. | .le .. | .eq .. | .ne .. | .in .. | .notIn .. =>
    simp [evaluate, Admits, checkParam_ok_iff]
  | .gt .. => simp [evaluate, Admits, checkParam_ok_iff, compareGt_eq]
  | .ge .. => simp [evaluate, Admits, checkParam_ok_iff, compareGe_eq]
  | .startsWith .. | .endsWith .. | .contains .. =>
    simp [evaluate, Admits, checkString_ok_iff]
  | .exists p =>
    cases h : getParamOpt params p <;> simp [evaluate, Admits, h]
  | .notExists p =>
    cases h : getParamOpt params p <;> simp [evaluate, Admits, h]
  | .and cs =>
    simp only [evaluate, Admits]
    exact Constraint.evaluateAll_ok_iff params cs
  | .or cs =>
    simp only [evaluate, Admits]
    exact Constraint.evaluateSome_ok_iff params cs _

theorem Constraint.evaluateAll_ok_iff (params : Value) (cs : List Constraint) :
    Constraint.evaluateAll debug params cs = .ok () ↔ Constraint.AdmitsAll params cs := by
  match cs with
  | [] => simp [evaluateAll, AdmitsAll]
  | c :: cs =>
    simp only [evaluateAll, AdmitsAll, ← Constraint.evaluate_ok_iff params c,
      ← Constraint.evaluateAll_ok_iff params cs]
    cases c.evaluate debug params <;> simp [bind, Except.bind]

theorem Constraint.evaluateSome_ok_iff (params : Value) (cs : List Constraint)
    (e : ConstraintError) :
    Constraint.evaluateSome debug params cs e = .ok () ↔ Constraint.AdmitsSome params cs := by
  match cs with
  | [] => simp [evaluateSome, AdmitsSome]
  | c :: cs =>
    simp only [evaluateSome, AdmitsSome, ← Constraint.evaluate_ok_iff params c]
    cases c.evaluate debug params with
    | ok u => simp
    | error e' => simpa using Constraint.evaluateSome_ok_iff params cs e'
end

end Evaluation

end AmlaSandbox.Constraints
