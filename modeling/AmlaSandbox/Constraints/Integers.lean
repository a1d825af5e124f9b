import AmlaSandbox.Constraints.Basic
import AmlaSandbox.Json.Rounding

/-!
# Numeric constraints on integers

Order comparisons of JSON numbers are comparisons of doubles, while equality is exact. On integers
the order is only lost where two of them round to one double.
-/

namespace AmlaSandbox.Constraints

open Json

/-- The constraints with the integer bound `b` read the integer `a` at the path as they should. -/
structure ExactAt (debug : Value → String) (params : Value) (path : String) (a b : ℤ) : Prop where
  lt : (Constraint.lt path (.number (.ofInt b))).evaluate debug params = .ok () ↔ a < b
  le : (Constraint.le path (.number (.ofInt b))).evaluate debug params = .ok () ↔ a ≤ b
  gt : (Constraint.gt path (.number (.ofInt b))).evaluate debug params = .ok () ↔ a > b
  ge : (Constraint.ge path (.number (.ofInt b))).evaluate debug params = .ok () ↔ a ≥ b
  eq : (Constraint.eq path (.number (.ofInt b))).evaluate debug params = .ok () ↔ a = b
  ne : (Constraint.ne path (.number (.ofInt b))).evaluate debug params = .ok () ↔ a ≠ b

variable {debug : Value → String} {params : Value} {path : String} {a b : ℤ}

lemma hasParam_iff {v : Value} {P : Value → Prop} (h : getParamOpt params path = some v) :
    HasParam params path P ↔ P v := by
  simp [HasParam, h]

lemma compareLt_ofInt_iff (ha : InRange a) (hb : InRange b) :
    compareLt (.number (.ofInt a)) (.number (.ofInt b)) ↔ roundInt a < roundInt b := by
  rw [compareLt, decide_eq_true_iff]
  exact Number.asF64_ofInt_lt_iff ha hb

lemma compareLe_ofInt_iff (ha : InRange a) (hb : InRange b) :
    compareLe (.number (.ofInt a)) (.number (.ofInt b)) ↔ a = b ∨ roundInt a < roundInt b := by
  rw [compareLe_iff, compareLt_ofInt_iff ha hb, Value.number.injEq, Number.ofInt_inj ha hb]

/-- Rounding never turns the order around, so a comparison can only fail to see a difference. -/
lemma lt_of_roundInt_lt (h : roundInt a < roundInt b) : a < b := by
  by_contra hge
  exact absurd (roundInt_mono (not_lt.mp hge)) (not_le.mpr h)

/-- The comparisons are exact on two integers exactly when these are equal or round to different
doubles. -/
theorem exactAt_iff (debug : Value → String) (params : Value) (path : String) (a b : ℤ)
    (ha : InRange a) (hb : InRange b)
    (hparam : getParamOpt params path = some (.number (.ofInt a))) :
    ExactAt debug params path a b ↔ a = b ∨ roundInt a ≠ roundInt b := by
  have hlt : (Constraint.lt path (.number (.ofInt b))).evaluate debug params = .ok () ↔
      roundInt a < roundInt b := by
    rw [Constraint.evaluate_ok_iff, Constraint.Admits, hasParam_iff hparam]
    exact compareLt_ofInt_iff ha hb
  have hle : (Constraint.le path (.number (.ofInt b))).evaluate debug params = .ok () ↔
      a = b ∨ roundInt a < roundInt b := by
    rw [Constraint.evaluate_ok_iff, Constraint.Admits, hasParam_iff hparam]
    exact compareLe_ofInt_iff ha hb
  have hgt : (Constraint.gt path (.number (.ofInt b))).evaluate debug params = .ok () ↔
      roundInt b < roundInt a := by
    rw [Constraint.evaluate_ok_iff, Constraint.Admits, hasParam_iff hparam]
    exact compareLt_ofInt_iff hb ha
  have hge : (Constraint.ge path (.number (.ofInt b))).evaluate debug params = .ok () ↔
      b = a ∨ roundInt b < roundInt a := by
    rw [Constraint.evaluate_ok_iff, Constraint.Admits, hasParam_iff hparam]
    exact compareLe_ofInt_iff hb ha
  have heq : (Constraint.eq path (.number (.ofInt b))).evaluate debug params = .ok () ↔
      a = b := by
    rw [Constraint.evaluate_ok_iff, Constraint.Admits, hasParam_iff hparam, Value.number.injEq,
      Number.ofInt_inj ha hb]
  have hne : (Constraint.ne path (.number (.ofInt b))).evaluate debug params = .ok () ↔
      a ≠ b := by
    rw [Constraint.evaluate_ok_iff, Constraint.Admits, hasParam_iff hparam, ne_eq,
      Value.number.injEq, Number.ofInt_inj ha hb]
  constructor
  · intro h
    have hlt' := hlt.symm.trans h.lt
    have hgt' := hgt.symm.trans h.gt
    omega
  · intro h
    have hab := lt_of_roundInt_lt (a := a) (b := b)
    have hba := lt_of_roundInt_lt (a := b) (b := a)
    have hmono := roundInt_mono (k := a) (l := b)
    have hmono' := roundInt_mono (k := b) (l := a)
    exact ⟨hlt.trans (by omega), hle.trans (by omega), hgt.trans (by omega), hge.trans (by omega),
      heq, hne⟩

theorem exactAt_small : ExactAt (fun _ => "") (.object [("amount", .number (.ofInt 50))]) "amount"
    50 100 :=
  (exactAt_iff (fun _ => "") (.object [("amount", .number (.ofInt 50))]) "amount" 50 100
    (by decide) (by decide) (by decide +kernel)).mpr (.inr (by decide +kernel))

/-- The amount is one below the limit, and refused. -/
theorem not_exactAt :
    ¬ ExactAt (fun _ => "") (.object [("amount", .number (.ofInt 9007199254740992))]) "amount"
      9007199254740992 9007199254740993 := by
  intro h
  have hlt := h.lt
  revert hlt
  decide +kernel

end AmlaSandbox.Constraints
