import AmlaSandbox.Constraints.Attenuation
import AmlaSandbox.Protocol.Partitions
import AmlaSandbox.Protocol.Patterns

/-!
# Method capabilities

A capability to call the methods of a pattern, with constraints on the parameters and a budget of
calls, and the validator of transitions between such capabilities.
-/

namespace AmlaSandbox.Constraints

def ConstraintError.toString : ConstraintError → String
  | .missingParam param => "Missing parameter: " ++ param
  | .typeMismatch param expected actual =>
    "Type mismatch for " ++ param ++ ": expected " ++ expected ++ ", got " ++ actual
  | .violation param rule actual =>
    "Constraint violation: " ++ param ++ " " ++ rule ++ ", actual: " ++ actual

end AmlaSandbox.Constraints

namespace AmlaSandbox.Protocol

open Library Json Constraints

def CapabilityError.toString : CapabilityError → String
  | .constraintViolation message => "Constraint violation: " ++ message
  | .partitionDenied key => "Partition access denied: " ++ key
  | .typeNotAllowed message => "Capability type not allowed: " ++ message

def methodCapabilityType : String := "method"

/-- Capability protecting JSON-RPC method calls. -/
structure MethodCapability where
  methodPattern : String
  constraints : ConstraintSet
  maxCalls : Option UInt32
  inputSchema : Option Value

namespace MethodCapability

section Calls

/- `{:?}` of a JSON value, which error texts quote. -/
variable (debug : Value → String)

/-- The budget of calls is tracked elsewhere. -/
def validateCall (self : MethodCapability) (method : String) (params : Value) :
    Except CapabilityError Unit := do
  failIf (!methodMatchesPattern method self.methodPattern) (.constraintViolation
    ("method '" ++ method ++ "' does not match pattern '" ++ self.methodPattern ++ "'"))
  (self.constraints.evaluate debug params).mapError fun e => .constraintViolation e.toString

end Calls

/-- The input schemas are not compared. -/
def isSubsetOf (self parent : MethodCapability) : Bool :=
  if !patternIsSubset self.methodPattern parent.methodPattern then false
  else if !parent.constraints.subsumes self.constraints then false
  else
    match parent.maxCalls, self.maxCalls with
    | some parentMax, some childMax => !(childMax > parentMax)
    | some _, none => false
    | none, _ => true

/-! ### Decoding -/

/-- The field `constraints`, empty by default. -/
def constraintsField (map : List (String × Value)) : Option ConstraintSet :=
  match map.lookup "constraints" with
  | none => some ⟨[]⟩
  | some value => (Constraint.fromArray value).map .mk

/-- The field `max_calls`, of type `Option<u32>`. -/
def maxCallsField (map : List (String × Value)) : Option (Option UInt32) :=
  match map.lookup "max_calls" with
  | none | some .null => some none
  | some (.number (.posInt n)) => if n.toNat < 2 ^ 32 then some (some n.toUInt32) else none
  | some _ => none

/-- The field `input_schema`, of type `Option<Value>`. -/
def inputSchemaField (map : List (String × Value)) : Option Value :=
  match map.lookup "input_schema" with
  | none | some .null => none
  | some value => some value

def fromValue : Value → Option MethodCapability :=
  fromObject fun map => return {
    methodPattern := ← stringField map "method_pattern"
    constraints := ← constraintsField map
    maxCalls := ← maxCallsField map
    inputSchema := inputSchemaField map }

section Decode

/- What the decoder says of a payload that it does not decode. -/
variable (codec : Codec) (decodeError : Bytes → String)

def fromCapabilityData (data : CapabilityData) : Except CapabilityError MethodCapability := do
  failIf (data.capabilityType ≠ methodCapabilityType) (.typeNotAllowed
    ("expected type '" ++ methodCapabilityType ++ "', got '" ++ data.capabilityType ++ "'"))
  okOr ((codec.decode data.data).bind fromValue)
    (.constraintViolation ("failed to decode: " ++ decodeError data.data))

end Decode

end MethodCapability

/-- `MethodValidator`. -/
def methodValidator (codec : Codec) (decodeError : Bytes → String) : TransitionValidator :=
  fun parent child => do
    failIf (parent.capabilityType ≠ methodCapabilityType) ⟨"expected parent type '" ++
      methodCapabilityType ++ "', got '" ++ parent.capabilityType ++ "'"⟩
    failIf (child.capabilityType ≠ methodCapabilityType) ⟨"expected child type '" ++
      methodCapabilityType ++ "', got '" ++ child.capabilityType ++ "'"⟩
    let parentCap ← (MethodCapability.fromCapabilityData codec decodeError parent).mapError
      fun e => ⟨"decode parent: " ++ e.toString⟩
    let childCap ← (MethodCapability.fromCapabilityData codec decodeError child).mapError
      fun e => ⟨"decode child: " ++ e.toString⟩
    failIf (!childCap.isSubsetOf parentCap) ⟨"child is not a valid attenuation of parent"⟩

namespace MethodCapability

/-! ### What the checks mean -/

/-- The call budget of the first capability does not exceed that of the second. -/
def BudgetWithin (child parent : MethodCapability) : Prop :=
  ∀ parentMax ∈ parent.maxCalls, ∃ childMax ∈ child.maxCalls, childMax ≤ parentMax

theorem isSubsetOf_iff {child parent : MethodCapability} :
    child.isSubsetOf parent ↔
      patternIsSubset child.methodPattern parent.methodPattern ∧
        parent.constraints.subsumes child.constraints ∧ BudgetWithin child parent := by
  obtain ⟨pattern, constraints, maxCalls, _⟩ := parent
  obtain ⟨pattern', constraints', maxCalls', _⟩ := child
  simp only [isSubsetOf, BudgetWithin]
  cases patternIsSubset pattern' pattern with
  | false => simp
  | true =>
    cases constraints.subsumes constraints' with
    | false => simp
    | true => cases maxCalls <;> cases maxCalls' <;> simp

theorem validateCall_eq_ok {debug : Value → String} {self : MethodCapability} {method : String}
    {params : Value} :
    self.validateCall debug method params = .ok () ↔
      methodMatchesPattern method self.methodPattern ∧
        self.constraints.evaluate debug params = .ok () := by
  simp only [validateCall, bind_eq_ok, exists_unit, failIf_eq_ok, mapError_eq_ok]
  simp

lemma fromCapabilityData_type {codec : Codec} {decodeError : Bytes → String}
    {data : CapabilityData} {cap : MethodCapability}
    (h : fromCapabilityData codec decodeError data = .ok cap) :
    data.capabilityType = methodCapabilityType := by
  simp only [fromCapabilityData, bind_eq_ok, exists_unit, failIf_eq_ok, not_not] at h
  exact h.1

/-- On the data of two method capabilities the validator decides `isSubsetOf`. -/
theorem methodValidator_eq_ok {codec : Codec} {decodeError : Bytes → String}
    {parentData childData : CapabilityData} {parent child : MethodCapability}
    (hparent : fromCapabilityData codec decodeError parentData = .ok parent)
    (hchild : fromCapabilityData codec decodeError childData = .ok child) :
    methodValidator codec decodeError parentData childData = .ok () ↔ child.isSubsetOf parent := by
  simp only [methodValidator, bind_eq_ok, exists_unit, failIf_eq_ok, mapError_eq_ok,
    fromCapabilityData_type hparent, fromCapabilityData_type hchild, hparent, hchild]
  simp

/-- What the validator promises at one call: within the budget, nothing that the child allows is
refused by the parent. -/
def PromiseAt (debug : Value → String) (parent child : MethodCapability) (method : String)
    (params : Value) : Prop :=
  BudgetWithin child parent ∧ (child.validateCall debug method params = .ok () →
    parent.validateCall debug method params = .ok ())

/-- An accepted transition keeps its promise at a call exactly if the parent clauses that the child
leaves uncovered accept the parameters, or the child refuses the call. Patterns and budgets are
compared soundly. -/
theorem promiseAt_iff (codec : Codec) (decodeError : Bytes → String) (debug : Value → String)
    (parentData childData : CapabilityData) (parent child : MethodCapability)
    (hparent : fromCapabilityData codec decodeError parentData = .ok parent)
    (hchild : fromCapabilityData codec decodeError childData = .ok child)
    (haccept : methodValidator codec decodeError parentData childData = .ok ())
    (method : String) (params : Value) :
    PromiseAt debug parent child method params ↔
      methodMatchesPattern method child.methodPattern = false ∨
      (∃ c ∈ child.constraints.constraints, c.evaluate debug params ≠ .ok ()) ∨
      ∀ pc ∈ parent.constraints.constraints, child.constraints.covers pc = false →
        pc.evaluate debug params = .ok () := by
  obtain ⟨hpattern, -, hbudget⟩ :=
    isSubsetOf_iff.mp ((methodValidator_eq_ok hparent hchild).mp haccept)
  rw [← ConstraintSet.not_evaluate_ok_iff, PromiseAt]
  simp only [hbudget, true_and, validateCall_eq_ok]
  by_cases hmethod : methodMatchesPattern method child.methodPattern
  · have hparentMethod := methodMatchesPattern_of_subset hpattern hmethod
    by_cases heval : child.constraints.evaluate debug params = .ok ()
    · simp [hmethod, hparentMethod, heval, ConstraintSet.evaluate_ok_iff_uncovered heval]
    · simp [heval]
  · simp [hmethod]

/-! ### A plain and a limited capability -/

/-- Any parameters. -/
def plain : MethodCapability := ⟨"a", ⟨[]⟩, none, none⟩

/-- At most 100 of `x`. -/
def limited : MethodCapability := ⟨"a", ⟨[.le "x" (.number (.posInt 100))]⟩, none, none⟩

/-- The CBOR of `{"method_pattern": "a"}`. -/
def plainData : Bytes :=
  [0xa1, 0x6e, 0x6d, 0x65, 0x74, 0x68, 0x6f, 0x64, 0x5f, 0x70, 0x61, 0x74, 0x74, 0x65, 0x72, 0x6e,
    0x61, 0x61]

/-- The CBOR of the limited capability, its limit under `constraints`. -/
def limitedData : Bytes :=
  [0xa2, 0x6b, 0x63, 0x6f, 0x6e, 0x73, 0x74, 0x72, 0x61, 0x69, 0x6e, 0x74, 0x73, 0x81, 0xa3,
    0x64, 0x74, 0x79, 0x70, 0x65, 0x62, 0x4c, 0x65, 0x65, 0x70, 0x61, 0x72, 0x61, 0x6d, 0x61, 0x78,
    0x65, 0x76, 0x61, 0x6c, 0x75, 0x65, 0x18, 0x64, 0x6e, 0x6d, 0x65, 0x74, 0x68, 0x6f, 0x64, 0x5f,
    0x70, 0x61, 0x74, 0x74, 0x65, 0x72, 0x6e, 0x61, 0x61]

/-- The codec on these two payloads. -/
def twoPayloads : Codec where
  encode _ := []
  decode bytes :=
    if bytes = plainData then some (.object [("method_pattern", .string "a")])
    else if bytes = limitedData then
      some (.object [
        ("constraints", .array [.object [("param", .string "x"), ("type", .string "Le"),
          ("value", .number (.posInt 100))]]),
        ("method_pattern", .string "a")])
    else none
  toCbor _ := []
  fromCbor _ := none

lemma fromCapabilityData_plain :
    fromCapabilityData twoPayloads (fun _ => "") ⟨"cap:method:a", "method", plainData⟩ =
      .ok plain := by
  rfl

lemma fromCapabilityData_limited :
    fromCapabilityData twoPayloads (fun _ => "") ⟨"cap:method:a", "method", limitedData⟩ =
      .ok limited := by
  rfl

/-- A child with the limit of its parent, and a call that it allows. -/
theorem promiseAt_limited :
    limited.validateCall (fun _ => "") "a" (.object [("x", .number (.posInt 50))]) = .ok () ∧
      PromiseAt (fun _ => "") limited limited "a" (.object [("x", .number (.posInt 50))]) := by
  refine ⟨by decide +kernel, (promiseAt_iff twoPayloads (fun _ => "") (fun _ => "")
    ⟨"cap:method:a", "method", limitedData⟩ ⟨"cap:method:a", "method", limitedData⟩ limited limited
    fromCapabilityData_limited fromCapabilityData_limited (by decide +kernel) "a"
    (.object [("x", .number (.posInt 50))])).mpr (.inr (.inr fun pc hpc _ => ?_))⟩
  obtain rfl := List.mem_singleton.mp hpc
  decide +kernel

/-- A child that drops the limit is accepted, and allows what its parent refuses. -/
theorem not_promiseAt_plain :
    methodValidator twoPayloads (fun _ => "") ⟨"cap:method:a", "method", limitedData⟩
        ⟨"cap:method:a", "method", plainData⟩ = .ok () ∧
      fromCapabilityData twoPayloads (fun _ => "") ⟨"cap:method:a", "method", limitedData⟩ =
        .ok limited ∧
      fromCapabilityData twoPayloads (fun _ => "") ⟨"cap:method:a", "method", plainData⟩ =
        .ok plain ∧
      ¬ PromiseAt (fun _ => "") limited plain "a" (.object [("x", .number (.posInt 200))]) := by
  refine ⟨by decide +kernel, fromCapabilityData_limited, fromCapabilityData_plain, ?_⟩
  intro h
  have hparent := h.2 (by decide +kernel)
  revert hparent
  decide +kernel

end MethodCapability

end AmlaSandbox.Protocol
