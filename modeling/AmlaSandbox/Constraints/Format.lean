import AmlaSandbox.Constraints.Basic

/-!
# The serialised form of constraints

`Constraint` is serialised as an object with its variant under `type` and the variant's fields
beside it. `Constraint.fromValue` decodes that form and `Constraint.toValue` produces it.
-/

namespace AmlaSandbox.Constraints

open Json

def stringField (map : List (String × Value)) (field : String) : Option String :=
  (map.lookup field).bind Value.asStr

def arrayField (map : List (String × Value)) (field : String) : Option (List Value) :=
  match map.lookup field with
  | some (.array values) => some values
  | _ => none

/-! ### Decoding -/

/-- The variant named `type`, from the fields of the object; `nested` is the decoded content of
its field `constraints`. -/
def Constraint.fromFields (map : List (String × Value)) (nested : Option (List Constraint))
    (type : String) : Option Constraint :=
  let param := stringField map "param"
  let value := map.lookup "value"
  let values := arrayField map "values"
  match type with
  | "Lt" => .lt <$> param <*> value
  | "Le" => .le <$> param <*> value
  | "Gt" => .gt <$> param <*> value
  | "Ge" => .ge <$> param <*> value
  | "Eq" => .eq <$> param <*> value
  | "Ne" => .ne <$> param <*> value
  | "In" => .in <$> param <*> values
  | "NotIn" => .notIn <$> param <*> values
  | "StartsWith" => .startsWith <$> param <*> stringField map "prefix"
  | "EndsWith" => .endsWith <$> param <*> stringField map "suffix"
  | "Contains" => .contains <$> param <*> stringField map "substring"
  | "Exists" => .exists <$> param
  | "NotExists" => .notExists <$> param
  | "And" => .and <$> nested
  | "Or" => .or <$> nested
  | _ => none

mutual
/-- Decode a constraint; fields that the variant does not have are ignored. -/
def Constraint.fromValue : Value → Option Constraint
  | .object map =>
    (stringField map "type").bind (Constraint.fromFields map (Constraint.nestedField map))
  | _ => none

/-- The constraints under the key `constraints`. -/
def Constraint.nestedField : List (String × Value) → Option (List Constraint)
  | [] => none
  | (key, value) :: map =>
    if key = "constraints" then Constraint.fromArray value else Constraint.nestedField map

/-- Decode an array of constraints, which is also the form of a `ConstraintSet`. -/
def Constraint.fromArray : Value → Option (List Constraint)
  | .array values => Constraint.fromValues values
  | _ => none

def Constraint.fromValues : List Value → Option (List Constraint)
  | [] => some []
  | value :: values =>
    (Constraint.fromValue value).bind fun c => (Constraint.fromValues values).map (c :: ·)
end

/-- The variant name is required. -/
lemma Constraint.fromValue_untagged {map : List (String × Value)} (h : map.lookup "type" = none) :
    Constraint.fromValue (.object map) = none := by
  simp [fromValue, stringField, h]

/-! ### Encoding -/

mutual
def Constraint.toValue : Constraint → Value
  | .lt p v => .object [("param", .string p), ("type", .string "Lt"), ("value", v)]
  | .le p v => .object [("param", .string p), ("type", .string "Le"), ("value", v)]
  | .gt p v => .object [("param", .string p), ("type", .string "Gt"), ("value", v)]
  | .ge p v => .object [("param", .string p), ("type", .string "Ge"), ("value", v)]
  | .eq p v => .object [("param", .string p), ("type", .string "Eq"), ("value", v)]
  | .ne p v => .object [("param", .string p), ("type", .string "Ne"), ("value", v)]
  | .in p vs => .object [("param", .string p), ("type", .string "In"), ("values", .array vs)]
  | .notIn p vs => .object [("param", .string p), ("type", .string "NotIn"), ("values", .array vs)]
  | .startsWith p s =>
    .object [("param", .string p), ("prefix", .string s), ("type", .string "StartsWith")]
  | .endsWith p s =>
    .object [("param", .string p), ("suffix", .string s), ("type", .string "EndsWith")]
  | .contains p s =>
    .object [("param", .string p), ("substring", .string s), ("type", .string "Contains")]
  | .exists p => .object [("param", .string p), ("type", .string "Exists")]
  | .notExists p => .object [("param", .string p), ("type", .string "NotExists")]
  | .and cs => .object [("constraints", .array (Constraint.toValues cs)), ("type", .string "And")]
  | .or cs => .object [("constraints", .array (Constraint.toValues cs)), ("type", .string "Or")]

def Constraint.toValues : List Constraint → List Value
  | [] => []
  | c :: cs => c.toValue :: Constraint.toValues cs
end

mutual
/-- A serialised constraint decodes to itself. -/
theorem Constraint.fromValue_toValue (c : Constraint) :
    Constraint.fromValue c.toValue = some c := by
  match c with
  | .lt .. | .le .. | .gt .. | .ge .. | .eq .. | .ne .. | .in .. | .notIn .. | .startsWith ..
  | .endsWith .. | .contains .. | .exists .. | .notExists .. =>
    simp [toValue, fromValue, fromFields, stringField, arrayField, List.lookup_cons,
      Value.asStr]
  | .and cs | .or cs =>
    simp [toValue, fromValue, nestedField, fromArray, Constraint.fromValues_toValues cs,
      fromFields, stringField, List.lookup_cons, Value.asStr]

theorem Constraint.fromValues_toValues (cs : List Constraint) :
    Constraint.fromValues (Constraint.toValues cs) = some cs := by
  match cs with
  | [] => simp [toValues, fromValues]
  | c :: cs =>
    simp [toValues, fromValues, Constraint.fromValue_toValue c, Constraint.fromValues_toValues cs]
end

example : Constraint.fromValue (.object [("param", .string "amount"), ("type", .string "Exists")])
    = some (.exists "amount") := by rfl

end AmlaSandbox.Constraints
