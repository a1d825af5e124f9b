import AmlaSandbox.Json.Value
import AmlaSandbox.Text.Numbers
import AmlaSandbox.Tools.Catalog
import Mathlib.Data.List.AList

/-!
# tool

The arguments of `tool` are read as parameters of the tool: each name takes the next argument for
its value, which is converted by the type that the tool declares. `--json` is an option of its own.
-/

namespace AmlaSandbox.Commands.Tool

open Json Text Tools

/-! ### Numbers -/

/-- A number without a sign, in units of `2 ^ (-1074)`. -/
def parseMagnitude (s : Text) : Option ℕ :=
  (parseDecimal s).map fun (n, exponent) =>
    roundQuotient (n * 10 ^ exponent.toNat) (10 ^ (-exponent).toNat)

instance (k : ℤ) : Decidable (IsFinite k) :=
  inferInstanceAs (Decidable (∃ e < 2046, 2 ^ e ∣ k.natAbs ∧ k.natAbs < 2 ^ (53 + e)))

/-- `str::parse::<f64>`; the number is `none` where it is infinite or not a number. -/
def parseF64 (s : Text) : Option (Option F64) :=
  let body := if s.head? = some '-' ∨ s.head? = some '+' then s.tail else s
  let lower := body.map Char.toLower
  if lower = "inf".toList ∨ lower = "infinity".toList ∨ lower = "nan".toList then some none
  else (parseMagnitude body).map fun magnitude =>
    let units : ℤ := if s.head? = some '-' then -magnitude else magnitude
    if h : IsFinite units then some ⟨units, h⟩ else none

/-- `Value::from` an `i64` -/
def valueOfI64 (n : ℤ) : Value :=
  .number (if 0 ≤ n then .posInt (UInt64.ofNat n.toNat) else .negInt (Int64.ofInt n))

/-! ### Parameters -/

/-- `Map<String, Value>` -/
abbrev Params := AList fun _ : Text => Value

section

-- `str::to_lowercase` and `serde_json::from_str`
variable (toLowercase : Text → Text) (fromStr : Text → Except Text Value)

/-- A value, as the type says. -/
def parseValue (s : Text) (paramType : Option ParamType) : Value :=
  match paramType with
  | some .integer =>
    match parseI64 s with
    | some n => valueOfI64 n
    | none => .string (String.ofList s)
  | some .number =>
    match parseF64 s with
    | some (some x) => .number (.float x)
    | some none => .null
    | none => .string (String.ofList s)
  | some .boolean =>
    let lower := toLowercase s
    if lower = "true".toList ∨ lower = "1".toList ∨ lower = "yes".toList then .bool true
    else if lower = "false".toList ∨ lower = "0".toList ∨ lower = "no".toList then .bool false
    else .string (String.ofList s)
  | some .array =>
    match fromStr s with
    | .ok arr => arr
    | .error _ => .array ((s.splitOn ',').map fun x => .string (String.ofList (trim x)))
  | some .object =>
    match fromStr s with
    | .ok value => value
    | .error _ => .string (String.ofList s)
  | some .string | none =>
    -- the type is inferred from the value
    match parseI64 s with
    | some n => valueOfI64 n
    | none =>
      match parseF64 s with
      | some (some x) => .number (.float x)
      | some none => valueOfI64 0
      | none =>
        if s = "true".toList then .bool true
        else if s = "false".toList then .bool false
        else .string (String.ofList s)

/-- The type that the tool declares for the parameter. -/
def declared (tool : ToolDef) (name : Text) : Option ParamType :=
  (tool.parameters.find? (·.name = name)).map (·.paramType)

def dashes : Text := "--".toList

def parseArgs (tool : ToolDef) : List Text → Params → Except Text Params
  | [], params => .ok params
  | arg :: args, params =>
    if arg = "--json".toList then
      match args with
      | [] => .error "--json requires a value".toList
      | jsonStr :: args =>
        match fromStr jsonStr with
        | .error e => .error ("invalid JSON: ".toList ++ e)
        | .ok (.object obj) =>
          parseArgs tool args (obj.foldl (fun params (k, v) => params.insert k.toList v) params)
        | .ok _ => .error "--json value must be an object".toList
    else if dashes <+: arg then
      let paramName := arg.drop 2
      match args with
      | [] => .ok (params.insert paramName (.bool true))
      | valueStr :: args' =>
        if dashes <+: valueStr then
          parseArgs tool (valueStr :: args') (params.insert paramName (.bool true))
        else
          parseArgs tool args' (params.insert paramName
            (parseValue toLowercase fromStr valueStr (declared tool paramName)))
    else .error ("unexpected argument: ".toList ++ arg)

/-! ### Pairs -/

/-- `--name value`, one after the other. -/
def argsOf (pairs : List (Text × Text)) : List Text :=
  pairs.flatMap fun (name, value) => [dashes ++ name, value]

/-- The last value that is given for a name. -/
def lastValue (pairs : List (Text × Text)) (name : Text) : Option Text :=
  ((pairs.filter (·.1 = name)).getLast?).map Prod.snd

/-- A value as its type is declared; a string is the text. -/
def convert (s : Text) : ParamType → Value
  | .string => .string (String.ofList s)
  | paramType => parseValue toLowercase fromStr s (some paramType)

/-- What is inferred not to be a string. -/
def IsLiteral (s : Text) : Prop :=
  (parseI64 s).isSome ∨ (parseF64 s).isSome ∨ s = "true".toList ∨ s = "false".toList

/-- The names are the keys, and each has its last value, converted by the declared type. The texts
of strings may be restricted. -/
def Respects (ofString : Text → Prop) (tool : ToolDef) (pairs : List (Text × Text)) : Prop :=
  ∃ params, parseArgs toLowercase fromStr tool (argsOf pairs) ∅ = .ok params ∧
    (∀ name, name ∈ params ↔ name ∈ pairs.map Prod.fst) ∧
    ∀ name value paramType, lastValue pairs name = some value →
      declared tool name = some paramType → (paramType = .string → ofString value) →
      params.lookup name = some (convert toLowercase fromStr value paramType)

end

section

variable {toLowercase : Text → Text} {fromStr : Text → Except Text Value} {tool : ToolDef}
  {pairs : List (Text × Text)} {params : Params} {name value : Text} {paramType : ParamType}

lemma parseValue_eq_convert (h : paramType = .string → ¬ IsLiteral value) :
    parseValue toLowercase fromStr value (some paramType) =
      convert toLowercase fromStr value paramType := by
  cases paramType with
  | string =>
    have hnot := h rfl
    simp only [IsLiteral, not_or, Bool.not_eq_true, Option.isSome_eq_false_iff,
      Option.isNone_iff_eq_none] at hnot
    obtain ⟨hi64, hf64, htrue, hfalse⟩ := hnot
    rw [parseValue, hi64, hf64, convert]
    simp only [htrue, hfalse, if_false]
  | integer => rfl
  | number => rfl
  | boolean => rfl
  | array => rfl
  | object => rfl

/-- A pair is one step. -/
lemma parseArgs_cons (args : List Text) (hname : name ≠ "json".toList)
    (hvalue : ¬ dashes <+: value) :
    parseArgs toLowercase fromStr tool ((dashes ++ name) :: value :: args) params =
      parseArgs toLowercase fromStr tool args
        (params.insert name (parseValue toLowercase fromStr value (declared tool name))) := by
  have hjson : dashes ++ name ≠ "--json".toList := fun h => hname (List.append_cancel_left h)
  have hdrop : (dashes ++ name).drop 2 = name := rfl
  rw [parseArgs, if_neg hjson, if_pos (List.prefix_append dashes name), hdrop]
  exact if_neg hvalue

/-- The pairs are inserted one after the other. -/
lemma parseArgs_argsOf (hname : ∀ p ∈ pairs, p.1 ≠ "json".toList)
    (hvalue : ∀ p ∈ pairs, ¬ dashes <+: p.2) :
    parseArgs toLowercase fromStr tool (argsOf pairs) params =
      .ok (pairs.foldl (fun params p => params.insert p.1
        (parseValue toLowercase fromStr p.2 (declared tool p.1))) params) := by
  induction pairs generalizing params with
  | nil => rw [argsOf, List.flatMap_nil, parseArgs, List.foldl_nil]
  | cons p pairs ih =>
    obtain ⟨hp, hname⟩ := List.forall_mem_cons.mp hname
    obtain ⟨hv, hvalue⟩ := List.forall_mem_cons.mp hvalue
    rw [argsOf, List.flatMap_cons, ← argsOf, List.foldl_cons, ← ih hname hvalue]
    exact parseArgs_cons _ hp hv

lemma lookup_foldl_insert (f : Text × Text → Value) (pairs : List (Text × Text)) :
    (∀ name, name ∈ pairs.foldl (fun params p => params.insert p.1 (f p)) (∅ : Params) ↔
      name ∈ pairs.map Prod.fst) ∧
    ∀ name value, lastValue pairs name = some value →
      (pairs.foldl (fun params p => params.insert p.1 (f p)) (∅ : Params)).lookup name =
        some (f (name, value)) := by
  induction pairs using List.reverseRecOn with
  | nil => exact ⟨fun name => by simp, fun name value h => by simp [lastValue] at h⟩
  | append_singleton pairs p ih =>
    obtain ⟨hmem, hlast⟩ := ih
    rw [List.foldl_append, List.foldl_cons, List.foldl_nil]
    refine ⟨fun name => ?_, fun name value h => ?_⟩
    · rw [AList.mem_insert, hmem, List.map_append, List.mem_append, or_comm]
      simp
    · rw [lastValue, List.filter_append, List.filter_singleton] at h
      by_cases hp : p.1 = name
      · subst hp
        rw [decide_eq_true rfl, cond_true, List.getLast?_concat] at h
        rw [AList.lookup_insert, ← Option.some.inj h]
      · rw [decide_eq_false hp, cond_false, List.append_nil] at h
        rw [AList.lookup_insert_ne (Ne.symm hp), hlast name value h]

end

def chargeTool : ToolDef where
  name := "stripe:charge".toList
  description := []
  parameters :=
    [⟨"amount".toList, .integer, [], true, none⟩, ⟨"id".toList, .string, [], true, none⟩,
      ⟨"json".toList, .string, [], false, none⟩]
  category := none
  keywords := []
  embedding := none

/-- JSON texts are left out. -/
def noJson (_ : Text) : Except Text Value := .error "expected value".toList

end AmlaSandbox.Commands.Tool
