import AmlaSandbox.Json.Value
import AmlaSandbox.Library.Computations
import AmlaSandbox.Library.JsText

/-!
# The registration of operations

JavaScript registers an operation as a JSON object with its type beside its fields. What is wrong
with it comes back as a JSON text of its own, in which only quotes are escaped, so that a message
with other characters to escape does not reach the promise as it is.
-/

namespace AmlaSandbox.Json

/-- `Value::get` of a key. -/
def Value.get (v : Value) (key : String) : Option Value :=
  match v with
  | .object map => map.lookup key
  | _ => none

/-- `Value::as_u64` -/
def Value.asU64 : Value → Option UInt64
  | .number (.posInt n) => some n
  | _ => none

/-- `Value::as_bool` -/
def Value.asBool : Value → Option Bool
  | .bool b => some b
  | _ => none

/-- `Value::as_f64` -/
def Value.asF64 : Value → Option F64
  | .number n => some n.asF64
  | _ => none

end AmlaSandbox.Json

namespace AmlaSandbox.Js

open Json Library Library.JsText

/-! ### Records -/

structure FetchOptions where
  method : String := ""
  headers : List (String × String) := []
  body : Option String := none
  timeoutMs : Option UInt64 := none

structure FsReadOptions where
  encoding : Option String := none

structure FsWriteOptions where
  encoding : Option String := none
  append : Bool := false
  createDirs : Bool := false

structure LlmMessage where
  role : String
  content : String

structure LlmOptions where
  temperature : Option F64 := none
  maxTokens : Option UInt32 := none
  stop : List String := []

inductive ConstraintSpec
  | le (param : String) (value : Value)
  | ge (param : String) (value : Value)
  | lt (param : String) (value : Value)
  | gt (param : String) (value : Value)
  | eq (param : String) (value : Value)
  | ne (param : String) (value : Value)
  | in (param : String) (values : List Value)
  | notIn (param : String) (values : List Value)
  | startsWith (param lead : String)
  | endsWith (param suffix : String)
  | contains (param substring : String)

structure AttenuationSpec where
  capability : String
  constraints : List ConstraintSpec

inductive OpType
  | toolCall (tool : String) (params : Value)
  | fetch (url : String) (options : FetchOptions)
  | memoryRead (key : String)
  | memoryWrite (key : String) (value : Value)
  | memoryDelete (key : String)
  | spawn (attenuations : List AttenuationSpec)
  | llmCall (model : String) (messages : List LlmMessage) (options : LlmOptions)
  | sleep (delayMs : UInt64)
  | fsRead (path : String) (options : FsReadOptions)
  | fsWrite (path data : String) (options : FsWriteOptions)
  | fsReadDir (path : String)
  | fsStat (path : String)
  | fsExists (path : String)
  | fsUnlink (path : String)
  | fsMkdir (path : String) (recursive : Bool)
  | shell (command : String)

/-- An operation that the host must fulfil. -/
structure Op where
  id : String
  opType : OpType

/-! ### Decoding -/

def asU32 (v : Value) : Option UInt32 :=
  v.asU64.bind fun n => if n.toNat < 2 ^ 32 then some (.ofNat n.toNat) else none

def asList {α : Type} (decode : Value → Option α) : Value → Option (List α)
  | .array list => list.mapM decode
  | _ => none

def asStringMap : Value → Option (List (String × String))
  | .object map => map.mapM fun entry => (entry.2.asStr).map (entry.1, ·)
  | _ => none

/-- The fields of a struct, which may also be listed in their order. -/
def structFields (names : List String) : Value → Option (String → Option Value)
  | .object map => some fun name => map.lookup name
  | .array list =>
    if list.length ≤ names.length then some fun name => list[names.idxOf name]? else none
  | _ => none

/-- A field that may be absent. -/
def orDefault {α : Type} (default : α) (decode : Value → Option α) : Option Value → Option α
  | none => some default
  | some v => decode v

/-- A field of type `Option<T>` that may be absent. -/
def optional {α : Type} (decode : Value → Option α) : Option Value → Option (Option α)
  | none | some .null => some none
  | some v => (decode v).map some

def FetchOptions.fromValue (v : Value) : Option FetchOptions :=
  (structFields ["method", "headers", "body", "timeout_ms"] v).bind fun field => return {
    method := ← orDefault "" Value.asStr (field "method")
    headers := ← orDefault [] asStringMap (field "headers")
    body := ← optional Value.asStr (field "body")
    timeoutMs := ← optional Value.asU64 (field "timeout_ms") }

def FsReadOptions.fromValue (v : Value) : Option FsReadOptions :=
  (structFields ["encoding"] v).bind fun field => return {
    encoding := ← optional Value.asStr (field "encoding") }

def FsWriteOptions.fromValue (v : Value) : Option FsWriteOptions :=
  (structFields ["encoding", "append", "create_dirs"] v).bind fun field => return {
    encoding := ← optional Value.asStr (field "encoding")
    append := ← orDefault false Value.asBool (field "append")
    createDirs := ← orDefault false Value.asBool (field "create_dirs") }

def LlmMessage.fromValue (v : Value) : Option LlmMessage :=
  (structFields ["role", "content"] v).bind fun field => return {
    role := ← (field "role").bind Value.asStr
    content := ← (field "content").bind Value.asStr }

def LlmOptions.fromValue (v : Value) : Option LlmOptions :=
  (structFields ["temperature", "max_tokens", "stop"] v).bind fun field => return {
    temperature := ← optional Value.asF64 (field "temperature")
    maxTokens := ← optional asU32 (field "max_tokens")
    stop := ← orDefault [] (asList Value.asStr) (field "stop") }

/-- The variant named `type`, whose fields are `param` and another one. -/
def ConstraintSpec.fromContent (content : Value) (type : String) : Option ConstraintSpec :=
  let variant {α : Type} (make : String → α → ConstraintSpec) (name : String)
      (decode : Value → Option α) : Option ConstraintSpec :=
    (structFields ["param", name] content).bind fun field =>
      return make (← (field "param").bind Value.asStr) (← (field name).bind decode)
  match type with
  | "le" => variant .le "value" some
  | "ge" => variant .ge "value" some
  | "lt" => variant .lt "value" some
  | "gt" => variant .gt "value" some
  | "eq" => variant .eq "value" some
  | "ne" => variant .ne "value" some
  | "in" => variant .in "values" (asList some)
  | "notIn" => variant .notIn "values" (asList some)
  | "startsWith" => variant .startsWith "prefix" Value.asStr
  | "endsWith" => variant .endsWith "suffix" Value.asStr
  | "contains" => variant .contains "substring" Value.asStr
  | _ => none

/-- The type stands under `type`, or first in a list. -/
def ConstraintSpec.fromValue : Value → Option ConstraintSpec
  | .object map => ((map.lookup "type").bind Value.asStr).bind (fromContent (.object map))
  | .array (type :: rest) => type.asStr.bind (fromContent (.array rest))
  | _ => none

def AttenuationSpec.fromValue (v : Value) : Option AttenuationSpec :=
  (structFields ["capability", "constraints"] v).bind fun field => return {
    capability := ← (field "capability").bind Value.asStr
    constraints := ← (field "constraints").bind (asList ConstraintSpec.fromValue) }

/-! ### `__native_register_op` -/

/-- `get_str!` -/
def getStr (obj : Value) (field : String) : Except String String :=
  okOr ((obj.get field).bind Value.asStr) ("Missing or invalid field: " ++ field)

/-- `get_value!` -/
def getValue (obj : Value) (field : String) : Except String Value :=
  okOr (obj.get field) ("Missing field: " ++ field)

/-- Options that cannot be decoded are the default ones. -/
def getOptions {α : Type} (default : α) (decode : Value → Option α) (payload : Value) : α :=
  ((payload.get "options").bind decode).getD default

/-- The operation of a payload of the type `type`. -/
def OpType.fromPayload (payload : Value) (type : String) : Except String OpType :=
  match type with
  | "tool_call" => return .toolCall (← getStr payload "tool") (← getValue payload "params")
  | "fetch" => return .fetch (← getStr payload "url") (getOptions {} FetchOptions.fromValue payload)
  | "memory_read" => return .memoryRead (← getStr payload "key")
  | "memory_write" => return .memoryWrite (← getStr payload "key") (← getValue payload "value")
  | "memory_delete" => return .memoryDelete (← getStr payload "key")
  | "spawn" => do
    let attenuations ← getValue payload "attenuations"
    return .spawn (← okOr (asList AttenuationSpec.fromValue attenuations)
      "Invalid attenuations format")
  | "llm_call" => do
    let model ← getStr payload "model"
    let messages ← getValue payload "messages"
    let parsed ← okOr (asList LlmMessage.fromValue messages) "Invalid messages format"
    return .llmCall model parsed (getOptions {} LlmOptions.fromValue payload)
  | "sleep" =>
    return .sleep (← okOr ((payload.get "delay_ms").bind Value.asU64) "Missing or invalid delay_ms")
  | "fs_read" =>
    return .fsRead (← getStr payload "path") (getOptions {} FsReadOptions.fromValue payload)
  | "fs_write" =>
    return .fsWrite (← getStr payload "path") (← getStr payload "data")
      (getOptions {} FsWriteOptions.fromValue payload)
  | "fs_readdir" => return .fsReadDir (← getStr payload "path")
  | "fs_stat" => return .fsStat (← getStr payload "path")
  | "fs_exists" => return .fsExists (← getStr payload "path")
  | "fs_unlink" => return .fsUnlink (← getStr payload "path")
  | "fs_mkdir" =>
    return .fsMkdir (← getStr payload "path")
      (((payload.get "recursive").bind Value.asBool).getD false)
  | "shell" => return .shell (← getStr payload "command")
  | unknown => .error ("Unknown operation type: " ++ unknown)

/-- `__native_register_op` of arguments, `none` if they are no JSON array. `parse` is
`serde_json::from_str`. -/
def registerOp (parse : String → Option Value) (args : Option (List Value)) : Except String Op := do
  let args ← okOr args "Invalid arguments JSON"
  let id ← okOr (args[0]?.bind Value.asStr) "Missing operation ID"
  let text ← okOr (args[1]?.bind Value.asStr) "Missing operation payload"
  let payload ← okOr (parse text) "Invalid payload JSON"
  let type ← okOr ((payload.get "type").bind Value.asStr) "Missing operation type"
  return { id, opType := ← OpType.fromPayload payload type }

/-! ### The answer to JavaScript -/

def errorLead : List Char := "\x7b\"error\":\"".toList

/-- `error_result` -/
def errorResult (msg : String) : List Char :=
  errorLead ++ (escapeQuotes msg.toList ++ ['"', '}'])

/-- The field `error` of what `JS_ParseJSON` makes of an `errorResult`. All quotes of the message
are behind a backslash, so that none opens another string where the first one ends early: then the
text is no JSON. -/
def parseErrorResult (text : List Char) : Option (List ℕ) :=
  match jsonRest (text.drop errorLead.length) with
  | some (message, ['}']) => some message
  | _ => none

/-- What a registration is for the one who asked for it. -/
inductive Registration
  | accepted (op : Op)
  /-- The promise is rejected with this message, in code units. -/
  | refused (message : List ℕ)
  /-- The error is taken for a success. -/
  | lost
  /-- An exception, which leaves no promise. -/
  | thrown

/-- A message with a NUL is no C string and arrives as `undefined`; an empty one is falsy. -/
def Registration.ofResult : Except String Op → Registration
  | .ok op => .accepted op
  | .error msg =>
    if '\x00' ∈ msg.toList then .lost
    else match parseErrorResult (errorResult msg) with
      | none => .thrown
      | some [] => .lost
      | some message => .refused message

/-! ### Which errors arrive -/

/-- A message is rejected with as it is. -/
def Arrives (msg : String) : Prop :=
  Registration.ofResult (.error msg) = .refused (units msg.toList)

/-- No character of the text needs an escape other than a quote. -/
def IsPlain (s : String) : Prop := ∀ c ∈ s.toList, Plain c

instance (s : String) : Decidable (IsPlain s) := List.decidableBAll Plain s.toList

lemma isPlain_append {s t : String} : IsPlain (s ++ t) ↔ IsPlain s ∧ IsPlain t := by
  simp only [IsPlain, String.toList_append, List.forall_mem_append]

lemma parseErrorResult_eq_units_iff (msg : String) :
    parseErrorResult (errorResult msg) = some (units msg.toList) ↔ IsPlain msg := by
  rw [IsPlain, ← jsonRest_escapeQuotes_iff (t := ['}']), parseErrorResult, errorResult,
    List.drop_left']
  · split <;> simp_all
  · rfl

lemma units_ne_nil {msg : String} (hne : msg ≠ "") : units msg.toList ≠ [] := by
  intro hnil
  have hlength := length_le_length_units msg.toList
  rw [hnil, List.length_nil, Nat.le_zero, List.length_eq_zero_iff] at hlength
  exact hne (String.toList_eq_nil_iff.mp hlength)

lemma arrives_iff {msg : String} (hne : msg ≠ "") : Arrives msg ↔ IsPlain msg := by
  rw [Arrives, ← parseErrorResult_eq_units_iff, Registration.ofResult]
  split_ifs with hnul
  · have hplain : ¬ IsPlain msg := fun h => absurd (h _ hnul).2 (by decide)
    simpa using mt (parseErrorResult_eq_units_iff msg).mp hplain
  · have hunits := units_ne_nil hne
    split
    · simp_all
    · simp_all
    · simp_all

def OpType.typeName : OpType → String
  | .toolCall .. => "tool_call"
  | .fetch .. => "fetch"
  | .memoryRead .. => "memory_read"
  | .memoryWrite .. => "memory_write"
  | .memoryDelete .. => "memory_delete"
  | .spawn .. => "spawn"
  | .llmCall .. => "llm_call"
  | .sleep .. => "sleep"
  | .fsRead .. => "fs_read"
  | .fsWrite .. => "fs_write"
  | .fsReadDir .. => "fs_readdir"
  | .fsStat .. => "fs_stat"
  | .fsExists .. => "fs_exists"
  | .fsUnlink .. => "fs_unlink"
  | .fsMkdir .. => "fs_mkdir"
  | .shell .. => "shell"

/-- The types that `__native_register_op` knows. -/
def OpType.typeNames : List String :=
  ["tool_call", "fetch", "memory_read", "memory_write", "memory_delete", "spawn", "llm_call",
    "sleep", "fs_read", "fs_write", "fs_readdir", "fs_stat", "fs_exists", "fs_unlink", "fs_mkdir",
    "shell"]

variable {payload : Value} {type : String} {msg : String}

/-- An operation is of the type that it is asked for with. -/
lemma typeName_fromPayload {op : OpType} (h : OpType.fromPayload payload type = .ok op) :
    op.typeName = type := by
  unfold OpType.fromPayload at h
  split at h
  case h_17 => cases h
  all_goals
    simp only [bind_eq_ok, pure, Except.pure, Except.ok.injEq] at h
    grind [OpType.typeName]

/-- A message that arrives. -/
def IsFault (msg : String) : Prop := msg ≠ "" ∧ IsPlain msg

instance (msg : String) : Decidable (IsFault msg) := inferInstanceAs (Decidable (_ ∧ _))

lemma isFault_append {s t : String} (hs : IsFault s) (ht : IsPlain t) : IsFault (s ++ t) :=
  ⟨by simp [hs.1], isPlain_append.mpr ⟨hs.2, ht⟩⟩

lemma isFault_getStr {obj : Value} {field : String} (hfield : IsPlain field)
    (h : getStr obj field = .error msg) : IsFault msg := by
  obtain ⟨-, rfl⟩ := okOr_eq_error.mp h
  exact isFault_append (by decide) hfield

lemma isFault_getValue {obj : Value} {field : String} (hfield : IsPlain field)
    (h : getValue obj field = .error msg) : IsFault msg := by
  obtain ⟨-, rfl⟩ := okOr_eq_error.mp h
  exact isFault_append (by decide) hfield

lemma isFault_okOr {α : Type} {value : Option α} {err : String} (herr : IsFault err)
    (h : okOr value err = .error msg) : IsFault msg := by
  obtain ⟨-, rfl⟩ := okOr_eq_error.mp h
  exact herr

/-- What is wrong with the fields of an operation is told in plain characters. -/
lemma fromPayload_error (h : OpType.fromPayload payload type = .error msg) :
    IsFault msg ∧ type ∈ OpType.typeNames ∨
      msg = "Unknown operation type: " ++ type ∧ type ∉ OpType.typeNames := by
  have hplain : IsPlain "tool" ∧ IsPlain "params" ∧ IsPlain "url" ∧ IsPlain "key" ∧
      IsPlain "value" ∧ IsPlain "attenuations" ∧ IsPlain "model" ∧ IsPlain "messages" ∧
      IsPlain "path" ∧ IsPlain "data" ∧ IsPlain "command" := by decide
  have hfault : IsFault "Invalid attenuations format" ∧ IsFault "Invalid messages format" ∧
      IsFault "Missing or invalid delay_ms" := by decide
  unfold OpType.fromPayload at h
  split at h
  case h_17 =>
    refine .inr ⟨(Except.error.inj h).symm, ?_⟩
    simp_all [OpType.typeNames]
  all_goals
    refine .inl ⟨?_, by decide⟩
    simp only [bind_eq_error, pure, Except.pure, reduceCtorEq, and_false, exists_false,
      or_false] at h
    grind [isFault_getStr, isFault_getValue, isFault_okOr]

/-- The type that `__native_register_op` finds, if it gets that far. -/
def payloadType (parse : String → Option Value) (args : Option (List Value)) : Option String := do
  let args ← args
  let _ ← args[0]?.bind Value.asStr
  let text ← args[1]?.bind Value.asStr
  let payload ← parse text
  (payload.get "type").bind Value.asStr

variable {parse : String → Option Value} {args : Option (List Value)}

/-- A registration fails before it finds a type, or over the payload of that type. -/
lemma registerOp_error (h : registerOp parse args = .error msg) :
    IsFault msg ∧ payloadType parse args = none ∨
      ∃ payload type, payloadType parse args = some type ∧
        OpType.fromPayload payload type = .error msg := by
  simp only [registerOp, bind_eq_error, okOr_eq_ok, okOr_eq_error, pure, Except.pure, reduceCtorEq,
    and_false, exists_false, or_false] at h
  rcases h with ⟨rfl, rfl⟩ | ⟨list, rfl, ⟨hid, rfl⟩ | ⟨id, hid, ⟨htext, rfl⟩ | ⟨text, htext, h⟩⟩⟩
  · exact .inl ⟨by decide, rfl⟩
  · exact .inl ⟨by decide, by simp [payloadType, hid]⟩
  · exact .inl ⟨by decide, by simp [payloadType, hid, htext]⟩
  rcases h with ⟨hparse, rfl⟩ | ⟨payload, hparse, ⟨htype, rfl⟩ | ⟨type, htype, herror⟩⟩
  · exact .inl ⟨by decide, by simp [payloadType, hid, htext, hparse]⟩
  · exact .inl ⟨by decide, by simp [payloadType, hid, htext, hparse, htype]⟩
  · exact .inr ⟨payload, type, by simp [payloadType, hid, htext, hparse, htype], herror⟩

/-- An operation is registered under the id and the type that it is given. What is wrong with it is
told as it is, unless its type is unknown and has characters to escape. -/
theorem registerOp_spec (parse : String → Option Value) (args : Option (List Value)) :
    (∀ op, registerOp parse args = .ok op →
      args.bind (·[0]?) = some (.string op.id) ∧
        payloadType parse args = some op.opType.typeName) ∧
    ∀ msg, registerOp parse args = .error msg →
      (Registration.ofResult (.error msg) = .refused (units msg.toList) ↔
        ∀ type, payloadType parse args = some type → type ∉ OpType.typeNames → IsPlain type) := by
  constructor
  · intro op h
    simp only [registerOp, bind_eq_ok, okOr_eq_ok, pure, Except.pure, Except.ok.injEq] at h
    obtain ⟨list, rfl, id, hid, text, htext, payload, hparse, type, htype, opType, hop, rfl⟩ := h
    obtain ⟨first, hfirst, hstring⟩ := Option.bind_eq_some_iff.mp hid
    refine ⟨?_, by simp [payloadType, hid, htext, hparse, htype, typeName_fromPayload hop]⟩
    cases first <;> cases hstring
    exact hfirst
  · intro msg h
    change Arrives msg ↔ _
    rcases registerOp_error h with ⟨⟨hne, hplain⟩, hnone⟩ | ⟨payload, type, htype, herror⟩
    · rw [arrives_iff hne, hnone]
      simp [hplain]
    rcases fromPayload_error herror with ⟨⟨hne, hplain⟩, hknown⟩ | ⟨rfl, hunknown⟩
    · rw [arrives_iff hne, htype]
      simp [hplain, hknown]
    · rw [arrives_iff (by simp), isPlain_append, htype]
      simp [hunknown, show IsPlain "Unknown operation type: " by decide]

end AmlaSandbox.Js
