import AmlaSandbox.Protocol.Capabilities
import AmlaSandbox.Text.Basic

/-!
# Issuing a PCA from JSON

`pca_create` signs a PCA for a list of tool patterns, and a runtime decodes it again. The documented
elements are patterns and objects with comparisons; the code copies the comparisons into a payload
that only the serialised form of `Constraint` decodes.
-/

namespace AmlaSandbox.Protocol

open Library Json Constraints

/-! ### The issuer -/

def maxCapabilityPayloadSize : Nat := 1024 * 1024

/-- `CapabilityData::from_json`; encoding a JSON value does not fail. -/
def CapabilityData.fromJson (codec : Codec) (key capabilityType : String) (payload : Value) :
    Except String CapabilityData := do
  let data := codec.encode payload
  failIf (data.length > maxCapabilityPayloadSize)
    ("payload size " ++ toString data.length ++ " bytes exceeds limit of " ++
      toString maxCapabilityPayloadSize ++ " bytes")
  return { key, capabilityType, data }

/-- The payload of a `ToolCallCap`. -/
def toolCallPayload (tool : String) (constraints : Value) : Value :=
  .object [("constraints", constraints), ("tool", .string tool)]

/-- The payload for the element at an index, in either format. -/
def elementPayload (i : Nat) : Value → Except String Value
  | .string pattern => .ok (toolCallPayload pattern (.array []))
  | .object obj =>
    let tool := ((obj.lookup "tool").bind Value.asStr).getD "unknown"
    let constraints := (obj.lookup "constraints").getD (.array [])
    .ok (toolCallPayload tool constraints)
  | _ => .error ("pca_create: capability must be string or object at index " ++ toString i)

/-- The loop that adds one capability for each element. -/
def addElements (codec : Codec) (builder : PcaBuilder) (i : Nat) :
    List Value → Except String PcaBuilder
  | [] => .ok builder
  | capValue :: rest => do
    let payload ← elementPayload i capValue
    let cap ← (CapabilityData.fromJson codec ("cap:" ++ toString i) "tool-call" payload).mapError
      ("pca_create: invalid capability: " ++ ·)
    addElements codec { builder with capabilities := builder.capabilities ++ [cap] } (i + 1) rest

variable {P : Primitives}

/-- The builder before the loop. -/
def initialBuilder (kp : KeyPair P) (deadlineNs : UInt64) : PcaBuilder where
  version := some ⟨0, 1⟩
  capabilities := []
  designatedExecutor := some (.publicKey kp.publicKey)
  prevHash := none
  rootHash := none
  expiresAt := some (fromTimestampNanos deadlineNs)
  payload := none

/-- `pca_create` up to the signature. -/
def signElements (codec : Codec) (kp : KeyPair P) (capValues : List Value) (deadlineNs : UInt64) :
    Except String Pca := do
  let builder ← addElements codec (initialBuilder kp deadlineNs) 0 capValues
  (builder.buildAndSign kp).mapError fun e => "pca_create: build failed: " ++ e.toString

/-- `pca_create` on the parsed array, for an output buffer of `outLen` bytes. -/
def pcaCreate (codec : Codec) (kp : KeyPair P) (capValues : List Value) (deadlineNs : UInt64)
    (outLen : Nat) : Except String Bytes := do
  failIf (outLen = 0) "pca_create: null or zero-length parameter"
  let pca ← signElements codec kp capValues deadlineNs
  let cbor := codec.toCbor pca
  failIf (outLen < cbor.length) "pca_create: output buffer too small"
  return cbor

/-! ### The documented formats -/

inductive CompareOp
  | lt
  | le
  | gt
  | ge
  | eq
  | ne
deriving DecidableEq

def CompareOp.symbol : CompareOp → String
  | .lt => "<"
  | .le => "<="
  | .gt => ">"
  | .ge => ">="
  | .eq => "=="
  | .ne => "!="

/-- The comparison of the parameter's value with the stated one. -/
def CompareOp.Holds (actual value : Value) : CompareOp → Prop
  | .lt => compareLt actual value
  | .le => compareLe actual value
  | .gt => compareGt actual value
  | .ge => compareGe actual value
  | .eq => actual = value
  | .ne => actual ≠ value

/-- `{"param", "op", "value"}` -/
structure StatedConstraint where
  param : String
  op : CompareOp
  value : Value

namespace StatedConstraint

def toValue (c : StatedConstraint) : Value :=
  .object [("op", .string c.op.symbol), ("param", .string c.param), ("value", c.value)]

def Satisfied (params : Value) (c : StatedConstraint) : Prop :=
  HasParam params c.param fun actual => c.op.Holds actual c.value

/-- The documented form has no `type`, so it decodes to no constraint. -/
@[simp] lemma fromValue_toValue (c : StatedConstraint) : Constraint.fromValue c.toValue = none := by
  refine Constraint.fromValue_untagged ?_
  simp [List.lookup_cons]

end StatedConstraint

/-- One element of the array: a pattern, or an object with a tool and its constraints. -/
inductive Element
  | pattern (tool : String)
  | extended (tool : String) (constraints : List StatedConstraint)

namespace Element

def tool : Element → String
  | pattern tool => tool
  | extended tool _ => tool

def constraints : Element → List StatedConstraint
  | pattern _ => []
  | extended _ constraints => constraints

def toValue : Element → Value
  | pattern tool => .string tool
  | extended tool constraints =>
    .object [("constraints", .array (constraints.map StatedConstraint.toValue)),
      ("tool", .string tool)]

/-- The payload that stands for the element. -/
def payload (e : Element) : Value :=
  toolCallPayload e.tool (.array (e.constraints.map StatedConstraint.toValue))

/-- The capability data issued for the element at an index. -/
def capabilityData (codec : Codec) (i : Nat) (e : Element) : CapabilityData where
  key := "cap:" ++ toString i
  capabilityType := capTypeToolCall
  data := codec.encode e.payload

/-- The payload is small enough to be issued. -/
def Fits (codec : Codec) (e : Element) : Prop :=
  (codec.encode e.payload).length ≤ maxCapabilityPayloadSize

@[simp] lemma elementPayload_toValue (i : Nat) (e : Element) :
    elementPayload i e.toValue = .ok e.payload := by
  cases e <;>
    simp [elementPayload, toValue, payload, tool, constraints, List.lookup_cons, Value.asStr]

lemma fromJson_payload {codec : Codec} {e : Element} {i : Nat} {cap : CapabilityData} :
    CapabilityData.fromJson codec ("cap:" ++ toString i) "tool-call" e.payload = .ok cap ↔
      e.Fits codec ∧ cap = e.capabilityData codec i := by
  simp only [CapabilityData.fromJson, bind_eq_ok, exists_unit, failIf_eq_ok, pure, Except.pure,
    Except.ok.injEq, gt_iff_lt, not_lt]
  exact and_congr_right fun _ => eq_comm

/-- What the payload decodes to: the tool alone, and nothing once a comparison is stated. -/
lemma fromValue_payload {e : Element} {call : ToolCallCap} :
    ToolCallCap.fromValue e.payload = some call ↔ e.constraints = [] ∧ call = ⟨e.tool, []⟩ := by
  simp only [ToolCallCap.fromValue, payload, toolCallPayload, fromObject]
  cases e.constraints with
  | nil =>
    simp [stringField, List.lookup_cons, Value.asStr, Constraint.fromArray, Constraint.fromValues,
      eq_comm]
  | cons c cs =>
    simp [stringField, List.lookup_cons, Value.asStr, Constraint.fromArray, Constraint.fromValues]

end Element

/-! ### What is issued -/

/-- The capability data for a list of elements, from an index on. -/
def issuedFrom (codec : Codec) (i : Nat) : List Element → List CapabilityData
  | [] => []
  | e :: rest => e.capabilityData codec i :: issuedFrom codec (i + 1) rest

lemma exists_of_mem_issuedFrom {codec : Codec} {i : Nat} {elements : List Element}
    {cap : CapabilityData} (h : cap ∈ issuedFrom codec i elements) :
    ∃ j e, i ≤ j ∧ cap = Element.capabilityData codec j e := by
  induction elements generalizing i with
  | nil => simp [issuedFrom] at h
  | cons e rest ih =>
    rcases List.mem_cons.mp h with rfl | h
    · exact ⟨i, e, le_rfl, rfl⟩
    · obtain ⟨j, e', hj, rfl⟩ := ih h
      exact ⟨j, e', by omega, rfl⟩

/-- The keys `cap:0`, `cap:1`, … do not repeat. -/
lemma nodup_keys_issuedFrom (codec : Codec) (i : Nat) (elements : List Element) :
    ((issuedFrom codec i elements).map (·.key)).Nodup := by
  induction elements generalizing i with
  | nil => simp [issuedFrom]
  | cons e rest ih =>
    simp only [issuedFrom, List.map_cons, List.nodup_cons, List.mem_map, not_exists, not_and]
    refine ⟨?_, ih (i + 1)⟩
    intro cap hcap hkey
    obtain ⟨j, e', hj, rfl⟩ := exists_of_mem_issuedFrom hcap
    have hji : j = i := toString_nat_injective (by
      simpa [Element.capabilityData, String.append_right_inj] using hkey)
    omega

/-- The loop succeeds when every payload fits, and adds what is issued. -/
lemma addElements_eq_ok {codec : Codec} {elements : List Element} {builder builder' : PcaBuilder}
    {i : Nat} :
    addElements codec builder i (elements.map Element.toValue) = .ok builder' ↔
      (∀ e ∈ elements, e.Fits codec) ∧
        builder' = { builder with
          capabilities := builder.capabilities ++ issuedFrom codec i elements } := by
  induction elements generalizing builder i with
  | nil => simp [addElements, issuedFrom, eq_comm]
  | cons e rest ih =>
    simp only [List.map_cons, addElements, Element.elementPayload_toValue, bind_eq_ok,
      Except.ok.injEq, exists_eq_left', mapError_eq_ok, Element.fromJson_payload, ih, issuedFrom,
      List.forall_mem_cons]
    constructor
    · rintro ⟨_, ⟨hfits, rfl⟩, hrest, rfl⟩
      exact ⟨⟨hfits, hrest⟩, by simp⟩
    · rintro ⟨⟨hfits, hrest⟩, rfl⟩
      exact ⟨_, ⟨hfits, rfl⟩, hrest, by simp⟩

/-- A builder for a root that has everything builds. -/
lemma PcaBuilder.exists_buildAndSign (builder : PcaBuilder) {version : Version}
    {executor : DesignatedExecutor} {expiresAt : DateTime}
    (hcbor : ∀ s, ∃ b, P.cborPca s = .ok b) (kp : KeyPair P)
    (hversion : builder.version = some version) (hne : builder.capabilities ≠ [])
    (hkeys : (builder.capabilities.map (·.key)).Nodup)
    (hexecutor : builder.designatedExecutor = some executor)
    (hexpires : builder.expiresAt = some expiresAt) (hprev : builder.prevHash = none)
    (hroot : builder.rootHash = none) : ∃ pca, builder.buildAndSign kp = .ok pca := by
  obtain ⟨bytes, hbytes⟩ := hcbor (buildSignable P version builder.capabilities executor
    builder.prevHash none expiresAt kp.publicKey builder.payload)
  have hencode : canonicalCborEncode P (buildSignable P version builder.capabilities executor
      builder.prevHash none expiresAt kp.publicKey builder.payload) = .ok bytes := by
    simp [canonicalCborEncode, mapError_eq_ok, hbytes]
  have hrootHash : builder.checkRootHash = .ok none := by
    simp [checkRootHash, hroot, hprev]
  simp only [buildAndSign, bind_eq_ok, exists_unit, okOr_eq_ok, failIf_eq_ok,
    rejectDuplicateKeys_eq_ok, pure, Except.pure, List.isEmpty_iff]
  exact ⟨_, version, hversion, hne, hkeys, executor, hexecutor, expiresAt, hexpires, none,
    hrootHash, bytes, hencode, rfl⟩

/-- When signing succeeds. -/
lemma exists_signElements {codec : Codec} {kp : KeyPair P} {elements : List Element}
    {deadlineNs : UInt64} (hcbor : ∀ s, ∃ b, P.cborPca s = .ok b) :
    (∃ pca, signElements codec kp (elements.map Element.toValue) deadlineNs = .ok pca) ↔
      elements ≠ [] ∧ ∀ e ∈ elements, e.Fits codec := by
  simp only [signElements, bind_eq_ok, mapError_eq_ok, addElements_eq_ok]
  constructor
  · rintro ⟨pca, _, ⟨hfits, rfl⟩, hbuild⟩
    have hne := (PcaBuilder.built_of_buildAndSign hbuild).nonempty
    rw [(PcaBuilder.built_of_buildAndSign hbuild).capabilities] at hne
    refine ⟨?_, hfits⟩
    rintro rfl
    simp [initialBuilder, issuedFrom] at hne
  · rintro ⟨hne, hfits⟩
    obtain ⟨e, rest, rfl⟩ := List.exists_cons_of_ne_nil hne
    obtain ⟨pca, hpca⟩ := PcaBuilder.exists_buildAndSign
      { initialBuilder kp deadlineNs with capabilities := issuedFrom codec 0 (e :: rest) }
      hcbor kp rfl (by simp [issuedFrom]) (nodup_keys_issuedFrom codec 0 (e :: rest)) rfl rfl rfl
      rfl
    exact ⟨pca, _, ⟨hfits, rfl⟩, hpca⟩

/-- What is signed: the issued data, by this key, until the deadline. -/
lemma signElements_spec {codec : Codec} {kp : KeyPair P} {elements : List Element}
    {deadlineNs : UInt64} {pca : Pca} (hsign : P.SignsCorrectly)
    (h : signElements codec kp (elements.map Element.toValue) deadlineNs = .ok pca) :
    pca.capabilities = issuedFrom codec 0 elements ∧ pca.issuer = kp.publicKey ∧
      pca.expiresAt = fromTimestampNanos deadlineNs ∧ pca.tryVerifySignature P = .ok () := by
  simp only [signElements, bind_eq_ok, mapError_eq_ok, addElements_eq_ok] at h
  obtain ⟨_, ⟨_, rfl⟩, hbuild⟩ := h
  have hbuilt := PcaBuilder.built_of_buildAndSign hbuild
  refine ⟨?_, hbuilt.issuer, ?_, hbuilt.tryVerifySignature hsign⟩
  · simpa [initialBuilder] using hbuilt.capabilities
  · simpa [initialBuilder, eq_comm] using hbuilt.expiresAt

/-! ### What a runtime extracts -/

/-- Decoding what was issued needs every element to be free of comparisons. -/
lemma forall₂_issuedFrom {codec : Codec} {elements : List Element} {i : Nat}
    {calls : List ToolCallCap}
    (hdecode : ∀ e ∈ elements, codec.decode (codec.encode e.payload) = some e.payload) :
    List.Forall₂ (fun (cap : CapabilityData) call =>
        (codec.decode cap.data).bind ToolCallCap.fromValue = some call)
        (issuedFrom codec i elements) calls ↔
      (∀ e ∈ elements, e.constraints = []) ∧ calls = elements.map fun e => ⟨e.tool, []⟩ := by
  induction elements generalizing i calls with
  | nil => simp [issuedFrom]
  | cons e rest ih =>
    obtain ⟨he, hrest⟩ := List.forall_mem_cons.mp hdecode
    simp only [issuedFrom, List.forall₂_cons_left_iff, ih hrest, Element.capabilityData, he,
      Option.bind_some, Element.fromValue_payload, List.forall_mem_cons, List.map_cons]
    constructor
    · rintro ⟨_, _, ⟨hnil, rfl⟩, ⟨hall, rfl⟩, rfl⟩
      exact ⟨⟨hnil, hall⟩, rfl⟩
    · rintro ⟨⟨hnil, hall⟩, rfl⟩
      exact ⟨_, _, ⟨hnil, rfl⟩, ⟨hall, rfl⟩, rfl⟩

lemma capabilitiesFromPca_issued {codec : Codec} {elements : List Element} {pca : Pca}
    {capSet : CapabilitySet} (hcaps : pca.capabilities = issuedFrom codec 0 elements)
    (hdecode : ∀ e ∈ elements, codec.decode (codec.encode e.payload) = some e.payload) :
    capabilitiesFromPca codec pca = .ok capSet ↔
      (∀ e ∈ elements, e.constraints = []) ∧
        capSet = { toolCalls := elements.map fun e => ⟨e.tool, []⟩ } := by
  have htype : ∀ cap ∈ issuedFrom codec 0 elements, cap.capabilityType = capTypeToolCall := by
    intro cap hcap
    obtain ⟨j, e, _, rfl⟩ := exists_of_mem_issuedFrom hcap
    rfl
  rw [capabilitiesFromPca, hcaps, capabilitiesFrom_toolCalls codec htype]
  simp only [forall₂_issuedFrom hdecode, List.nil_append]
  constructor
  · rintro ⟨_, ⟨hall, rfl⟩, rfl⟩
    exact ⟨hall, rfl⟩
  · rintro ⟨hall, rfl⟩
    exact ⟨_, ⟨hall, rfl⟩, rfl⟩

lemma fromPcaBytes_eq_ok {codec : Codec} {authorities : List PublicKey} {bytes : Bytes} {pca : Pca}
    {currentNanos : UInt64} {capSet : CapabilitySet} (h : codec.fromCbor bytes = some pca) :
    fromPcaBytes P codec authorities bytes currentNanos = .ok capSet ↔
      (pca.issuer ∈ authorities ∧ pca.tryVerifySignature P = .ok () ∧
        fromTimestampNanos currentNanos < pca.expiresAt) ∧
        capabilitiesFromPca codec pca = .ok capSet := by
  simp [fromPcaBytes, bind_eq_ok, okOr_eq_ok, h, mapError_eq_ok, Session.validatePca_eq_ok,
    exists_unit]

/-- Below the sign bit a time keeps its order as an instant. -/
lemma fromTimestampNanos_lt {a b : UInt64} (hab : a < b) (hb : b.toNat < 2 ^ 63) :
    fromTimestampNanos a < fromTimestampNanos b := by
  have hlt : a.toNat < b.toNat := UInt64.lt_iff_toNat_lt.mp hab
  change a.toBitVec.toInt < b.toBitVec.toInt
  simp only [BitVec.toInt_eq_toNat_cond, UInt64.toNat_toBitVec]
  split_ifs <;> omega

/-- From the sign bit on a deadline lies before the epoch. -/
lemma lt_of_fromTimestampNanos_zero_lt {b : UInt64}
    (h : fromTimestampNanos 0 < fromTimestampNanos b) : b.toNat < 2 ^ 63 := by
  have hb := b.toNat_lt
  change 0 < b.toBitVec.toInt at h
  simp only [BitVec.toInt_eq_toNat_cond, UInt64.toNat_toBitVec] at h
  split_ifs at h <;> omega

/-! ### Issued capabilities mean what was asked for -/

section Issued

variable (debug : Value → String)

/-- The capability has the element's tool and accepts exactly the parameters that satisfy the
element's comparisons. -/
structure Grants (e : Element) (call : ToolCallCap) : Prop where
  tool : call.tool = e.tool
  accepts : ∀ params, Constraint.evaluateAll debug params call.constraints = .ok () ↔
    ∀ c ∈ e.constraints, c.Satisfied params

/-- `pca_create` succeeds, and at any time before the deadline a runtime accepts its result and
extracts one capability for each element, in order, that grants it. -/
def IssuesWhatWasAsked (codec : Codec) (authorities : List PublicKey) (kp : KeyPair P)
    (elements : List Element) (deadlineNs : UInt64) : Prop :=
  ∃ bytes,
    (∀ outLen, 0 < outLen → bytes.length ≤ outLen →
      pcaCreate codec kp (elements.map Element.toValue) deadlineNs outLen = .ok bytes) ∧
    ∀ currentNanos < deadlineNs, ∃ capSet,
      fromPcaBytes P codec authorities bytes currentNanos = .ok capSet ∧
        List.Forall₂ (Grants debug) elements capSet.toolCalls

lemma pcaCreate_eq_ok {codec : Codec} {kp : KeyPair P} {capValues : List Value}
    {deadlineNs : UInt64} {outLen : Nat} {bytes : Bytes} :
    pcaCreate codec kp capValues deadlineNs outLen = .ok bytes ↔
      outLen ≠ 0 ∧ ∃ pca, signElements codec kp capValues deadlineNs = .ok pca ∧
        codec.toCbor pca = bytes ∧ bytes.length ≤ outLen := by
  simp only [pcaCreate, bind_eq_ok, exists_unit, failIf_eq_ok, pure, Except.pure, Except.ok.injEq,
    not_lt, ne_eq]
  constructor
  · rintro ⟨hne, pca, hpca, hlen, rfl⟩
    exact ⟨hne, pca, hpca, rfl, hlen⟩
  · rintro ⟨hne, pca, hpca, rfl, hlen⟩
    exact ⟨hne, pca, hpca, hlen, rfl⟩

/-- An element without comparisons is granted by its tool alone. -/
lemma grants_toolOnly {e : Element} (h : e.constraints = []) : Grants debug e ⟨e.tool, []⟩ where
  tool := rfl
  accepts params := by simp [Constraint.evaluateAll, h]

variable {codec : Codec} {authorities : List PublicKey} {kp : KeyPair P} {elements : List Element}
  {deadlineNs now : UInt64}

/-- What the issued PCA has to be for a runtime to do what was asked. -/
lemma IssuesWhatWasAsked.accepted
    (h : IssuesWhatWasAsked debug codec authorities kp elements deadlineNs) :
    ∃ pca, signElements codec kp (elements.map Element.toValue) deadlineNs = .ok pca ∧
      ∀ currentNanos < deadlineNs, ∃ capSet,
        fromPcaBytes P codec authorities (codec.toCbor pca) currentNanos = .ok capSet := by
  obtain ⟨bytes, hcreate, haccept⟩ := h
  obtain ⟨_, pca, hpca, rfl, _⟩ := pcaCreate_eq_ok.mp (hcreate (bytes.length + 1) (by omega)
    (by omega))
  refine ⟨pca, hpca, fun currentNanos ht => ?_⟩
  obtain ⟨capSet, hcaps, _⟩ := haccept currentNanos ht
  exact ⟨capSet, hcaps⟩

/-- What issuing as asked requires of the arguments. -/
lemma IssuesWhatWasAsked.condition
    (h : IssuesWhatWasAsked debug codec authorities kp elements deadlineNs)
    (hsign : P.SignsCorrectly) (hcbor : ∀ s, ∃ b, P.cborPca s = .ok b)
    (hdecode : ∀ e ∈ elements, codec.decode (codec.encode e.payload) = some e.payload)
    (hwire : ∀ pca, signElements codec kp (elements.map Element.toValue) deadlineNs = .ok pca →
      codec.fromCbor (codec.toCbor pca) = some pca)
    (hnow : now < deadlineNs) :
    elements ≠ [] ∧ (∀ e ∈ elements, e.constraints = [] ∧ e.Fits codec) ∧
      deadlineNs.toNat < 2 ^ 63 := by
  obtain ⟨pca, hpca, haccept⟩ := h.accepted
  obtain ⟨hne, hfits⟩ := (exists_signElements hcbor).mp ⟨pca, hpca⟩
  obtain ⟨hcaps, _, hexpires, _⟩ := signElements_spec hsign hpca
  have hzero : (0 : UInt64) < deadlineNs := by
    rw [UInt64.lt_iff_toNat_lt] at hnow ⊢
    simp only [UInt64.toNat_zero]
    omega
  obtain ⟨_, hstart⟩ := haccept 0 hzero
  obtain ⟨⟨_, _, hlt⟩, hextract⟩ := (fromPcaBytes_eq_ok (hwire pca hpca)).mp hstart
  have hplain := ((capabilitiesFromPca_issued hcaps hdecode).mp hextract).1
  exact ⟨hne, fun e he => ⟨hplain e he, hfits e he⟩,
    lt_of_fromTimestampNanos_zero_lt (hexpires ▸ hlt)⟩

/-- Over a codec that returns what it encoded, a trusted key issues what was asked for exactly when
there is an element, none of them states a comparison, every payload fits and the deadline is below
the sign bit. -/
theorem issuesWhatWasAsked_iff (hsign : P.SignsCorrectly) (hcbor : ∀ s, ∃ b, P.cborPca s = .ok b)
    (hdecode : ∀ e ∈ elements, codec.decode (codec.encode e.payload) = some e.payload)
    (hwire : ∀ pca, signElements codec kp (elements.map Element.toValue) deadlineNs = .ok pca →
      codec.fromCbor (codec.toCbor pca) = some pca)
    (htrusted : kp.publicKey ∈ authorities) (hnow : now < deadlineNs) :
    IssuesWhatWasAsked debug codec authorities kp elements deadlineNs ↔
      elements ≠ [] ∧ (∀ e ∈ elements, e.constraints = [] ∧ e.Fits codec) ∧
        deadlineNs.toNat < 2 ^ 63 := by
  constructor
  · intro h
    exact h.condition debug hsign hcbor hdecode hwire hnow
  · rintro ⟨hne, hall, hdeadline⟩
    have hsigned : ∃ pca, signElements codec kp (elements.map Element.toValue) deadlineNs
        = .ok pca := (exists_signElements hcbor).mpr ⟨hne, fun e he => (hall e he).2⟩
    obtain ⟨pca, hpca⟩ := hsigned
    obtain ⟨hcaps, hissuer, hexpires, hverify⟩ := signElements_spec hsign hpca
    refine ⟨codec.toCbor pca, fun outLen hpos hlen => ?_, fun currentNanos ht => ?_⟩
    · exact pcaCreate_eq_ok.mpr ⟨by omega, pca, hpca, rfl, hlen⟩
    · refine ⟨{ toolCalls := elements.map fun e => ⟨e.tool, []⟩ },
        (fromPcaBytes_eq_ok (hwire pca hpca)).mpr ⟨⟨hissuer ▸ htrusted, hverify, ?_⟩, ?_⟩, ?_⟩
      · rw [hexpires]
        exact fromTimestampNanos_lt ht hdeadline
      · exact (capabilitiesFromPca_issued hcaps hdecode).mpr ⟨fun e he => (hall e he).1, rfl⟩
      · rw [List.forall₂_map_right_iff, List.forall₂_same]
        exact fun e he => grants_toolOnly debug (hall e he).1

end Issued

/-! ### Concrete requests -/

/-- The PCA that the zero key issues for some payloads over the readable primitives. -/
def issuedByZero (payloads : List Bytes) (deadlineNs : UInt64) : Pca where
  version := ⟨0, 1⟩
  capabilities := payloads.mapIdx fun i data => ⟨"cap:" ++ toString i, "tool-call", data⟩
  designatedExecutor := .publicKey (.ed25519 (Vector.replicate 32 0))
  prevHash := none
  rootHash := none
  expiresAt := fromTimestampNanos deadlineNs
  issuer := .ed25519 (Vector.replicate 32 0)
  signature := .ed25519 (Vector.replicate 64 0)
  payload := none

/-- The codec on some payloads and their encodings, and on the PCA issued for them. -/
def Codec.table (payloads : List (Value × Bytes)) (deadlineNs : UInt64) : Codec where
  encode value := (payloads.lookup value).getD []
  decode bytes := (payloads.find? (·.2 = bytes)).map Prod.fst
  toCbor pca :=
    if pca = issuedByZero (payloads.map Prod.snd) deadlineNs then (payloads.map Prod.snd).flatten
    else []
  fromCbor bytes :=
    if bytes = (payloads.map Prod.snd).flatten then
      some (issuedByZero (payloads.map Prod.snd) deadlineNs)
    else none

/-- The CBOR of `{"constraints": [], "tool": …}` for a tool such as `a:b`. -/
def toolOnlyData (provider action : UInt8) : Bytes :=
  [0xa2, 0x6b, 0x63, 0x6f, 0x6e, 0x73, 0x74, 0x72, 0x61, 0x69, 0x6e, 0x74, 0x73, 0x80,
    0x64, 0x74, 0x6f, 0x6f, 0x6c, 0x63, provider, 0x3a, action]

/-- `["a:b", {"tool": "c:d", "constraints": []}]` -/
def twoTools : List Element := [.pattern "a:b", .extended "c:d" []]

def twoToolsCodec : Codec :=
  .table [((Element.pattern "a:b").payload, toolOnlyData 0x61 0x62),
    ((Element.extended "c:d" []).payload, toolOnlyData 0x63 0x64)] 1

/-- Two tools, valid for one nanosecond. -/
theorem issuesWhatWasAsked_twoTools :
    IssuesWhatWasAsked (P := .transparent) (fun _ => "") twoToolsCodec
      [.ed25519 (Vector.replicate 32 0)] (.ed25519 (Vector.replicate 32 0)) twoTools 1 := by
  have hsigned : signElements (P := .transparent) twoToolsCodec (.ed25519 (Vector.replicate 32 0))
      (twoTools.map Element.toValue) 1 =
        .ok (issuedByZero [toolOnlyData 0x61 0x62, toolOnlyData 0x63 0x64] 1) := by decide +kernel
  refine (issuesWhatWasAsked_iff _ Primitives.transparent_signsCorrectly (fun s => ⟨_, rfl⟩)
    (by decide +kernel) ?_ (by decide) (show (0 : UInt64) < 1 by decide)).mpr
      ⟨List.cons_ne_nil _ _, ?_, by decide⟩
  · intro pca hpca
    rw [hsigned] at hpca
    cases hpca
    decide +kernel
  · unfold Element.Fits
    decide +kernel

/-- `{"tool": "a:b", "constraints": [{"param": "amount", "op": "<=", "value": 10}]}` -/
def amountLimit : Element := .extended "a:b" [⟨"amount", .le, .number (.posInt 10)⟩]

/-- The CBOR of the payload for `amountLimit`. -/
def amountLimitData : Bytes :=
  [0xa2, 0x6b, 0x63, 0x6f, 0x6e, 0x73, 0x74, 0x72, 0x61, 0x69, 0x6e, 0x74, 0x73, 0x81, 0xa3,
    0x62, 0x6f, 0x70, 0x62, 0x3c, 0x3d, 0x65, 0x70, 0x61, 0x72, 0x61, 0x6d, 0x66, 0x61, 0x6d,
    0x6f, 0x75, 0x6e, 0x74, 0x65, 0x76, 0x61, 0x6c, 0x75, 0x65, 0x0a, 0x64, 0x74, 0x6f, 0x6f,
    0x6c, 0x63, 0x61, 0x3a, 0x62]

/-- A documented comparison is issued as a payload that no runtime decodes. -/
theorem not_issuesWhatWasAsked_amountLimit :
    Primitives.transparent.SignsCorrectly ∧
    (∀ s, ∃ b, Primitives.transparent.cborPca s = .ok b) ∧
    (∀ e ∈ [amountLimit], (Codec.table [(amountLimit.payload, amountLimitData)] 1).decode
      ((Codec.table [(amountLimit.payload, amountLimitData)] 1).encode e.payload) =
        some e.payload) ∧
    (∀ pca, signElements (P := .transparent)
        (Codec.table [(amountLimit.payload, amountLimitData)] 1) (.ed25519 (Vector.replicate 32 0))
        ([amountLimit].map Element.toValue) 1 = .ok pca →
      (Codec.table [(amountLimit.payload, amountLimitData)] 1).fromCbor
        ((Codec.table [(amountLimit.payload, amountLimitData)] 1).toCbor pca) = some pca) ∧
    ¬ IssuesWhatWasAsked (P := .transparent) (fun _ => "")
      (Codec.table [(amountLimit.payload, amountLimitData)] 1)
      [.ed25519 (Vector.replicate 32 0)] (.ed25519 (Vector.replicate 32 0)) [amountLimit] 1 := by
  have hdecode : ∀ e ∈ [amountLimit],
      (Codec.table [(amountLimit.payload, amountLimitData)] 1).decode
        ((Codec.table [(amountLimit.payload, amountLimitData)] 1).encode e.payload) =
          some e.payload := by
    decide
  have hsigned : signElements (P := .transparent)
      (Codec.table [(amountLimit.payload, amountLimitData)] 1)
      (.ed25519 (Vector.replicate 32 0)) ([amountLimit].map Element.toValue) 1
      = .ok (issuedByZero [amountLimitData] 1) := by decide +kernel
  have hwire : ∀ pca, signElements (P := .transparent)
      (Codec.table [(amountLimit.payload, amountLimitData)] 1)
      (.ed25519 (Vector.replicate 32 0)) ([amountLimit].map Element.toValue) 1 = .ok pca →
      (Codec.table [(amountLimit.payload, amountLimitData)] 1).fromCbor
        ((Codec.table [(amountLimit.payload, amountLimitData)] 1).toCbor pca) = some pca := by
    intro pca hpca
    rw [hsigned] at hpca
    cases hpca
    decide
  refine ⟨Primitives.transparent_signsCorrectly, fun s => ⟨_, rfl⟩, hdecode, hwire, fun h => ?_⟩
  obtain ⟨_, hplain, _⟩ := h.condition _ Primitives.transparent_signsCorrectly
    (fun s => ⟨_, rfl⟩) hdecode hwire (show (0 : UInt64) < 1 by decide)
  exact List.cons_ne_nil _ _ (hplain amountLimit List.mem_cons_self).1

end AmlaSandbox.Protocol
