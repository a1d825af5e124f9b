import AmlaSandbox.Constraints.Format
import AmlaSandbox.Protocol.Pca
import Mathlib.Data.List.Forall2

/-!
# Typed capabilities

What a runtime does with a PCA before it exists: it validates the PCA against the trusted
authorities and the clock, and decodes every opaque payload into a typed capability.
-/

namespace AmlaSandbox.Protocol

open Library Json Constraints

/-! ### Capability types -/

inductive PatternMode
  | exact
  | nonRecursive
  | recursive
deriving DecidableEq

structure PartitionPattern where
  lead : String
  mode : PatternMode

/-- Capability to call a specific tool with parameter constraints. -/
structure ToolCallCap where
  tool : String
  constraints : List Constraint

structure MemoryReadCap where
  partition : PartitionPattern

structure MemoryWriteCap where
  partition : PartitionPattern
  maxValueBytes : Option UInt64

structure MemoryDeleteCap where
  partition : PartitionPattern

structure SpawnCap where
  partitionPrefix : PartitionPattern
  allowedTypes : List String

structure CapabilitySet where
  toolCalls : List ToolCallCap := []
  memoryReads : List MemoryReadCap := []
  memoryWrites : List MemoryWriteCap := []
  memoryDeletes : List MemoryDeleteCap := []
  spawns : List SpawnCap := []

def capTypeToolCall : String := "tool-call"
def capTypeMemoryRead : String := "memory-read"
def capTypeMemoryWrite : String := "memory-write"
def capTypeMemoryDelete : String := "memory-delete"
def capTypeSpawn : String := "spawn"

/-! ### Decoding -/

/-- Decode a struct, whose fields are the entries of an object. -/
def fromObject {α : Type} (decode : List (String × Value) → Option α) : Value → Option α
  | .object map => decode map
  | _ => none

def PatternMode.fromValue : Value → Option PatternMode
  | .string "Exact" => some .exact
  | .string "NonRecursive" => some .nonRecursive
  | .string "Recursive" => some .recursive
  | _ => none

def PartitionPattern.fromValue : Value → Option PartitionPattern :=
  fromObject fun map => return {
    lead := ← stringField map "prefix"
    mode := ← (map.lookup "mode").bind PatternMode.fromValue }

/-- The field `partition`. -/
def partitionField (map : List (String × Value)) (field : String) : Option PartitionPattern :=
  (map.lookup field).bind PartitionPattern.fromValue

/-- A field of type `Option<u64>`, which may be absent. -/
def optionU64Field (map : List (String × Value)) (field : String) : Option (Option UInt64) :=
  match map.lookup field with
  | none | some .null => some none
  | some (.number (.posInt n)) => some (some n)
  | some _ => none

def ToolCallCap.fromValue : Value → Option ToolCallCap :=
  fromObject fun map => return {
    tool := ← stringField map "tool"
    constraints := ← (map.lookup "constraints").bind Constraint.fromArray }

def MemoryReadCap.fromValue : Value → Option MemoryReadCap :=
  fromObject fun map => return { partition := ← partitionField map "partition" }

def MemoryWriteCap.fromValue : Value → Option MemoryWriteCap :=
  fromObject fun map => return {
    partition := ← partitionField map "partition"
    maxValueBytes := ← optionU64Field map "max_value_bytes" }

def MemoryDeleteCap.fromValue : Value → Option MemoryDeleteCap :=
  fromObject fun map => return { partition := ← partitionField map "partition" }

def SpawnCap.fromValue : Value → Option SpawnCap :=
  fromObject fun map => return {
    partitionPrefix := ← partitionField map "partition_prefix"
    allowedTypes := ← (arrayField map "allowed_types").bind (List.mapM Value.asStr) }

/-! ### Errors -/

/-- Errors of protocol integration; the text inside a decoding error is the decoder's own. -/
inductive ProtocolError
  | signatureVerificationFailed (message : String)
  | expired (time : String)
  | executorMismatch (expected actual : PublicKey)
  | unknownCapabilityType (capType : String)
  | decodeError (capType : String)
  | noDesignatedExecutor
  | noTrustedAuthorities
  | untrustedIssuer
deriving DecidableEq

/-! ### From a PCA to capabilities -/

/-- The CBOR codec: payloads are JSON values, and a PCA has a wire form. -/
structure Codec where
  encode : Value → Bytes
  decode : Bytes → Option Value
  toCbor : Pca → Bytes
  fromCbor : Bytes → Option Pca

section Decode

variable (codec : Codec)

def decodeCapability {α : Type} (fromValue : Value → Option α) (capData : CapabilityData) :
    Except ProtocolError α :=
  okOr ((codec.decode capData.data).bind fromValue) (.decodeError capData.capabilityType)

/-- The body of the loop of `capabilities_from_pca`. -/
def addCapability (capSet : CapabilitySet) (capData : CapabilityData) :
    Except ProtocolError CapabilitySet :=
  if capData.capabilityType = capTypeToolCall then do
    let cap ← decodeCapability codec ToolCallCap.fromValue capData
    return { capSet with toolCalls := capSet.toolCalls ++ [cap] }
  else if capData.capabilityType = capTypeMemoryRead then do
    let cap ← decodeCapability codec MemoryReadCap.fromValue capData
    return { capSet with memoryReads := capSet.memoryReads ++ [cap] }
  else if capData.capabilityType = capTypeMemoryWrite then do
    let cap ← decodeCapability codec MemoryWriteCap.fromValue capData
    return { capSet with memoryWrites := capSet.memoryWrites ++ [cap] }
  else if capData.capabilityType = capTypeMemoryDelete then do
    let cap ← decodeCapability codec MemoryDeleteCap.fromValue capData
    return { capSet with memoryDeletes := capSet.memoryDeletes ++ [cap] }
  else if capData.capabilityType = capTypeSpawn then do
    let cap ← decodeCapability codec SpawnCap.fromValue capData
    return { capSet with spawns := capSet.spawns ++ [cap] }
  else .error (.unknownCapabilityType capData.capabilityType)

def capabilitiesFrom (capSet : CapabilitySet) : List CapabilityData →
    Except ProtocolError CapabilitySet
  | [] => .ok capSet
  | capData :: caps => do
    let capSet' ← addCapability codec capSet capData
    capabilitiesFrom capSet' caps

/-- Extract typed capabilities from a PCA. -/
def capabilitiesFromPca (pca : Pca) : Except ProtocolError CapabilitySet :=
  capabilitiesFrom codec {} pca.capabilities

/-- A run over tool-call data alone decodes every one of them, in order, and nothing else. -/
lemma capabilitiesFrom_toolCalls {caps : List CapabilityData}
    (htype : ∀ cap ∈ caps, cap.capabilityType = capTypeToolCall) (capSet final : CapabilitySet) :
    capabilitiesFrom codec capSet caps = .ok final ↔
      ∃ calls, List.Forall₂ (fun cap call =>
          (codec.decode cap.data).bind ToolCallCap.fromValue = some call) caps calls ∧
        final = { capSet with toolCalls := capSet.toolCalls ++ calls } := by
  induction caps generalizing capSet with
  | nil => simp [capabilitiesFrom, eq_comm (a := capSet)]
  | cons cap caps ih =>
    have hcap : cap.capabilityType = capTypeToolCall := htype cap List.mem_cons_self
    have hcaps : ∀ c ∈ caps, c.capabilityType = capTypeToolCall :=
      fun c hc => htype c (List.mem_cons_of_mem cap hc)
    simp only [capabilitiesFrom, addCapability, hcap, if_true, bind_eq_ok, decodeCapability,
      okOr_eq_ok, pure, Except.pure, Except.ok.injEq, ih hcaps]
    constructor
    · rintro ⟨_, ⟨call, hcall, rfl⟩, calls, hcalls, rfl⟩
      exact ⟨call :: calls, .cons hcall hcalls, by simp⟩
    · rintro ⟨_, hall, rfl⟩
      cases hall with
      | cons hcall hcalls => exact ⟨_, ⟨_, hcall, rfl⟩, _, hcalls, by simp⟩

end Decode

/-! ### Validation -/

def Pca.designatedExecutorKey (pca : Pca) : Option PublicKey :=
  match pca.designatedExecutor with
  | .publicKey key => some key
  | .characteristic _ | .ctaReference _ => none

/-- Without an executor to bind there is nothing to check. -/
def checkExecutor (pca : Pca) : Option PublicKey → Except ProtocolError Unit
  | none => .ok ()
  | some executorKey =>
    match pca.designatedExecutorKey with
    | some designated =>
      failIf (designated ≠ executorKey) (.executorMismatch designated executorKey)
    | none => .error .noDesignatedExecutor

/-- Validate a PCA for session creation (`validate_pca` of the sandbox). -/
def Session.validatePca (P : Primitives) (authorities : List PublicKey) (pca : Pca)
    (executor : Option PublicKey) (currentTime : DateTime) : Except ProtocolError Unit := do
  failIf authorities.isEmpty .noTrustedAuthorities
  failIf (pca.issuer ∉ authorities) .untrustedIssuer
  (pca.tryVerifySignature P).mapError fun e => .signatureVerificationFailed e.toString
  failIf (pca.isExpiredAt currentTime) (.expired (P.toRfc3339 pca.expiresAt))
  checkExecutor pca executor

/-- `nanos as i64`, as an instant. -/
def fromTimestampNanos (nanos : UInt64) : DateTime := nanos.toBitVec.toInt

lemma Session.validatePca_eq_ok {P : Primitives} {authorities : List PublicKey} {pca : Pca}
    {currentTime : DateTime} :
    Session.validatePca P authorities pca none currentTime = .ok () ↔
      pca.issuer ∈ authorities ∧ pca.tryVerifySignature P = .ok () ∧
        currentTime < pca.expiresAt := by
  simp only [Session.validatePca, bind_eq_ok, exists_unit, failIf_eq_ok, mapError_eq_ok,
    Pca.isExpiredAt, checkExecutor, and_true, not_not, decide_eq_true_eq, not_le,
    List.isEmpty_iff, ge_iff_le]
  constructor
  · rintro ⟨_, h⟩
    exact h
  · intro h
    exact ⟨List.ne_nil_of_mem h.1, h⟩

inductive RuntimeError
  | pcaParse
  | protocol (e : ProtocolError)
deriving DecidableEq

/-- The part of creating a runtime that looks at the PCA bytes: parse, validate at the time the
clock shows, extract the capabilities. -/
def fromPcaBytes (P : Primitives) (codec : Codec) (authorities : List PublicKey) (bytes : Bytes)
    (currentNanos : UInt64) : Except RuntimeError CapabilitySet := do
  let pca ← okOr (codec.fromCbor bytes) .pcaParse
  (Session.validatePca P authorities pca none (fromTimestampNanos currentNanos)).mapError .protocol
  (capabilitiesFromPca codec pca).mapError .protocol

end AmlaSandbox.Protocol
