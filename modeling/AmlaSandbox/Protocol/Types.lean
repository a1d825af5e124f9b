import AmlaSandbox.Library.Computations

/-!
# Protocol data

Keys, hashes, capabilities, executors and the requests built from them, with the primitives the
protocol takes from outside: Ed25519, SHA-256, canonical CBOR and the RFC 3339 printer.
-/

namespace AmlaSandbox.Protocol

abbrev Bytes := List UInt8

/-- An instant as nanoseconds since the Unix epoch. -/
abbrev DateTime := Int

/-- Lower-case hexadecimal, two digits a byte. -/
def hexEncode (bytes : Bytes) : String :=
  String.ofList (bytes.flatMap fun b => [(b.toNat / 16).digitChar, (b.toNat % 16).digitChar])

/-! ### Identity and hashes -/

inductive Algorithm
  | ed25519
deriving DecidableEq

def Algorithm.asStr : Algorithm → String
  | .ed25519 => "ed25519"

inductive PublicKey
  | ed25519 (bytes : Vector UInt8 32)
deriving DecidableEq

def PublicKey.algorithm : PublicKey → Algorithm
  | .ed25519 _ => .ed25519

def PublicKey.toHex (key : PublicKey) : String :=
  match key with
  | .ed25519 bytes => key.algorithm.asStr ++ ":" ++ hexEncode bytes.toList

inductive Signature
  | ed25519 (bytes : Vector UInt8 64)
deriving DecidableEq

def Signature.algorithm : Signature → Algorithm
  | .ed25519 _ => .ed25519

/-- SHA-256 hash of a PCA, which also serves as its identifier. -/
structure PcaHash where
  bytes : Vector UInt8 32
deriving DecidableEq

def PcaHash.toHex (hash : PcaHash) : String := hexEncode hash.bytes.toList

/-! ### Capabilities and executors -/

structure Version where
  major : UInt32
  minor : UInt32
deriving DecidableEq

/-- A capability: a stable key, a type tag and an opaque payload. -/
structure CapabilityData where
  key : String
  capabilityType : String
  data : Bytes
deriving DecidableEq

structure TransitionError where
  reason : String
deriving DecidableEq

/-- Application rule that decides whether a child capability attenuates its parent. -/
abbrev TransitionValidator := CapabilityData → CapabilityData → Except TransitionError Unit

structure ExecutorCharacteristic where
  characteristicType : String
  value : String
  constraints : Option Bytes
deriving DecidableEq

structure CtaReference where
  ctaKey : PublicKey
  endpoint : Option String
  payload : Option Bytes
deriving DecidableEq

/-- Who may continue the transaction at the next hop. -/
inductive DesignatedExecutor
  | publicKey (key : PublicKey)
  | characteristic (c : ExecutorCharacteristic)
  | ctaReference (r : CtaReference)
deriving DecidableEq

/-! ### Requests and challenges -/

inductive FreshnessChallenge
  | random (nonce : Vector UInt8 32)
  | timestamp (unixMillis : UInt64) (maxSkewMs : UInt32)
deriving DecidableEq

/-- Request for the next hop in the transaction. -/
structure ContinuationRequest where
  capabilities : List CapabilityData
  designatedExecutor : DesignatedExecutor
  expiresAt : DateTime
  payload : Option Bytes
deriving DecidableEq

/-- The signable content of a PCA, as it is serialised. -/
structure PcaSignable where
  version : UInt32 × UInt32
  capabilities : List CapabilityData
  designatedExecutor : DesignatedExecutor
  prevHash : Option String
  rootHash : Option String
  expiresAt : String
  issuer : String
  payload : Option Bytes

/-! ### Errors -/

/-- The protocol errors that hashing, verifying and building a PCA can return. -/
inductive Error
  | signatureVerificationFailed
  | algorithmMismatch (expected got : Algorithm)
  | cborSerialize (message : String)
  | invalidPca (message : String)
  | missingField (field : String)
  | duplicateCapabilityKey (key : String)
deriving DecidableEq

def Error.toString : Error → String
  | .signatureVerificationFailed => "signature verification failed"
  | .algorithmMismatch expected got =>
    "algorithm mismatch: expected " ++ expected.asStr ++ ", got " ++ got.asStr
  | .cborSerialize message => "CBOR serialization error: " ++ message
  | .invalidPca message => "invalid PCA: " ++ message
  | .missingField field => "missing required field: " ++ field
  | .duplicateCapabilityKey key => "duplicate capability key: " ++ key

/-! ### Primitives -/

/-- What the protocol takes from its libraries. Encoding a request or a challenge is total: the
source treats a failure there as a bug and panics. -/
structure Primitives where
  SigningKey : Type
  verifyingKey : SigningKey → Vector UInt8 32
  sign : SigningKey → Bytes → Vector UInt8 64
  verify : Vector UInt8 32 → Bytes → Vector UInt8 64 → Bool
  sha256 : Bytes → Vector UInt8 32
  cborPca : PcaSignable → Except String Bytes
  cborRequest : ContinuationRequest → Bytes
  cborChallenge : FreshnessChallenge → Bytes
  toRfc3339 : DateTime → String

/-- A signature verifies under the key that made it. -/
def Primitives.SignsCorrectly (P : Primitives) : Prop :=
  ∀ key message, P.verify (P.verifyingKey key) message (P.sign key message)

/-- The first 32 bytes, filled up with zeros. -/
def firstBytes (data : Bytes) : Vector UInt8 32 := .ofFn fun i => data.getD i 0

/-- A readable instance for concrete chains: a PCA is encoded as its payload, a hash is the start of
the data, and a signature is the key followed by the hash. -/
def Primitives.transparent : Primitives where
  SigningKey := Vector UInt8 32
  verifyingKey key := key
  sign key message := key ++ firstBytes message
  verify key message signature := signature = key ++ firstBytes message
  sha256 := firstBytes
  cborPca signable := .ok (signable.payload.getD [])
  cborRequest request := request.payload.getD []
  cborChallenge
    | .random nonce => nonce.toList
    | .timestamp unixMillis _ => [unixMillis.toUInt8]
  toRfc3339 time := toString time

lemma Primitives.transparent_signsCorrectly : Primitives.transparent.SignsCorrectly := by
  intro key message
  simp [transparent]

inductive KeyPair (P : Primitives)
  | ed25519 (signingKey : P.SigningKey)

variable {P : Primitives}

def KeyPair.publicKey : KeyPair P → PublicKey
  | .ed25519 signingKey => .ed25519 (P.verifyingKey signingKey)

def KeyPair.sign : KeyPair P → Bytes → Signature
  | .ed25519 signingKey, message => .ed25519 (P.sign signingKey message)

def PcaHash.compute (P : Primitives) (data : Bytes) : PcaHash := ⟨P.sha256 data⟩

/-- Verify a signature against this public key. -/
def PublicKey.verify (P : Primitives) (key : PublicKey) (message : Bytes) (signature : Signature) :
    Except Error Unit :=
  if key.algorithm ≠ signature.algorithm then
    .error (.algorithmMismatch key.algorithm signature.algorithm)
  else
    match key, signature with
    | .ed25519 pk, .ed25519 sig =>
      if P.verify pk message sig then .ok () else .error .signatureVerificationFailed

lemma KeyPair.verify_sign (hsign : P.SignsCorrectly) (kp : KeyPair P) (message : Bytes) :
    kp.publicKey.verify P message (kp.sign message) = .ok () := by
  cases kp with
  | ed25519 key => simp [PublicKey.verify, publicKey, sign, PublicKey.algorithm,
      Signature.algorithm, hsign key message]

end AmlaSandbox.Protocol
