import AmlaSandbox.Protocol.Authority
import Mathlib.Data.Finset.Insert

/-!
# Causal Transaction Authority

The CTA checks a proof of continuity against a parent PCA and emits the next PCA. The freshness
validator carries a state, which `submit` returns whether or not it succeeds.
-/

namespace AmlaSandbox.Protocol

open Library

variable {P : Primitives} {σ : Type}

/-! ### Freshness -/

inductive FreshnessError
  | timestampSkew
  | replay
deriving DecidableEq

/-- Validates freshness challenges; the state is behind a mutex in the source. -/
structure FreshnessValidator (σ : Type) where
  validate : FreshnessChallenge → DateTime → σ → Except FreshnessError Unit × σ

/-- Milliseconds since the epoch, as the `u64` that `as u64` makes of them. -/
def timestampMillis (time : DateTime) : Nat := (time / 1000000 % UInt64.size).toNat

/-- The skew check of the timestamp challenges; `maxTimestampSkew` is in nanoseconds. -/
def checkTimestampSkew (maxTimestampSkew : Int) (unixMillis : UInt64) (maxSkewMs : UInt32)
    (now : DateTime) : Except FreshnessError Unit :=
  let nowMs := timestampMillis now
  let ourMaxMs := (maxTimestampSkew.tdiv 1000000).natAbs
  let allowedSkew := min ourMaxMs maxSkewMs.toNat
  failIf (max nowMs unixMillis.toNat - min nowMs unixMillis.toNat > allowedSkew) .timestampSkew

/-- Records every random nonce it accepts and rejects it from then on. -/
def statefulFreshnessValidator (maxTimestampSkew : Int) :
    FreshnessValidator (Finset (Vector UInt8 32)) where
  validate
    | .random nonce, _, seen =>
      if nonce ∈ seen then (.error .replay, seen) else (.ok (), insert nonce seen)
    | .timestamp unixMillis maxSkewMs, now, seen =>
      (checkTimestampSkew maxTimestampSkew unixMillis maxSkewMs now, seen)

/-! ### Executors and proofs of continuity -/

structure ExecutorResolver where
  verify : PublicKey → ExecutorCharacteristic → Option Bytes → Bool
  verifyCtaReference : PublicKey → CtaReference → Option Bytes → Bool := fun _ _ _ => false

def rejectAllResolver : ExecutorResolver where
  verify _ _ _ := false

/-- Proof that the submitter is the designated next executor. -/
structure ProofOfContinuity where
  parentHash : PcaHash
  executorKey : PublicKey
  signature : Signature
  challenge : FreshnessChallenge
  characteristicProof : Option Bytes
deriving DecidableEq

def pocDomainSeparator : Bytes := "PIC:PoC:v1:".toList.map fun c => c.toNat.toUInt8

namespace ProofOfContinuity

/-- The message to be signed; it leaves the signature out. -/
def buildMessage (P : Primitives) (poc : ProofOfContinuity) (request : ContinuationRequest) :
    Bytes :=
  pocDomainSeparator ++ poc.parentHash.bytes.toList ++ P.cborChallenge poc.challenge ++
    P.cborRequest request ++ poc.characteristicProof.getD []

/-- Build a proof of continuity, as the executor does before submitting. -/
def build (parent : Pca) (executor : KeyPair P) (request : ContinuationRequest)
    (challenge : FreshnessChallenge) (characteristicProof : Option Bytes) :
    Except Error ProofOfContinuity := do
  let parentHash ← parent.tryHash P
  let pocPartial : ProofOfContinuity := {
    parentHash, executorKey := executor.publicKey, signature := .ed25519 (.replicate 64 0)
    challenge, characteristicProof }
  return { pocPartial with signature := executor.sign (pocPartial.buildMessage P request) }

def verifySignature (P : Primitives) (poc : ProofOfContinuity) (request : ContinuationRequest) :
    Except Error Unit :=
  poc.executorKey.verify P (poc.buildMessage P request) poc.signature

end ProofOfContinuity

/-! ### The authority -/

inductive CtaError
  | untrustedRootAuthority (issuer : String)
  | untrustedCta (issuer : String)
  | parentExpired
  | freshnessError (e : FreshnessError)
  | hashMismatch
  | executorMismatch
  | characteristicNotSatisfied
  | ctaReferenceNotAuthorized
  | wrongCta
  | expiryExceedsParent
  | unknownCapabilityKey (key : String)
  | duplicateCapabilityKey (key : String)
  | invalidTransition (e : TransitionError)
  | signatureError (message : String)
  | pcaError (message : String)
deriving DecidableEq

structure Cta (P : Primitives) (σ : Type) where
  keypair : KeyPair P
  validator : TransitionValidator
  rootAuthorities : List PublicKey
  trustedCtas : List PublicKey
  resolver : ExecutorResolver
  freshness : FreshnessValidator σ

namespace Cta

def publicKey (cta : Cta P σ) : PublicKey := cta.keypair.publicKey

/-- Steps 1 to 3 of `submit`: the parent's signature, issuer and expiry. -/
def verifyParent (cta : Cta P σ) (parent : Pca) (now : DateTime) : Except CtaError Unit := do
  (parent.tryVerifySignature P).mapError fun e => .signatureError e.toString
  if parent.isRoot then
    failIf (parent.issuer ∉ cta.rootAuthorities) (.untrustedRootAuthority parent.issuer.toHex)
  else
    failIf (parent.issuer ∉ cta.trustedCtas) (.untrustedCta parent.issuer.toHex)
  failIf (parent.isExpiredAt now) .parentExpired

/-- The executor matches the parent's designation. -/
def verifyExecutor (cta : Cta P σ) (parent : Pca) (poc : ProofOfContinuity) :
    Except CtaError Unit :=
  match parent.designatedExecutor with
  | .publicKey pk => failIf (poc.executorKey ≠ pk) .executorMismatch
  | .characteristic c =>
    failIf (!cta.resolver.verify poc.executorKey c poc.characteristicProof)
      .characteristicNotSatisfied
  | .ctaReference r => do
    failIf (r.ctaKey ≠ cta.publicKey) .wrongCta
    failIf (!cta.resolver.verifyCtaReference poc.executorKey r poc.characteristicProof)
      .ctaReferenceNotAuthorized

def verifyProofOfContinuity (cta : Cta P σ) (parent : Pca) (poc : ProofOfContinuity)
    (request : ContinuationRequest) : Except CtaError Unit := do
  let parentHash ← (parent.tryHash P).mapError fun e => .pcaError e.toString
  failIf (poc.parentHash ≠ parentHash) .hashMismatch
  cta.verifyExecutor parent poc
  (poc.verifySignature P request).mapError fun e => .signatureError e.toString

def verifyCapabilityAttenuation (cta : Cta P σ) (parent : Pca) (request : ContinuationRequest) :
    Except CtaError Unit :=
  keyedTransitions {
    duplicateParent := .duplicateCapabilityKey
    duplicateChild := .duplicateCapabilityKey
    unknown := .unknownCapabilityKey
    invalid := .invalidTransition } cta.validator parent.capabilities request.capabilities

/-- The root transaction hash that the next PCA carries. -/
def nextRootHash (P : Primitives) (parent : Pca) : Except CtaError PcaHash :=
  match parent.rootHash with
  | some root => .ok root
  | none =>
    if parent.isRoot then (parent.tryHash P).mapError fun e => .pcaError e.toString
    else .error (.pcaError "non-root parent is missing root_hash")

/-- The builder that `submit` fills in. -/
def nextBuilder (parent : Pca) (poc : ProofOfContinuity) (request : ContinuationRequest)
    (rootHash : PcaHash) : PcaBuilder where
  version := some parent.version
  capabilities := request.capabilities
  designatedExecutor := some request.designatedExecutor
  prevHash := some poc.parentHash
  rootHash := some rootHash
  expiresAt := some request.expiresAt
  payload := request.payload

/-- Steps 6 to 8 of `submit`: attenuation, expiry, and the new PCA. -/
def emitPca (cta : Cta P σ) (parent : Pca) (poc : ProofOfContinuity)
    (request : ContinuationRequest) : Except CtaError Pca := do
  cta.verifyCapabilityAttenuation parent request
  failIf (request.expiresAt > parent.expiresAt) .expiryExceedsParent
  let rootHash ← nextRootHash P parent
  ((nextBuilder parent poc request rootHash).buildAndSign cta.keypair).mapError
    fun e => .pcaError e.toString

/-- Process a submission and emit a new PCA if valid. The freshness state is changed by step 4
only, and stays changed when a later step fails. -/
def submit (cta : Cta P σ) (parent : Pca) (poc : ProofOfContinuity) (request : ContinuationRequest)
    (now : DateTime) (s : σ) : Except CtaError Pca × σ :=
  match cta.verifyParent parent now with
  | .error e => (.error e, s)
  | .ok () =>
    match cta.freshness.validate poc.challenge now s with
    | (.error e, s') => (.error (.freshnessError e), s')
    | (.ok (), s') =>
      (do cta.verifyProofOfContinuity parent poc request
          cta.emitPca parent poc request, s')

/-! ### The stages of a submission -/

section Stages

variable {cta : Cta P σ} {parent : Pca} {poc : ProofOfContinuity} {request : ContinuationRequest}
  {now : DateTime} {s s' : σ} {child : Pca}

lemma submit_of_stale {e : FreshnessError} (hparent : cta.verifyParent parent now = .ok ())
    (hstale : cta.freshness.validate poc.challenge now s = (.error e, s')) :
    cta.submit parent poc request now s = (.error (.freshnessError e), s') := by
  simp only [submit, hparent, hstale]

lemma submit_of_fresh (hparent : cta.verifyParent parent now = .ok ())
    (hfresh : cta.freshness.validate poc.challenge now s = (.ok (), s')) :
    cta.submit parent poc request now s =
      (do cta.verifyProofOfContinuity parent poc request
          cta.emitPca parent poc request, s') := by
  simp only [submit, hparent, hfresh]

lemma submit_eq_ok :
    (cta.submit parent poc request now s).1 = .ok child ↔
      cta.verifyParent parent now = .ok () ∧
      (cta.freshness.validate poc.challenge now s).1 = .ok () ∧
      cta.verifyProofOfContinuity parent poc request = .ok () ∧
      cta.emitPca parent poc request = .ok child := by
  simp only [submit]
  cases cta.verifyParent parent now with
  | error e => simp
  | ok u =>
    rcases cta.freshness.validate poc.challenge now s with ⟨_ | _, s'⟩
    · simp
    · simp [bind_eq_ok, exists_unit]

lemma tryHash_of_verifyProofOfContinuity
    (h : cta.verifyProofOfContinuity parent poc request = .ok ()) :
    parent.tryHash P = .ok poc.parentHash := by
  simp only [verifyProofOfContinuity, bind_eq_ok, exists_unit, mapError_eq_ok, failIf_eq_ok,
    not_not] at h
  obtain ⟨hash, hhash, rfl, _⟩ := h
  exact hhash

/-- What the emitted PCA has been checked for, and what it was built from. -/
lemma emitPca_eq_ok (h : cta.emitPca parent poc request = .ok child) :
    Attenuates cta.validator parent.capabilities request.capabilities ∧
      request.expiresAt ≤ parent.expiresAt ∧ ∃ rootHash, nextRootHash P parent = .ok rootHash ∧
        PcaBuilder.Built (nextBuilder parent poc request rootHash) cta.keypair child := by
  simp only [emitPca, verifyCapabilityAttenuation, bind_eq_ok, exists_unit, mapError_eq_ok,
    failIf_eq_ok, keyedTransitions_eq_ok, gt_iff_lt, Int.not_lt] at h
  obtain ⟨hatt, hexp, rootHash, hroot, hbuild⟩ := h
  exact ⟨hatt, hexp, rootHash, hroot, PcaBuilder.built_of_buildAndSign hbuild⟩

end Stages

end Cta

end AmlaSandbox.Protocol
