import AmlaSandbox.Protocol.Types

/-!
# PIC Causal Authority

The authorization structure, its hash and signature check, and the builder that signs it.
-/

namespace AmlaSandbox.Protocol

open Library

/-- The authority available to a designated executor at one point of a causal chain. -/
structure Pca where
  version : Version
  capabilities : List CapabilityData
  designatedExecutor : DesignatedExecutor
  prevHash : Option PcaHash
  rootHash : Option PcaHash
  expiresAt : DateTime
  issuer : PublicKey
  signature : Signature
  payload : Option Bytes
deriving DecidableEq

variable {P : Primitives}

namespace Pca

/-- A root has no parent. -/
def isRoot (pca : Pca) : Bool := pca.prevHash.isNone

def isExpiredAt (pca : Pca) (time : DateTime) : Bool := time ≥ pca.expiresAt

/-- The capability keys, in the order of the list. -/
def keys (pca : Pca) : List String := pca.capabilities.map (·.key)

end Pca

/-- The signable content of a PCA with these fields; the signature is not part of it. -/
def buildSignable (P : Primitives) (version : Version) (capabilities : List CapabilityData)
    (designatedExecutor : DesignatedExecutor) (prevHash rootHash : Option PcaHash)
    (expiresAt : DateTime) (issuer : PublicKey) (payload : Option Bytes) : PcaSignable where
  version := (version.major, version.minor)
  capabilities := capabilities
  designatedExecutor := designatedExecutor
  prevHash := prevHash.map PcaHash.toHex
  rootHash := rootHash.map PcaHash.toHex
  expiresAt := P.toRfc3339 expiresAt
  issuer := issuer.toHex
  payload := payload

def canonicalCborEncode (P : Primitives) (signable : PcaSignable) : Except Error Bytes :=
  (P.cborPca signable).mapError .cborSerialize

namespace Pca

/-- Canonical bytes for signing and hashing. -/
def tryToSignable (P : Primitives) (pca : Pca) : Except Error Bytes :=
  canonicalCborEncode P (buildSignable P pca.version pca.capabilities pca.designatedExecutor
    pca.prevHash pca.rootHash pca.expiresAt pca.issuer pca.payload)

/-- The unique identifier: hash of the signable content. -/
def tryHash (P : Primitives) (pca : Pca) : Except Error PcaHash := do
  let signable ← pca.tryToSignable P
  return PcaHash.compute P signable

def tryVerifySignature (P : Primitives) (pca : Pca) : Except Error Unit := do
  let signable ← pca.tryToSignable P
  pca.issuer.verify P signable pca.signature

lemma tryHash_eq_ok {pca : Pca} {hash : PcaHash} :
    pca.tryHash P = .ok hash ↔
      ∃ bytes, pca.tryToSignable P = .ok bytes ∧ PcaHash.compute P bytes = hash := by
  simp [tryHash, bind_eq_ok, pure, Except.pure]

lemma tryVerifySignature_eq_ok {pca : Pca} :
    pca.tryVerifySignature P = .ok () ↔
      ∃ bytes, pca.tryToSignable P = .ok bytes ∧
        pca.issuer.verify P bytes pca.signature = .ok () := by
  simp [tryVerifySignature, bind_eq_ok]

/-- A PCA whose signature verifies can be hashed: both start from the same bytes. -/
lemma exists_tryHash {pca : Pca} (h : pca.tryVerifySignature P = .ok ()) :
    ∃ hash, pca.tryHash P = .ok hash := by
  obtain ⟨bytes, hbytes, _⟩ := tryVerifySignature_eq_ok.mp h
  exact ⟨_, tryHash_eq_ok.mpr ⟨bytes, hbytes, rfl⟩⟩

end Pca

/-! ### Duplicate keys -/

/-- The scan of `find_duplicate_capability_key`, with the keys seen so far. -/
def findDuplicateFrom (seen : List String) : List CapabilityData → Option String
  | [] => none
  | cap :: caps =>
    if cap.key ∈ seen then some cap.key else findDuplicateFrom (cap.key :: seen) caps

/-- The first capability key that appears a second time. -/
def findDuplicateCapabilityKey (caps : List CapabilityData) : Option String :=
  findDuplicateFrom [] caps

lemma findDuplicateFrom_eq_none {seen : List String} {caps : List CapabilityData} :
    findDuplicateFrom seen caps = none ↔
      (caps.map (·.key)).Nodup ∧ ∀ cap ∈ caps, cap.key ∉ seen := by
  induction caps generalizing seen with
  | nil => simp [findDuplicateFrom]
  | cons cap caps ih =>
    rw [findDuplicateFrom]
    split_ifs with hmem
    · simp [hmem]
    · rw [ih]
      simp only [List.map_cons, List.nodup_cons, List.mem_map, List.mem_cons, not_or,
        forall_eq_or_imp]
      constructor
      · rintro ⟨hnd, hnew⟩
        refine ⟨⟨?_, hnd⟩, hmem, fun c hc => (hnew c hc).2⟩
        rintro ⟨c, hc, hkey⟩
        exact (hnew c hc).1 hkey
      · rintro ⟨⟨hne, hnd⟩, _, hnew⟩
        exact ⟨hnd, fun c hc => ⟨fun hkey => hne ⟨c, hc, hkey⟩, hnew c hc⟩⟩

lemma findDuplicateCapabilityKey_eq_none {caps : List CapabilityData} :
    findDuplicateCapabilityKey caps = none ↔ (caps.map (·.key)).Nodup := by
  simp [findDuplicateCapabilityKey, findDuplicateFrom_eq_none]

def rejectDuplicateKeys (caps : List CapabilityData) : Except Error Unit :=
  match findDuplicateCapabilityKey caps with
  | some dupKey => .error (.duplicateCapabilityKey dupKey)
  | none => .ok ()

lemma rejectDuplicateKeys_eq_ok {caps : List CapabilityData} :
    rejectDuplicateKeys caps = .ok () ↔ (caps.map (·.key)).Nodup := by
  rw [← findDuplicateCapabilityKey_eq_none, rejectDuplicateKeys]
  cases findDuplicateCapabilityKey caps <;> simp

/-! ### Builder -/

structure PcaBuilder where
  version : Option Version
  capabilities : List CapabilityData
  designatedExecutor : Option DesignatedExecutor
  prevHash : Option PcaHash
  rootHash : Option PcaHash
  expiresAt : Option DateTime
  payload : Option Bytes

namespace PcaBuilder

/-- Set the parent hash and the root hash from the parent PCA. -/
def parentPca (P : Primitives) (builder : PcaBuilder) (parent : Pca) :
    Except Error PcaBuilder := do
  let parentHash ← parent.tryHash P
  let rootHash ←
    match parent.rootHash with
    | some root => .ok root
    | none =>
      if parent.isRoot then .ok parentHash
      else .error (.invalidPca "non-root parent is missing root_hash")
  return { builder with prevHash := some parentHash, rootHash := some rootHash }

/-- A root omits the root hash and a child carries it. -/
def checkRootHash (builder : PcaBuilder) : Except Error (Option PcaHash) :=
  match builder.rootHash with
  | some hash =>
    if builder.prevHash.isNone then .error (.invalidPca "root PCA must omit root_hash")
    else .ok (some hash)
  | none =>
    if builder.prevHash.isSome then .error (.missingField "root_hash") else .ok none

/-- Build and sign the PCA. -/
def buildAndSign (builder : PcaBuilder) (issuer : KeyPair P) : Except Error Pca := do
  let version ← okOr builder.version (.missingField "version")
  failIf builder.capabilities.isEmpty (.invalidPca "at least one capability required")
  rejectDuplicateKeys builder.capabilities
  let designatedExecutor ← okOr builder.designatedExecutor (.missingField "designated_executor")
  let expiresAt ← okOr builder.expiresAt (.missingField "expires_at")
  let rootHash ← builder.checkRootHash
  let signableBytes ← canonicalCborEncode P (buildSignable P version builder.capabilities
    designatedExecutor builder.prevHash rootHash expiresAt issuer.publicKey builder.payload)
  return {
    version, capabilities := builder.capabilities, designatedExecutor,
    prevHash := builder.prevHash, rootHash, expiresAt, issuer := issuer.publicKey,
    signature := issuer.sign signableBytes, payload := builder.payload }

lemma checkRootHash_eq_ok {builder : PcaBuilder} {rootHash : Option PcaHash}
    (h : builder.checkRootHash = .ok rootHash) : builder.rootHash = rootHash := by
  simp only [checkRootHash] at h
  split at h <;> split_ifs at h <;> simp_all

/-- What a successful build has checked, and the PCA it returns. -/
structure Built (builder : PcaBuilder) (kp : KeyPair P) (pca : Pca) : Prop where
  version : builder.version = some pca.version
  capabilities : pca.capabilities = builder.capabilities
  nonempty : pca.capabilities ≠ []
  nodup : pca.keys.Nodup
  designatedExecutor : builder.designatedExecutor = some pca.designatedExecutor
  prevHash : pca.prevHash = builder.prevHash
  rootHash : pca.rootHash = builder.rootHash
  expiresAt : builder.expiresAt = some pca.expiresAt
  issuer : pca.issuer = kp.publicKey
  payload : pca.payload = builder.payload
  signature : ∃ bytes, pca.tryToSignable P = .ok bytes ∧ pca.signature = kp.sign bytes

theorem built_of_buildAndSign {builder : PcaBuilder} {kp : KeyPair P} {pca : Pca}
    (h : builder.buildAndSign kp = .ok pca) : Built builder kp pca := by
  simp only [buildAndSign, bind_eq_ok, exists_unit, okOr_eq_ok, failIf_eq_ok,
    rejectDuplicateKeys_eq_ok, pure, Except.pure, Except.ok.injEq, List.isEmpty_iff] at h
  obtain ⟨version, hversion, hne, hdup, executor, hexecutor, expires, hexpires, root, hroot, bytes,
    hbytes, rfl⟩ := h
  exact ⟨hversion, rfl, hne, hdup, hexecutor, rfl, (checkRootHash_eq_ok hroot).symm, hexpires, rfl,
    rfl, bytes, hbytes, rfl⟩

/-- A built PCA carries a signature that verifies. -/
lemma Built.tryVerifySignature {builder : PcaBuilder} {kp : KeyPair P} {pca : Pca}
    (h : Built builder kp pca) (hsign : P.SignsCorrectly) :
    pca.tryVerifySignature P = .ok () := by
  obtain ⟨bytes, hbytes, hsig⟩ := h.signature
  refine Pca.tryVerifySignature_eq_ok.mpr ⟨bytes, hbytes, ?_⟩
  rw [h.issuer, hsig]
  exact kp.verify_sign hsign bytes

end PcaBuilder

end AmlaSandbox.Protocol
