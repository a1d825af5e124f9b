import AmlaSandbox.Library.Chains
import AmlaSandbox.Protocol.Attenuation

/-!
# Chain validation

`validateChain` and `validateCtaChain` run one loop over the PCAs with two issuer rules.
`ValidChain` is the declarative chain, with the issuer rules as parameters.
-/

namespace AmlaSandbox.Protocol

open Library

/-- Maximum allowed chain depth. -/
def maxChainDepth : Nat := 100

inductive ChainValidationError
  | emptyChain
  | invalidSignature (index : Nat)
  | invalidPca (index : Nat) (reason : String)
  | rootHasPrevHash
  | rootHasRootHash
  | rootHashMissing (index : Nat)
  | missingPrevHash (index : Nat)
  | hashMismatch (index : Nat) (expected actual : String)
  | unauthorizedIssuer (index : Nat) (expectedIssuer actualIssuer : String)
  | invalidRootAuthority (expected actual : String)
  | untrustedCtaIssuer (index : Nat) (actual : String)
  | expired (index : Nat) (expiredAt : String)
  | expiryExceedsParent (index : Nat) (parentExpiresAt childExpiresAt : String)
  | rootHashMismatch (index : Nat) (expected actual : String)
  | invalidTransition (index : Nat) (reason : String)
  | duplicateCapabilityKey (index : Nat) (capabilityKey : String)
  | unknownCapabilityKey (index : Nat) (capabilityKey : String)
  | nonPublicKeyExecutor (index : Nat) (executorType : String)
  | chainTooDeep (depth limit : Nat)
deriving DecidableEq

/-! ### Validators -/

section Validators

variable (P : Primitives)

def validateKeyedTransitions (childIndex : Nat) (parentCaps childCaps : List CapabilityData)
    (validator : TransitionValidator) : Except ChainValidationError Unit :=
  keyedTransitions {
    duplicateParent := .duplicateCapabilityKey (childIndex - 1)
    duplicateChild := .duplicateCapabilityKey childIndex
    unknown := .unknownCapabilityKey childIndex
    invalid := fun e => .invalidTransition childIndex e.reason } validator parentCaps childCaps

def validateSignature (i : Nat) (pca : Pca) : Except ChainValidationError Unit :=
  match pca.tryVerifySignature P with
  | .ok () => .ok ()
  | .error .signatureVerificationFailed => .error (.invalidSignature i)
  | .error e => .error (.invalidPca i e.toString)

def validateHash (i : Nat) (pca : Pca) : Except ChainValidationError PcaHash :=
  (pca.tryHash P).mapError fun e => .invalidPca i e.toString

/-- Root rule of `validate_chain`. -/
def validateRootAuthority (rootAuthority : PublicKey) (root : Pca) :
    Except ChainValidationError Unit :=
  failIf (root.issuer ≠ rootAuthority)
    (.invalidRootAuthority rootAuthority.toHex root.issuer.toHex)

/-- Root rule of `validate_cta_chain`. -/
def validateRootAuthorities (rootAuthorities : List PublicKey) (root : Pca) :
    Except ChainValidationError Unit :=
  failIf (root.issuer ∉ rootAuthorities)
    (.invalidRootAuthority "one of trusted root authorities" root.issuer.toHex)

/-- Issuer rule of `validate_chain`: the parent's designated executor, as a direct key. -/
def validateExecutorIssuer (i : Nat) (parent pca : Pca) : Except ChainValidationError Unit :=
  match parent.designatedExecutor with
  | .publicKey expectedKey =>
    failIf (pca.issuer ≠ expectedKey)
      (.unauthorizedIssuer i expectedKey.toHex pca.issuer.toHex)
  | .characteristic c =>
    .error (.nonPublicKeyExecutor (i - 1)
      ("Characteristic(" ++ c.characteristicType ++ ":" ++ c.value ++ ")"))
  | .ctaReference r =>
    .error (.nonPublicKeyExecutor (i - 1) ("CtaReference(" ++ r.ctaKey.toHex ++ ")"))

/-- Issuer rule of `validate_cta_chain`: a trusted CTA. -/
def validateTrustedIssuer (trustedCtas : List PublicKey) (i : Nat) (_parent pca : Pca) :
    Except ChainValidationError Unit :=
  failIf (pca.issuer ∉ trustedCtas) (.untrustedCtaIssuer i pca.issuer.toHex)

variable (validateIssuer : Nat → Pca → Pca → Except ChainValidationError Unit)
  (validator : TransitionValidator) (currentTime : DateTime) (expectedRootHash : PcaHash)

/-- The checks on a non-root PCA against its parent. -/
def validateLink (i : Nat) (parent pca : Pca) : Except ChainValidationError Unit := do
  failIf (pca.expiresAt > parent.expiresAt)
    (.expiryExceedsParent i (P.toRfc3339 parent.expiresAt) (P.toRfc3339 pca.expiresAt))
  let prevHash ← okOr pca.prevHash (.missingPrevHash i)
  let parentHash ← validateHash P (i - 1) parent
  failIf (prevHash ≠ parentHash) (.hashMismatch i parentHash.toHex prevHash.toHex)
  let rootHash ← okOr pca.rootHash (.rootHashMissing i)
  failIf (rootHash ≠ expectedRootHash)
    (.rootHashMismatch i expectedRootHash.toHex rootHash.toHex)
  validateIssuer i parent pca
  validateKeyedTransitions i parent.capabilities pca.capabilities validator

/-- One turn of the loop; the root has no parent to be checked against. -/
def validatePca (i : Nat) (parent : Option Pca) (pca : Pca) :
    Except ChainValidationError Unit := do
  validateSignature P i pca
  failIf (pca.isExpiredAt currentTime) (.expired i (P.toRfc3339 pca.expiresAt))
  match parent with
  | none => .ok ()
  | some parent => validateLink P validateIssuer validator expectedRootHash i parent pca

/-- The loop over the PCAs, with the index and the PCA before it. -/
def validatePcas (i : Nat) (parent : Option Pca) : List Pca → Except ChainValidationError Unit
  | [] => .ok ()
  | pca :: rest => do
    validatePca P validateIssuer validator currentTime expectedRootHash i parent pca
    validatePcas (i + 1) (some pca) rest

/-- The body the two validators share, from the root checks on. -/
def validateFromRoot (validateRootIssuer : Pca → Except ChainValidationError Unit) (root : Pca)
    (chain : List Pca) : Except ChainValidationError Unit := do
  failIf (!root.isRoot) .rootHasPrevHash
  validateRootIssuer root
  failIf root.rootHash.isSome .rootHasRootHash
  let expectedRootHash ← validateHash P 0 root
  validatePcas P validateIssuer validator currentTime expectedRootHash 0 none chain

end Validators

/-- Validate a complete PCA chain using keyed capability matching. -/
def validateChain (P : Primitives) (chain : List Pca) (rootAuthority : PublicKey)
    (validator : TransitionValidator) (currentTime : DateTime) : Except ChainValidationError Unit :=
  match chain with
  | [] => .error .emptyChain
  | root :: _ => do
    failIf (chain.length > maxChainDepth) (.chainTooDeep chain.length maxChainDepth)
    validateFromRoot P validateExecutorIssuer validator currentTime
      (validateRootAuthority rootAuthority) root chain

/-- Validate a CTA-signed PCA chain. -/
def validateCtaChain (P : Primitives) (chain : List Pca)
    (rootAuthorities trustedCtas : List PublicKey) (validator : TransitionValidator)
    (currentTime : DateTime) : Except ChainValidationError Unit :=
  match chain with
  | [] => .error .emptyChain
  | root :: _ =>
    validateFromRoot P (validateTrustedIssuer trustedCtas) validator currentTime
      (validateRootAuthorities rootAuthorities) root chain

/-! ### Valid chains -/

/-- The rules of a consecutive pair, under an issuer rule. -/
structure Linked (P : Primitives) (issuerRule : Pca → Pca → Prop) (validator : TransitionValidator)
    (root parent child : Pca) : Prop where
  expiry : child.expiresAt ≤ parent.expiresAt
  prevHash : ∃ hash, parent.tryHash P = .ok hash ∧ child.prevHash = some hash
  rootHash : ∃ hash, root.tryHash P = .ok hash ∧ child.rootHash = some hash
  issuer : issuerRule parent child
  attenuates : Attenuates validator parent.capabilities child.capabilities

/-- A non-empty chain that obeys every rule, under a rule for the root issuer and one for the
others. -/
structure ValidChain (P : Primitives) (rootRule : Pca → Prop) (issuerRule : Pca → Pca → Prop)
    (validator : TransitionValidator) (currentTime : DateTime) (root : Pca) (chain : List Pca) :
    Prop where
  head : chain.head? = some root
  rootIssuer : rootRule root
  rootPrevHash : root.prevHash = none
  rootRootHash : root.rootHash = none
  signed : ∀ pca ∈ chain, pca.tryVerifySignature P = .ok ()
  current : ∀ pca ∈ chain, currentTime < pca.expiresAt
  linked : chain.IsChain (Linked P issuerRule validator root)

/-- Issuer rules of `validate_chain` past the root. -/
def ExecutorIssued (parent child : Pca) : Prop :=
  parent.designatedExecutor = .publicKey child.issuer

/-- Issuer rules of `validate_cta_chain` past the root. -/
def CtaIssued (trustedCtas : List PublicKey) (_parent child : Pca) : Prop :=
  child.issuer ∈ trustedCtas

section Correctness

variable {P : Primitives} {validateIssuer : Nat → Pca → Pca → Except ChainValidationError Unit}
  {validateRootIssuer : Pca → Except ChainValidationError Unit}
  {rootRule : Pca → Prop} {issuerRule : Pca → Pca → Prop} {validator : TransitionValidator}
  {currentTime : DateTime} {root : Pca} {chain : List Pca}

lemma validateSignature_eq_ok {i : Nat} {pca : Pca} :
    validateSignature P i pca = .ok () ↔ pca.tryVerifySignature P = .ok () := by
  simp only [validateSignature]
  split <;> simp_all

lemma validateRootAuthority_eq_ok (rootAuthority : PublicKey) (root : Pca) :
    validateRootAuthority rootAuthority root = .ok () ↔ root.issuer = rootAuthority := by
  simp [validateRootAuthority, failIf_eq_ok]

lemma validateRootAuthorities_eq_ok (rootAuthorities : List PublicKey) (root : Pca) :
    validateRootAuthorities rootAuthorities root = .ok () ↔ root.issuer ∈ rootAuthorities := by
  simp [validateRootAuthorities, failIf_eq_ok]

lemma validateExecutorIssuer_eq_ok (i : Nat) (parent pca : Pca) :
    validateExecutorIssuer i parent pca = .ok () ↔ ExecutorIssued parent pca := by
  simp only [validateExecutorIssuer, ExecutorIssued]
  cases parent.designatedExecutor <;> simp [failIf_eq_ok, eq_comm (a := pca.issuer)]

lemma validateTrustedIssuer_eq_ok (trustedCtas : List PublicKey) (i : Nat) (parent pca : Pca) :
    validateTrustedIssuer trustedCtas i parent pca = .ok () ↔ CtaIssued trustedCtas parent pca := by
  simp [validateTrustedIssuer, CtaIssued, failIf_eq_ok]

lemma validateLink_eq_ok (hissuer : ∀ i p c, validateIssuer i p c = .ok () ↔ issuerRule p c)
    {rootHash : PcaHash} (hroot : root.tryHash P = .ok rootHash) {i : Nat} {parent pca : Pca} :
    validateLink P validateIssuer validator rootHash i parent pca = .ok () ↔
      Linked P issuerRule validator root parent pca := by
  simp only [validateLink, validateHash, validateKeyedTransitions, bind_eq_ok, exists_unit,
    failIf_eq_ok, okOr_eq_ok, mapError_eq_ok, keyedTransitions_eq_ok, hissuer, not_not, gt_iff_lt,
    Int.not_lt]
  constructor
  · rintro ⟨hexp, prev, hprev, parentHash, hparent, rfl, rootHash', hrootHash, rfl, hiss, hatt⟩
    exact ⟨hexp, ⟨_, hparent, hprev⟩, ⟨_, hroot, hrootHash⟩, hiss, hatt⟩
  · rintro ⟨hexp, ⟨prev, hparent, hprev⟩, ⟨rootHash', hroot', hrootHash⟩, hiss, hatt⟩
    obtain rfl : rootHash = rootHash' := by simpa [hroot] using hroot'
    exact ⟨hexp, prev, hprev, prev, hparent, rfl, rootHash, hrootHash, rfl, hiss, hatt⟩

/-- The loop accepts exactly the lists whose members are signed and current and whose neighbours,
the parent before the list included, are linked. -/
lemma validatePcas_eq_ok (hissuer : ∀ i p c, validateIssuer i p c = .ok () ↔ issuerRule p c)
    {rootHash : PcaHash} (hroot : root.tryHash P = .ok rootHash) {i : Nat} {parent : Option Pca}
    {pcas : List Pca} :
    validatePcas P validateIssuer validator currentTime rootHash i parent pcas = .ok () ↔
      (∀ pca ∈ pcas, pca.tryVerifySignature P = .ok ()) ∧
      (∀ pca ∈ pcas, currentTime < pca.expiresAt) ∧
      (parent.toList ++ pcas).IsChain (Linked P issuerRule validator root) := by
  induction pcas generalizing i parent with
  | nil => cases parent <;> simp [validatePcas]
  | cons pca rest ih =>
    simp only [validatePcas, validatePca, bind_eq_ok, exists_unit, validateSignature_eq_ok,
      failIf_eq_ok, Pca.isExpiredAt, decide_eq_true_eq, Int.not_le, ge_iff_le, ih, List.mem_cons,
      forall_eq_or_imp, Option.toList_some, List.singleton_append]
    cases parent with
    | none =>
      simp only [Option.toList_none, List.nil_append]
      tauto
    | some parent =>
      simp only [Option.toList_some, List.singleton_append, List.isChain_cons_cons,
        validateLink_eq_ok hissuer hroot]
      tauto

/-- The shared body decides `ValidChain`. -/
lemma validateFromRoot_eq_ok (hissuer : ∀ i p c, validateIssuer i p c = .ok () ↔ issuerRule p c)
    (hrootIssuer : ∀ root, validateRootIssuer root = .ok () ↔ rootRule root)
    {rest : List Pca} :
    validateFromRoot P validateIssuer validator currentTime validateRootIssuer root (root :: rest)
      = .ok () ↔
      ValidChain P rootRule issuerRule validator currentTime root (root :: rest) := by
  simp only [validateFromRoot, validateHash, bind_eq_ok, exists_unit, failIf_eq_ok, Pca.isRoot,
    mapError_eq_ok, hrootIssuer, Bool.not_eq_true', Bool.not_eq_false, Option.isNone_iff_eq_none,
    Option.not_isSome_iff_eq_none]
  constructor
  · rintro ⟨hprev, hiss, hrootHash, hash, hhash, hpcas⟩
    obtain ⟨hsigned, hcurrent, hlinked⟩ := (validatePcas_eq_ok hissuer hhash).mp hpcas
    exact ⟨rfl, hiss, hprev, hrootHash, hsigned, hcurrent, hlinked⟩
  · intro h
    -- the root's hash exists because its signature was checked over the same bytes
    obtain ⟨hash, hhash⟩ := Pca.exists_tryHash (h.signed root (by simp))
    exact ⟨h.rootPrevHash, h.rootIssuer, h.rootRootHash, hash, hhash,
      (validatePcas_eq_ok hissuer hhash).mpr ⟨h.signed, h.current, h.linked⟩⟩

lemma validateChain_eq_ok {rootAuthority : PublicKey} :
    validateChain P chain rootAuthority validator currentTime = .ok () ↔
      chain.length ≤ maxChainDepth ∧
        ∃ root, ValidChain P (·.issuer = rootAuthority) ExecutorIssued validator currentTime root
          chain := by
  cases chain with
  | nil =>
    simp only [validateChain, reduceCtorEq, false_iff]
    rintro ⟨_, root, h⟩
    simpa using h.head
  | cons root rest =>
    simp only [validateChain, bind_eq_ok, exists_unit, failIf_eq_ok, gt_iff_lt, Nat.not_lt]
    rw [validateFromRoot_eq_ok validateExecutorIssuer_eq_ok
      (validateRootAuthority_eq_ok rootAuthority)]
    refine and_congr_right fun _ => ⟨fun h => ⟨root, h⟩, ?_⟩
    rintro ⟨root', h⟩
    obtain rfl : root = root' := by simpa using h.head
    exact h

lemma validateCtaChain_eq_ok {rootAuthorities trustedCtas : List PublicKey} :
    validateCtaChain P chain rootAuthorities trustedCtas validator currentTime = .ok () ↔
      ∃ root, ValidChain P (·.issuer ∈ rootAuthorities) (CtaIssued trustedCtas) validator
        currentTime root chain := by
  cases chain with
  | nil =>
    simp only [validateCtaChain, reduceCtorEq, false_iff]
    rintro ⟨root, h⟩
    simpa using h.head
  | cons root rest =>
    rw [validateCtaChain, validateFromRoot_eq_ok (validateTrustedIssuer_eq_ok trustedCtas)
      (validateRootAuthorities_eq_ok rootAuthorities)]
    refine ⟨fun h => ⟨root, h⟩, ?_⟩
    rintro ⟨root', h⟩
    obtain rfl : root = root' := by simpa using h.head
    exact h

end Correctness

end AmlaSandbox.Protocol
