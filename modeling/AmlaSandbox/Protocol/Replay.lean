import AmlaSandbox.Protocol.Cta

/-!
# Chain extension and replay protection

A PCA that a trusted CTA emits on the last link of a valid chain extends it to a valid chain. With
the stateful validator a CTA spends a random nonce at its freshness check. Failures up to that check
leave the seen nonces alone; later ones do not give the nonce back, so over any sequence of
submissions a nonce leads to at most one emitted PCA.
-/

namespace AmlaSandbox.Protocol

open Library

/-! ## Chain extension -/

section

variable {P : Primitives} {σ : Type} {rootRule : Pca → Prop} {issuerRule : Pca → Pca → Prop}
  {validator : TransitionValidator} {currentTime : DateTime} {root last child : Pca}
  {chain : List Pca}

namespace ValidChain

/-- A signed, current PCA that is linked to the last one extends the chain. -/
lemma concat (h : ValidChain P rootRule issuerRule validator currentTime root chain)
    (hlast : chain.getLast? = some last) (hsigned : child.tryVerifySignature P = .ok ())
    (hcurrent : currentTime < child.expiresAt)
    (hlinked : Linked P issuerRule validator root last child) :
    ValidChain P rootRule issuerRule validator currentTime root (chain ++ [child]) where
  head := by rw [List.head?_append, h.head]; rfl
  rootIssuer := h.rootIssuer
  rootPrevHash := h.rootPrevHash
  rootRootHash := h.rootRootHash
  signed pca hpca := by
    rcases List.mem_append.mp hpca with hpca | hpca
    · exact h.signed pca hpca
    · rw [List.mem_singleton.mp hpca]
      exact hsigned
  current pca hpca := by
    rcases List.mem_append.mp hpca with hpca | hpca
    · exact h.current pca hpca
    · rw [List.mem_singleton.mp hpca]
      exact hcurrent
  linked := by
    apply h.linked.append (.singleton child)
    intro pca hpca c hc
    obtain rfl : pca = last := by simpa [hlast] using hpca.symm
    obtain rfl : child = c := by simpa using hc
    exact hlinked

/-- The root hash a CTA copies from the last link is the hash of the chain's root: either the last
link is the root, or its own root hash was checked. -/
lemma nextRootHash_eq (h : ValidChain P rootRule issuerRule validator currentTime root chain)
    (hlast : chain.getLast? = some last) {rootHash : PcaHash}
    (hnext : Cta.nextRootHash P last = .ok rootHash) : root.tryHash P = .ok rootHash := by
  rcases eq_head_or_rel_last h.linked h.head hlast with rfl | ⟨parent, _, hlink⟩
  · simpa [Cta.nextRootHash, h.rootRootHash, Pca.isRoot, h.rootPrevHash, mapError_eq_ok] using hnext
  · obtain ⟨hash, hhash, hroot⟩ := hlink.rootHash
    simp only [Cta.nextRootHash, hroot, Except.ok.injEq] at hnext
    exact hnext ▸ hhash

end ValidChain

/-- The emitted PCA is linked to its parent as a chain validator asks. -/
lemma Cta.linked_of_emitPca {cta : Cta P σ} {poc : ProofOfContinuity}
    {request : ContinuationRequest} {trustedCtas : List PublicKey}
    (hkey : cta.publicKey ∈ trustedCtas)
    (hpoc : cta.verifyProofOfContinuity last poc request = .ok ())
    (hemit : cta.emitPca last poc request = .ok child)
    (hroot : ∀ rootHash, nextRootHash P last = .ok rootHash → root.tryHash P = .ok rootHash) :
    Linked P (CtaIssued trustedCtas) cta.validator root last child := by
  obtain ⟨hatt, hexp, rootHash, hnext, hbuilt⟩ := emitPca_eq_ok hemit
  have hexpiry : request.expiresAt = child.expiresAt := by
    simpa [nextBuilder] using hbuilt.expiresAt
  refine ⟨hexpiry ▸ hexp, ⟨_, tryHash_of_verifyProofOfContinuity hpoc, hbuilt.prevHash⟩,
    ⟨_, hroot _ hnext, hbuilt.rootHash⟩, ?_, ?_⟩
  · rw [CtaIssued, hbuilt.issuer]
    exact hkey
  · rw [hbuilt.capabilities]
    exact hatt

/-- Whatever a trusted CTA emits on the last link of a valid chain extends the chain to one that is
valid whenever the old chain and the new link are. -/
theorem validateCtaChain_concat (hsign : P.SignsCorrectly) (cta : Cta P σ) (s : σ)
    (chain : List Pca) (last child : Pca) (poc : ProofOfContinuity) (request : ContinuationRequest)
    (now time : DateTime) (rootAuthorities trustedCtas : List PublicKey)
    (hkey : cta.publicKey ∈ trustedCtas) (hlast : chain.getLast? = some last)
    (hsubmit : (cta.submit last poc request now s).1 = .ok child)
    (hvalid : validateCtaChain P chain rootAuthorities trustedCtas cta.validator time = .ok ())
    (htime : time < child.expiresAt) :
    validateCtaChain P (chain ++ [child]) rootAuthorities trustedCtas cta.validator time
      = .ok () := by
  obtain ⟨root, h⟩ := validateCtaChain_eq_ok.mp hvalid
  obtain ⟨_, _, hpoc, hemit⟩ := Cta.submit_eq_ok.mp hsubmit
  obtain ⟨_, _, rootHash, _, hbuilt⟩ := Cta.emitPca_eq_ok hemit
  have hlinked := Cta.linked_of_emitPca hkey hpoc hemit
    fun _ hnext => h.nextRootHash_eq hlast hnext
  exact validateCtaChain_eq_ok.mpr
    ⟨root, h.concat hlast (hbuilt.tryVerifySignature hsign) htime hlinked⟩

/-! ### A concrete extension -/

/-- A CTA that holds the key of the `hop` chain. -/
def hopCta : Cta .transparent (Finset (Vector UInt8 32)) where
  keypair := hopPair
  validator _ _ := .ok ()
  rootAuthorities := [hopKey]
  trustedCtas := [hopKey]
  resolver := rejectAllResolver
  freshness := statefulFreshnessValidator 60000000000

def hopRequest : ContinuationRequest where
  capabilities := [⟨"cap:test", "function", []⟩]
  designatedExecutor := .publicKey hopKey
  expiresAt := 100
  payload := some [1]

/-- The proof of continuity for a request on the root of the `hop` chain. -/
def hopPoc (request : ContinuationRequest) (nonce : Vector UInt8 32) : ProofOfContinuity :=
  let pocPartial : ProofOfContinuity := {
    parentHash := ⟨firstBytes [0]⟩, executorKey := hopKey, signature := .ed25519 (.replicate 64 0)
    challenge := .random nonce, characteristicProof := none }
  { pocPartial with signature := hopPair.sign (pocPartial.buildMessage .transparent request) }

theorem validateCtaChain_concat_hop :
    validateCtaChain .transparent (hops 1 ++ [hop 1]) [hopKey] [hopKey] hopCta.validator 0 =
      .ok () :=
  validateCtaChain_concat Primitives.transparent_signsCorrectly hopCta ∅ (hops 1) (hop 0) (hop 1)
    (hopPoc hopRequest (firstBytes [5])) hopRequest 0 0 [hopKey] [hopKey] (by decide +kernel) rfl
    (by decide +kernel) (by decide +kernel) (by decide)

end

/-! ## Replay protection -/

variable {P : Primitives} {σ : Type}

/-- A submission to the CTA requesting continuation. -/
structure CtaSubmission where
  parentPca : Pca
  proofOfContinuity : ProofOfContinuity
  continuationRequest : ContinuationRequest

namespace Cta

def submitRequest (cta : Cta P σ) (submission : CtaSubmission) (now : DateTime) (s : σ) :
    Except CtaError Pca × σ :=
  cta.submit submission.parentPca submission.proofOfContinuity submission.continuationRequest now s

/-- The CTA with another freshness validator. -/
def withFreshness {τ : Type} (cta : Cta P σ) (freshness : FreshnessValidator τ) : Cta P τ :=
  { cta with freshness }

/-- Submissions one after the other, each with its time; the results and the last state. -/
def submitAll (cta : Cta P σ) (s : σ) :
    List (CtaSubmission × DateTime) → List (Except CtaError Pca) × σ
  | [] => ([], s)
  | (submission, now) :: rest =>
    let (result, s') := cta.submitRequest submission now s
    let (results, s'') := submitAll cta s' rest
    (result :: results, s'')

end Cta

section Stateful

variable (cta : Cta P σ) (maxSkew : Int)

/-- The CTA under the stateful freshness validator. -/
def Cta.stateful : Cta P (Finset (Vector UInt8 32)) :=
  cta.withFreshness (statefulFreshnessValidator maxSkew)

/-- The random nonce of a submission. -/
def CtaSubmission.nonce? (submission : CtaSubmission) : Option (Vector UInt8 32) :=
  match submission.proofOfContinuity.challenge with
  | .random nonce => some nonce
  | .timestamp .. => none

variable {cta maxSkew} {submission : CtaSubmission} {now : DateTime}
  {seen : Finset (Vector UInt8 32)} {nonce : Vector UInt8 32}

lemma nonce?_eq_some :
    submission.nonce? = some nonce ↔ submission.proofOfContinuity.challenge = .random nonce := by
  simp only [CtaSubmission.nonce?]
  split <;> simp_all

lemma validate_of_mem (hnonce : submission.nonce? = some nonce) (hmem : nonce ∈ seen) :
    (cta.stateful maxSkew).freshness.validate submission.proofOfContinuity.challenge now seen =
      (.error .replay, seen) := by
  rw [nonce?_eq_some.mp hnonce]
  exact if_pos hmem

lemma validate_of_notMem (hnonce : submission.nonce? = some nonce) (hmem : nonce ∉ seen) :
    (cta.stateful maxSkew).freshness.validate submission.proofOfContinuity.challenge now seen =
      (.ok (), insert nonce seen) := by
  rw [nonce?_eq_some.mp hnonce]
  exact if_neg hmem

lemma validate_of_timestamp (hnonce : submission.nonce? = none) :
    ((cta.stateful maxSkew).freshness.validate submission.proofOfContinuity.challenge now seen).2 =
      seen := by
  simp only [CtaSubmission.nonce?] at hnonce
  split at hnonce
  · cases hnonce
  · simp only [Cta.stateful, Cta.withFreshness, statefulFreshnessValidator, *]

/-! ### One submission -/

lemma submitRequest_of_parent_error {e : CtaError}
    (hparent : (cta.stateful maxSkew).verifyParent submission.parentPca now = .error e) :
    (cta.stateful maxSkew).submitRequest submission now seen = (.error e, seen) := by
  simp only [Cta.submitRequest, Cta.submit, hparent]

/-- A nonce that was seen is not fresh. -/
lemma submitRequest_of_mem (hnonce : submission.nonce? = some nonce) (hmem : nonce ∈ seen)
    (hparent : (cta.stateful maxSkew).verifyParent submission.parentPca now = .ok ()) :
    (cta.stateful maxSkew).submitRequest submission now seen =
      (.error (.freshnessError .replay), seen) :=
  Cta.submit_of_stale hparent (validate_of_mem hnonce hmem)

/-- A new nonce is spent, whatever the steps after the freshness check return. -/
lemma submitRequest_of_notMem (hnonce : submission.nonce? = some nonce) (hmem : nonce ∉ seen)
    (hparent : (cta.stateful maxSkew).verifyParent submission.parentPca now = .ok ()) :
    (cta.stateful maxSkew).submitRequest submission now seen =
      (do (cta.stateful maxSkew).verifyProofOfContinuity submission.parentPca
            submission.proofOfContinuity submission.continuationRequest
          (cta.stateful maxSkew).emitPca submission.parentPca submission.proofOfContinuity
            submission.continuationRequest, insert nonce seen) :=
  Cta.submit_of_fresh hparent (validate_of_notMem hnonce hmem)

lemma submitRequest_of_timestamp (hnonce : submission.nonce? = none) :
    ((cta.stateful maxSkew).submitRequest submission now seen).2 = seen := by
  have hstate := @validate_of_timestamp _ _ cta maxSkew submission now seen hnonce
  simp only [Cta.submitRequest, Cta.submit]
  split
  · rfl
  · split <;> simp_all

/-- A submission changes the seen nonces at most by its own nonce. -/
lemma submitRequest_state :
    ((cta.stateful maxSkew).submitRequest submission now seen).2 = seen ∨
      ∃ nonce, submission.nonce? = some nonce ∧
        ((cta.stateful maxSkew).submitRequest submission now seen).2 = insert nonce seen := by
  cases hnonce : submission.nonce? with
  | none => exact .inl (submitRequest_of_timestamp hnonce)
  | some nonce =>
    cases hparent : (cta.stateful maxSkew).verifyParent submission.parentPca now with
    | error e => exact .inl (by rw [submitRequest_of_parent_error hparent])
    | ok u =>
      by_cases hmem : nonce ∈ seen
      · exact .inl (by rw [submitRequest_of_mem hnonce hmem hparent])
      · exact .inr ⟨nonce, rfl, by rw [submitRequest_of_notMem hnonce hmem hparent]⟩

lemma subset_submitRequest :
    seen ⊆ ((cta.stateful maxSkew).submitRequest submission now seen).2 := by
  rcases submitRequest_state with h | ⟨nonce, _, h⟩
  · rw [h]
  · rw [h]
    exact Finset.subset_insert nonce seen

/-- A failure at or before the freshness check leaves the seen nonces unchanged. -/
lemma submitRequest_of_early_failure
    (h : (cta.stateful maxSkew).verifyParent submission.parentPca now ≠ .ok () ∨
      ((cta.stateful maxSkew).freshness.validate submission.proofOfContinuity.challenge now seen).1
        ≠ .ok ()) :
    ((cta.stateful maxSkew).submitRequest submission now seen).2 = seen := by
  cases hnonce : submission.nonce? with
  | none => exact submitRequest_of_timestamp hnonce
  | some nonce =>
    cases hparent : (cta.stateful maxSkew).verifyParent submission.parentPca now with
    | error e => rw [submitRequest_of_parent_error hparent]
    | ok u =>
      by_cases hmem : nonce ∈ seen
      · rw [submitRequest_of_mem hnonce hmem hparent]
      · refine absurd ?_ (h.resolve_left (not_not.mpr hparent))
        rw [validate_of_notMem hnonce hmem]

/-- A failure of the attenuation, expiry or build step has spent the nonce. -/
lemma submitRequest_of_late_failure {e : CtaError} (hnonce : submission.nonce? = some nonce)
    (hmem : nonce ∉ seen)
    (hparent : (cta.stateful maxSkew).verifyParent submission.parentPca now = .ok ())
    (hpoc : (cta.stateful maxSkew).verifyProofOfContinuity submission.parentPca
      submission.proofOfContinuity submission.continuationRequest = .ok ())
    (hemit : (cta.stateful maxSkew).emitPca submission.parentPca submission.proofOfContinuity
      submission.continuationRequest = .error e) :
    (cta.stateful maxSkew).submitRequest submission now seen = (.error e, insert nonce seen) := by
  rw [submitRequest_of_notMem hnonce hmem hparent, hpoc, hemit]
  rfl

/-- An emitted PCA spends its nonce: it was not seen before and is afterwards. -/
lemma nonce_of_emitted {child : Pca} (hnonce : submission.nonce? = some nonce)
    (h : ((cta.stateful maxSkew).submitRequest submission now seen).1 = .ok child) :
    nonce ∉ seen ∧ nonce ∈ ((cta.stateful maxSkew).submitRequest submission now seen).2 := by
  have hparent := (Cta.submit_eq_ok.mp h).1
  by_cases hmem : nonce ∈ seen
  · rw [submitRequest_of_mem hnonce hmem hparent] at h
    cases h
  · rw [submitRequest_of_notMem hnonce hmem hparent]
    exact ⟨hmem, Finset.mem_insert_self nonce seen⟩

/-! ### Sequences -/

lemma subset_submitAll {subs : List (CtaSubmission × DateTime)} :
    seen ⊆ ((cta.stateful maxSkew).submitAll seen subs).2 := by
  induction subs generalizing seen with
  | nil => exact Finset.Subset.refl _
  | cons sub rest ih => exact subset_submitRequest.trans ih

/-- Only a nonce not seen before the sequence leads to a PCA in it. -/
lemma nonce_notMem_of_emitted {subs : List (CtaSubmission × DateTime)} {j : Nat} {child : Pca}
    (hsub : subs[j]? = some (submission, now)) (hnonce : submission.nonce? = some nonce)
    (h : ((cta.stateful maxSkew).submitAll seen subs).1[j]? = some (.ok child)) :
    nonce ∉ seen := by
  induction subs generalizing seen j with
  | nil => simp at hsub
  | cons sub rest ih =>
    cases j with
    | zero =>
      obtain rfl : sub = (submission, now) := by simpa using hsub
      exact (nonce_of_emitted hnonce (by simpa [Cta.submitAll] using h)).1
    | succ j =>
      refine fun hmem => ih (by simpa using hsub) (by simpa [Cta.submitAll] using h) ?_
      exact subset_submitRequest hmem

lemma nonce_ne_of_emitted {subs : List (CtaSubmission × DateTime)} {i j : Nat} (hij : i < j)
    {submission' : CtaSubmission} {now' : DateTime} {child child' : Pca}
    (hi : subs[i]? = some (submission, now)) (hj : subs[j]? = some (submission', now'))
    (hnonce : submission.nonce? = some nonce) (hnonce' : submission'.nonce? = some nonce)
    (h : ((cta.stateful maxSkew).submitAll seen subs).1[i]? = some (.ok child)) :
    ((cta.stateful maxSkew).submitAll seen subs).1[j]? ≠ some (.ok child') := by
  induction subs generalizing seen i j with
  | nil => simp at hi
  | cons sub rest ih =>
    obtain ⟨j, rfl⟩ : ∃ k, j = k + 1 := ⟨j - 1, by omega⟩
    cases i with
    | zero =>
      obtain rfl : sub = (submission, now) := by simpa using hi
      intro h'
      apply nonce_notMem_of_emitted (by simpa using hj) hnonce' (by simpa [Cta.submitAll] using h')
      exact (nonce_of_emitted hnonce (by simpa [Cta.submitAll] using h)).2
    | succ i =>
      have hij : i < j := by omega
      simpa [Cta.submitAll] using
        ih hij (by simpa using hi) (by simpa using hj) (by simpa [Cta.submitAll] using h)

/-- The nonce discipline of the stateful CTA. Failures up to the freshness check leave no trace; a
submission that proved continuity and then fails the attenuation, expiry or build step has spent its
nonce for every later submission; nothing but the submission's own nonce is ever recorded; and in
any sequence a nonce leads to at most one PCA. -/
theorem stateful_nonce_discipline (cta : Cta P σ) (maxSkew : Int) :
    let c := cta.stateful maxSkew
    (∀ submission now seen,
      c.verifyParent submission.parentPca now ≠ .ok () ∨
        (c.freshness.validate submission.proofOfContinuity.challenge now seen).1 ≠ .ok () →
      (c.submitRequest submission now seen).2 = seen) ∧
    (∀ submission now seen nonce e, submission.nonce? = some nonce → nonce ∉ seen →
      c.verifyParent submission.parentPca now = .ok () →
      c.verifyProofOfContinuity submission.parentPca submission.proofOfContinuity
        submission.continuationRequest = .ok () →
      c.emitPca submission.parentPca submission.proofOfContinuity submission.continuationRequest
        = .error e →
      c.submitRequest submission now seen = (.error e, insert nonce seen) ∧
      ∀ subs later laterNow, later.nonce? = some nonce →
        c.verifyParent later.parentPca laterNow = .ok () →
        (c.submitRequest later laterNow (c.submitAll (insert nonce seen) subs).2).1 =
          .error (.freshnessError .replay)) ∧
    (∀ submission now seen, (c.submitRequest submission now seen).2 = seen ∨
      ∃ nonce, submission.nonce? = some nonce ∧
        (c.submitRequest submission now seen).2 = insert nonce seen) ∧
    (∀ seen subs (i j : Nat) submission submission' now now' nonce child child', i < j →
      subs[i]? = some (submission, now) → subs[j]? = some (submission', now') →
      submission.nonce? = some nonce → submission'.nonce? = some nonce →
      (c.submitAll seen subs).1[i]? = some (.ok child) →
      (c.submitAll seen subs).1[j]? ≠ some (.ok child')) := by
  refine ⟨fun _ _ _ => submitRequest_of_early_failure, ?_, fun _ _ _ => submitRequest_state,
    fun _ _ _ _ _ _ _ _ _ _ _ hij hi hj hn hn' h => nonce_ne_of_emitted hij hi hj hn hn' h⟩
  intro submission now seen nonce e hnonce hmem hparent hpoc hemit
  refine ⟨submitRequest_of_late_failure hnonce hmem hparent hpoc hemit, ?_⟩
  intro subs later laterNow hlater hlaterParent
  have hspent : nonce ∈ ((cta.stateful maxSkew).submitAll (insert nonce seen) subs).2 :=
    subset_submitAll (Finset.mem_insert_self nonce seen)
  rw [submitRequest_of_mem hlater hspent hlaterParent]

end Stateful

/-- A request for a capability that the parent does not have. -/
def hopWideRequest : ContinuationRequest :=
  { hopRequest with capabilities := [⟨"cap:other", "function", []⟩] }

/-- A request that fails at the attenuation step spends the nonce: the well-formed request that
follows is a replay, although it is accepted where the failed one was not tried first. -/
theorem failed_submit_spends_nonce :
    let nonce := firstBytes [5]
    let failed := hopCta.submit (hop 0) (hopPoc hopWideRequest nonce) hopWideRequest 0 ∅
    failed = (.error (.unknownCapabilityKey "cap:other"), {nonce}) ∧
    (hopCta.submit (hop 0) (hopPoc hopRequest nonce) hopRequest 0 failed.2).1 =
      .error (.freshnessError .replay) ∧
    (hopCta.submit (hop 0) (hopPoc hopRequest nonce) hopRequest 0 ∅).1 = .ok (hop 1) := by
  decide +kernel

end AmlaSandbox.Protocol
