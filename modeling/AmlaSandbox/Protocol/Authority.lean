import AmlaSandbox.Protocol.Chain
import Mathlib.Data.List.Range

/-!
# Authority along a chain

What acceptance by the validators means for the capabilities of a chain, and when the two
validators give the same answer.
-/

namespace AmlaSandbox.Protocol

open Library

variable {P : Primitives} {rootRule : Pca → Prop} {issuerRule : Pca → Pca → Prop}
  {validator : TransitionValidator} {currentTime : DateTime} {root : Pca} {chain : List Pca}

/-! ### Capabilities -/

/-- One capability of every link under one key, each an accepted transition of the one before. -/
def Lineage (validator : TransitionValidator) : List Pca → List CapabilityData → Prop :=
  Thread (fun pca cap => cap ∈ pca.capabilities)
    (fun parent child => parent.key = child.key ∧ validator parent child = .ok ())

namespace ValidChain

lemma keys_subset (h : ValidChain P rootRule issuerRule validator currentTime root chain)
    {i j : Nat} (hij : i < j) {a b : Pca} (ha : chain[i]? = some a) (hb : chain[j]? = some b) :
    b.keys ⊆ a.keys := by
  have htrans : IsTrans Pca (fun p c => c.keys ⊆ p.keys) := ⟨fun _ _ _ hpq hqr _ hk => hpq (hqr hk)⟩
  exact rel_of_isChain (h.linked.imp fun _ _ hlink => hlink.attenuates.keys_subset) hij ha hb

lemma exists_lineage (h : ValidChain P rootRule issuerRule validator currentTime root chain)
    {leaf : Pca} (hleaf : chain.getLast? = some leaf) {cap : CapabilityData}
    (hcap : cap ∈ leaf.capabilities) :
    ∃ caps, Lineage validator chain caps ∧ caps.getLast? = some cap := by
  refine exists_thread (h.linked.imp fun parent child hlink c hc => ?_) hleaf hcap
  obtain ⟨p, hp, hkey, hval⟩ := hlink.attenuates.origin c hc
  exact ⟨p, hp, hkey, hval⟩

end ValidChain

/-- `validate_chain` decides the chain specification, and an accepted chain only ever gives up
keys and traces every capability of its last link back to the root. -/
theorem validateChain_decides (P : Primitives) (chain : List Pca) (rootAuthority : PublicKey)
    (validator : TransitionValidator) (currentTime : DateTime) :
    (validateChain P chain rootAuthority validator currentTime = .ok () ↔
      1 ≤ chain.length ∧ chain.length ≤ maxChainDepth ∧ ∃ root,
        ValidChain P (·.issuer = rootAuthority) ExecutorIssued validator currentTime root chain) ∧
    (validateChain P chain rootAuthority validator currentTime = .ok () →
      (∀ (i j : Nat) (a b : Pca), i < j → chain[i]? = some a → chain[j]? = some b →
        b.keys ⊆ a.keys) ∧
      ∀ leaf cap, chain.getLast? = some leaf → cap ∈ leaf.capabilities →
        ∃ caps, Lineage validator chain caps ∧ caps.getLast? = some cap) := by
  rw [validateChain_eq_ok]
  refine ⟨⟨fun ⟨hdepth, root, h⟩ => ⟨?_, hdepth, root, h⟩, fun h => h.2⟩, ?_⟩
  · exact List.length_pos_of_mem (List.mem_of_mem_head? (Option.mem_def.mpr h.head))
  · rintro ⟨_, root, h⟩
    exact ⟨fun i j a b hij ha hb => h.keys_subset hij ha hb,
      fun leaf cap hleaf hcap => h.exists_lineage hleaf hcap⟩

/-! ### The two validators -/

/-- A chain under both issuer regimes: the root issuer is trusted by both validators, and every
other issuer is the parent's executor key and a trusted CTA. -/
structure BothRegimes (rootAuthority : PublicKey) (rootAuthorities trustedCtas : List PublicKey)
    (chain : List Pca) : Prop where
  root : ∀ root, chain.head? = some root →
    root.issuer = rootAuthority ∧ root.issuer ∈ rootAuthorities
  links : chain.IsChain fun p c => ExecutorIssued p c ∧ CtaIssued trustedCtas p c

/-- The rules the validators share: everything but who may issue and how long a chain may be. -/
def SharedRules (P : Primitives) (validator : TransitionValidator) (currentTime : DateTime)
    (chain : List Pca) : Prop :=
  ∃ root, ValidChain P (fun _ => True) (fun _ _ => True) validator currentTime root chain

/-- On a chain that obeys the issuer rules, the other rules are the shared ones. -/
lemma exists_validChain_iff_sharedRules (hroot : ∀ root, chain.head? = some root → rootRule root)
    (hlinks : chain.IsChain issuerRule) :
    (∃ root, ValidChain P rootRule issuerRule validator currentTime root chain) ↔
      SharedRules P validator currentTime chain := by
  apply exists_congr
  intro root
  constructor
  · intro h
    exact { h with
      rootIssuer := trivial
      linked := h.linked.imp fun _ _ hlink => { hlink with issuer := trivial } }
  · intro h
    exact { h with
      rootIssuer := hroot root h.head
      linked := (isChain_and.mpr ⟨h.linked, hlinks⟩).imp
        fun _ _ hlink => { hlink.1 with issuer := hlink.2 } }

/-- Only `validate_chain` bounds the depth, so the validators disagree exactly on the chains past
the bound that break no other rule. -/
theorem validators_agree_iff (P : Primitives) (chain : List Pca) (rootAuthority : PublicKey)
    (rootAuthorities trustedCtas : List PublicKey) (validator : TransitionValidator)
    (currentTime : DateTime) (h : BothRegimes rootAuthority rootAuthorities trustedCtas chain) :
    (validateChain P chain rootAuthority validator currentTime = .ok () ↔
      validateCtaChain P chain rootAuthorities trustedCtas validator currentTime = .ok ()) ↔
    (chain.length ≤ maxChainDepth ∨ ¬ SharedRules P validator currentTime chain) := by
  have hlinks := isChain_and.mp h.links
  rw [validateChain_eq_ok, validateCtaChain_eq_ok,
    exists_validChain_iff_sharedRules (fun root hr => (h.root root hr).1) hlinks.1,
    exists_validChain_iff_sharedRules (fun root hr => (h.root root hr).2) hlinks.2]
  tauto

/-! #### A chain past the bound -/

def hopPair : KeyPair .transparent := .ed25519 (firstBytes [7])

def hopKey : PublicKey := hopPair.publicKey

/-- The PCA at position `i` of a chain in which one key signs and executes every hop. -/
def hop (i : Nat) : Pca where
  version := ⟨0, 1⟩
  capabilities := [⟨"cap:test", "function", []⟩]
  designatedExecutor := .publicKey hopKey
  prevHash :=
    match i with
    | 0 => none
    | j + 1 => some ⟨firstBytes [j.toUInt8]⟩
  rootHash := if i = 0 then none else some ⟨firstBytes [0]⟩
  expiresAt := 100
  issuer := hopKey
  signature := hopPair.sign [i.toUInt8]
  payload := some [i.toUInt8]

def hops (n : Nat) : List Pca := (List.range n).map hop

lemma hop_tryHash (i : Nat) : (hop i).tryHash .transparent = .ok ⟨firstBytes [i.toUInt8]⟩ := rfl

lemma hop_signed (i : Nat) : (hop i).tryVerifySignature .transparent = .ok () :=
  Pca.tryVerifySignature_eq_ok.mpr ⟨[i.toUInt8], rfl,
    hopPair.verify_sign Primitives.transparent_signsCorrectly _⟩

lemma hops_bothRegimes (n : Nat) : BothRegimes hopKey [hopKey] [hopKey] (hops (n + 1)) := by
  refine ⟨?_, ?_⟩
  · intro root hroot
    obtain ⟨i, _, rfl⟩ := List.mem_map.mp (List.mem_of_mem_head? (Option.mem_def.mpr hroot))
    exact ⟨rfl, by simp [hop]⟩
  · rw [hops, List.isChain_map]
    exact List.isChain_range_succ _ _ |>.mpr fun m _ => ⟨rfl, by simp [CtaIssued, hop]⟩

/-- Every number of hops obeys the shared rules. -/
lemma hops_sharedRules (n : Nat) :
    SharedRules .transparent (fun _ _ => .ok ()) 0 (hops (n + 1)) := by
  refine ⟨hop 0, ?_, trivial, rfl, rfl, ?_, ?_, ?_⟩
  · simp [hops, List.range_succ_eq_map]
  · intro pca hpca
    obtain ⟨i, _, rfl⟩ := List.mem_map.mp hpca
    exact hop_signed i
  · intro pca hpca
    obtain ⟨i, _, rfl⟩ := List.mem_map.mp hpca
    exact (by decide : (0 : Int) < 100)
  · rw [hops, List.isChain_map]
    apply List.isChain_range_succ _ _ |>.mpr
    intro m _
    exact ⟨Int.le_refl _, ⟨_, hop_tryHash m, rfl⟩, ⟨_, hop_tryHash 0, rfl⟩, trivial,
      ⟨by simp [hop], by simp [hop], fun c hc => ⟨c, hc, rfl, rfl⟩⟩⟩

theorem validators_agree_iff_two :
    (validateChain .transparent (hops 2) hopKey (fun _ _ => .ok ()) 0 = .ok () ↔
      validateCtaChain .transparent (hops 2) [hopKey] [hopKey] (fun _ _ => .ok ()) 0 = .ok ()) ↔
    ((hops 2).length ≤ maxChainDepth ∨
      ¬ SharedRules .transparent (fun _ _ => .ok ()) 0 (hops 2)) :=
  validators_agree_iff _ _ _ _ _ _ _ (hops_bothRegimes 1)

/-- One hop past the bound, under both regimes, is accepted by `validate_cta_chain` only. -/
theorem validators_disagree :
    BothRegimes hopKey [hopKey] [hopKey] (hops 101) ∧
    validateChain .transparent (hops 101) hopKey (fun _ _ => .ok ()) 0 =
      .error (.chainTooDeep 101 100) ∧
    validateCtaChain .transparent (hops 101) [hopKey] [hopKey] (fun _ _ => .ok ()) 0 = .ok () := by
  have hregimes := hops_bothRegimes 100
  refine ⟨hregimes, rfl, validateCtaChain_eq_ok.mpr ?_⟩
  exact (exists_validChain_iff_sharedRules (fun root hr => (hregimes.root root hr).2)
    (isChain_and.mp hregimes.links).2).mpr (hops_sharedRules 100)

end AmlaSandbox.Protocol
