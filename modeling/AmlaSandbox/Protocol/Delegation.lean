import AmlaSandbox.Protocol.Authority
import AmlaSandbox.Protocol.Methods

/-!
# Delegated methods

What a chain of PCAs accepted under the method validator says about the calls that its last link
allows: hop by hop the patterns and the budgets only shrink, and a call passes every capability it
was delegated through unless a hop dropped a clause that refuses it.
-/

namespace AmlaSandbox.Protocol

open Library Json

namespace MethodCapability

/-- The child has no method that the parent does not have, and no larger budget. -/
structure Narrows (parent child : MethodCapability) : Prop where
  methods : ∀ method, methodMatchesPattern method child.methodPattern →
    methodMatchesPattern method parent.methodPattern
  budget : BudgetWithin child parent

instance : IsTrans MethodCapability Narrows where
  trans a b c hab hbc := by
    refine ⟨fun method hmethod => hab.methods method (hbc.methods method hmethod), ?_⟩
    intro aMax ha
    obtain ⟨bMax, hb, hba⟩ := hab.budget aMax ha
    obtain ⟨cMax, hc, hcb⟩ := hbc.budget bMax hb
    exact ⟨cMax, hc, UInt32.le_trans hcb hba⟩

/-- The parent clauses that the child leaves uncovered accept the parameters. -/
def UncoveredAccept (debug : Value → String) (params : Value) (parent child : MethodCapability) :
    Prop :=
  ∀ pc ∈ parent.constraints.constraints, child.constraints.covers pc = false →
    pc.evaluate debug params = .ok ()

variable {codec : Codec} {decodeError : Bytes → String} {debug : Value → String}

lemma narrows_of_isSubsetOf {parent child : MethodCapability} (h : child.isSubsetOf parent) :
    Narrows parent child := by
  obtain ⟨hpattern, -, hbudget⟩ := isSubsetOf_iff.mp h
  exact ⟨fun _ hmethod => methodMatchesPattern_of_subset hpattern hmethod, hbudget⟩

/-- Both sides of an accepted transition are method capabilities. -/
lemma exists_of_methodValidator {parentData childData : CapabilityData}
    (h : methodValidator codec decodeError parentData childData = .ok ()) :
    ∃ parent child, fromCapabilityData codec decodeError parentData = .ok parent ∧
      fromCapabilityData codec decodeError childData = .ok child ∧ child.isSubsetOf parent := by
  simp only [methodValidator, bind_eq_ok, exists_unit, failIf_eq_ok, mapError_eq_ok] at h
  obtain ⟨-, -, parent, hparent, child, hchild, hsub⟩ := h
  exact ⟨parent, child, hparent, hchild, by simpa using hsub⟩

/-- Past the root a chain of accepted transitions decodes link by link. -/
lemma exists_methods {caps : List CapabilityData} (hlength : 1 < caps.length)
    (h : caps.IsChain fun p c => methodValidator codec decodeError p c = .ok ()) :
    ∃ methods, caps.Forall₂ (fun data m => fromCapabilityData codec decodeError data = .ok m)
        methods ∧
      methods.IsChain fun parent child => child.isSubsetOf parent := by
  induction caps with
  | nil => simp at hlength
  | cons first rest ih =>
    cases rest with
    | nil => simp at hlength
    | cons second rest =>
      obtain ⟨hfirst, hrest⟩ := List.isChain_cons_cons.mp h
      obtain ⟨parent, child, hparent, hchild, hsub⟩ := exists_of_methodValidator hfirst
      cases rest with
      | nil =>
        exact ⟨[parent, child], .cons hparent (.cons hchild .nil), .cons_cons hsub (.singleton _)⟩
      | cons third rest =>
        obtain ⟨methods, hdecoded, hlinked⟩ := ih (by simp) hrest
        -- the second link decodes to one capability, whichever transition it is read for
        cases hdecoded with
        | cons hsecond hdecoded =>
          obtain rfl := Except.ok.inj (hchild.symm.trans hsecond)
          exact ⟨_, .cons hparent (.cons hsecond hdecoded), .cons_cons hsub hlinked⟩

/-- One hop: a call that the child allows passes the parent exactly if the clauses that were dropped
accept it. -/
lemma validateCall_parent_iff {parent child : MethodCapability} {method : String} {params : Value}
    (hsub : child.isSubsetOf parent) (h : child.validateCall debug method params = .ok ()) :
    parent.validateCall debug method params = .ok () ↔
      UncoveredAccept debug params parent child := by
  obtain ⟨hmethod, heval⟩ := validateCall_eq_ok.mp h
  rw [validateCall_eq_ok, Constraints.ConstraintSet.evaluate_ok_iff_uncovered heval]
  exact and_iff_right ((narrows_of_isSubsetOf hsub).methods method hmethod)

/-- The whole chain: a call that its end allows passes every link exactly if no hop dropped a clause
that refuses it. -/
lemma validateCall_all_iff {methods : List MethodCapability} {leaf : MethodCapability}
    {method : String} {params : Value}
    (hlinked : methods.IsChain fun parent child => child.isSubsetOf parent)
    (hleaf : methods.getLast? = some leaf) (h : leaf.validateCall debug method params = .ok ()) :
    (∀ m ∈ methods, m.validateCall debug method params = .ok ()) ↔
      methods.IsChain (UncoveredAccept debug params) := by
  induction methods with
  | nil => simp
  | cons first rest ih =>
    cases rest with
    | nil =>
      obtain rfl : first = leaf := by simpa using hleaf
      simpa using h
    | cons second rest =>
      obtain ⟨hfirst, hrest⟩ := List.isChain_cons_cons.mp hlinked
      rw [List.getLast?_cons_cons] at hleaf
      rw [List.forall_mem_cons, List.isChain_cons_cons, ← ih hrest hleaf]
      refine and_congr_left fun hall => ?_
      exact validateCall_parent_iff hfirst (hall second List.mem_cons_self)

end MethodCapability

open MethodCapability

/-- Whichever validator accepted the chain, every capability of its last link was delegated through
method capabilities that only ever give up methods and budget, and a call it allows passes all of
them exactly if every clause that a hop left uncovered accepts the parameters. -/
theorem delegation_attenuates (P : Primitives) (codec : Codec) (decodeError : Bytes → String)
    (debug : Value → String) (chain : List Pca) (rootAuthority : PublicKey)
    (rootAuthorities trustedCtas : List PublicKey) (currentTime : DateTime)
    (hvalid : validateChain P chain rootAuthority (methodValidator codec decodeError) currentTime =
        .ok () ∨
      validateCtaChain P chain rootAuthorities trustedCtas (methodValidator codec decodeError)
        currentTime = .ok ())
    (hdelegated : 1 < chain.length) (leaf : Pca) (hleaf : chain.getLast? = some leaf)
    (cap : CapabilityData) (hcap : cap ∈ leaf.capabilities) :
    ∃ caps methods, Lineage (methodValidator codec decodeError) chain caps ∧
      caps.getLast? = some cap ∧
      caps.Forall₂ (fun data m => fromCapabilityData codec decodeError data = .ok m) methods ∧
      methods.Pairwise Narrows ∧
      ∀ held ∈ methods.getLast?, ∀ method params, held.validateCall debug method params = .ok () →
        ((∀ m ∈ methods, m.validateCall debug method params = .ok ()) ↔
          methods.IsChain (UncoveredAccept debug params)) := by
  have hlineage : ∃ caps, Lineage (methodValidator codec decodeError) chain caps ∧
      caps.getLast? = some cap := by
    rcases hvalid with hvalid | hvalid
    · obtain ⟨-, root, hchain⟩ := validateChain_eq_ok.mp hvalid
      exact hchain.exists_lineage hleaf hcap
    · obtain ⟨root, hchain⟩ := validateCtaChain_eq_ok.mp hvalid
      exact hchain.exists_lineage hleaf hcap
  obtain ⟨caps, hthread, hend⟩ := hlineage
  obtain ⟨methods, hdecoded, hlinked⟩ := exists_methods (hthread.mem.length_eq ▸ hdelegated)
    (hthread.linked.imp fun _ _ h => h.2)
  refine ⟨caps, methods, hthread, hend, hdecoded, ?_, ?_⟩
  · exact List.isChain_iff_pairwise.mp (hlinked.imp fun _ _ => narrows_of_isSubsetOf)
  · intro held hheld method params hcall
    exact validateCall_all_iff hlinked hheld hcall

/-! ### A delegated limit -/

/-- A link of a chain in which one key hands the limited capability on. -/
def limitedHop (i : Nat) : Pca :=
  { hop i with capabilities := [⟨"cap:method:a", "method", limitedData⟩] }

theorem delegation_attenuates_limited :
    ∃ caps methods, Lineage (methodValidator twoPayloads fun _ => "") [limitedHop 0, limitedHop 1]
        caps ∧
      caps.getLast? = some ⟨"cap:method:a", "method", limitedData⟩ ∧
      caps.Forall₂ (fun data m => fromCapabilityData twoPayloads (fun _ => "") data = .ok m)
        methods ∧
      methods.Pairwise Narrows ∧
      ∀ held ∈ methods.getLast?, ∀ method params,
        held.validateCall (fun _ => "") method params = .ok () →
        ((∀ m ∈ methods, m.validateCall (fun _ => "") method params = .ok ()) ↔
          methods.IsChain (UncoveredAccept (fun _ => "") params)) :=
  delegation_attenuates .transparent twoPayloads (fun _ => "") (fun _ => "")
    [limitedHop 0, limitedHop 1] hopKey [] [] 0 (.inl (by decide +kernel)) (by decide)
    (limitedHop 1) rfl ⟨"cap:method:a", "method", limitedData⟩ (by simp [limitedHop])

end AmlaSandbox.Protocol
