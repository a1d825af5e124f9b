import Mathlib.Tactic.Common

/-!
# Computations with a state and an error

Validators that return early are `do` blocks in `Except`. Where there is a state too, two
computations that are put together by bind go in step when their parts do, as long as nothing
disturbs the first one. A computation that goes in step with itself keeps an invariant.
-/

namespace AmlaSandbox.Library

/-! ### Checks

The lemmas turn "the block returned `ok`" into the conjunction of what its steps established. -/

section

variable {ε ε' α β : Type}

/-- `if c { return Err(e) }` -/
def failIf (c : Prop) [Decidable c] (e : ε) : Except ε Unit :=
  if c then .error e else .ok ()

/-- `o.ok_or(e)` -/
def okOr (o : Option α) (e : ε) : Except ε α :=
  match o with
  | some a => .ok a
  | none => .error e

lemma failIf_eq_ok {c : Prop} [Decidable c] {e : ε} : failIf c e = .ok () ↔ ¬ c := by
  by_cases hc : c <;> simp [failIf, hc]

lemma okOr_eq_ok {o : Option α} {e : ε} {a : α} : okOr o e = .ok a ↔ o = some a := by
  cases o <;> simp [okOr]

lemma bind_eq_ok {x : Except ε α} {f : α → Except ε β} {b : β} :
    (x >>= f) = .ok b ↔ ∃ a, x = .ok a ∧ f a = .ok b := by
  cases x <;> simp [bind, Except.bind]

lemma okOr_eq_error {o : Option α} {e e' : ε} : okOr o e = .error e' ↔ o = none ∧ e = e' := by
  cases o <;> simp [okOr]

lemma bind_eq_error {x : Except ε α} {f : α → Except ε β} {e : ε} :
    (x >>= f) = .error e ↔ x = .error e ∨ ∃ a, x = .ok a ∧ f a = .error e := by
  cases x <;> simp [bind, Except.bind]

/-- A step that returns nothing just adds its condition. -/
lemma exists_unit {p : Unit → Prop} : (∃ u, p u) ↔ p () :=
  ⟨fun ⟨_, h⟩ => h, fun h => ⟨(), h⟩⟩

lemma mapError_eq_ok {f : ε → ε'} {x : Except ε α} {a : α} :
    x.mapError f = .ok a ↔ x = .ok a := by
  cases x <;> simp [Except.mapError]

end

/-! ### States and errors -/

abbrev Computation (ε σ α : Type) := ExceptT ε (StateM σ) α

namespace Computation

variable {ε σ σ' α β : Type}

def exec (m : Computation ε σ α) (s : σ) : Except ε α × σ := m.run.run s

/-- A computation from what it does with a state. -/
def ofFun (g : σ → Except ε α × σ) : Computation ε σ α := ExceptT.mk g

variable {m : Computation ε σ α} {f : α → Computation ε σ β} {s : σ}

protected lemma ext {m' : Computation ε σ α} (h : ∀ s, m.exec s = m'.exec s) : m = m' := funext h

@[simp] lemma exec_ofFun (g : σ → Except ε α × σ) : (ofFun g).exec s = g s := rfl

@[simp] lemma exec_pure (a : α) : (pure a : Computation ε σ α).exec s = (.ok a, s) := rfl

@[simp] lemma exec_throw (e : ε) : (throw e : Computation ε σ α).exec s = (.error e, s) := rfl

lemma exec_bind : (m >>= f).exec s =
    match m.exec s with
    | (.ok a, s') => (f a).exec s'
    | (.error e, s') => (.error e, s') := by
  simp only [exec, bind, ExceptT.bind, ExceptT.mk, ExceptT.bindCont, ExceptT.run, StateT.bind,
    StateT.run]
  cases m s with
  | mk result s' => cases result <;> rfl

lemma exec_bind_of_ok {a : α} {s' : σ} (h : m.exec s = (.ok a, s')) :
    (m >>= f).exec s = (f a).exec s' := by
  rw [exec_bind, h]

lemma exec_bind_of_error {e : ε} {s' : σ} (h : m.exec s = (.error e, s')) :
    (m >>= f).exec s = (.error e, s') := by
  rw [exec_bind, h]

/-! ### In step -/

/-- Unless the first computation is disturbed, both come to the same in related states; what has
disturbed it still does so when it goes on. -/
structure Lockstep (R : σ → σ' → Prop) (quiet : σ → Prop) (m : Computation ε σ α)
    (m' : Computation ε σ' α) : Prop where
  inherited : ∀ s, quiet (m.exec s).2 → quiet s
  agrees : ∀ s s', R s s' → quiet (m.exec s).2 →
    (m.exec s).1 = (m'.exec s').1 ∧ R (m.exec s).2 (m'.exec s').2

section Lockstep

variable {R : σ → σ' → Prop} {quiet : σ → Prop} {m' : Computation ε σ' α}
variable {f' : α → Computation ε σ' β}

lemma lockstep_pure (a : α) :
    Lockstep R quiet (pure a : Computation ε σ α) (pure a : Computation ε σ' α) :=
  ⟨fun _ h => h, fun _ _ h _ => ⟨rfl, h⟩⟩

lemma lockstep_throw (e : ε) :
    Lockstep R quiet (throw e : Computation ε σ α) (throw e : Computation ε σ' α) :=
  ⟨fun _ h => h, fun _ _ h _ => ⟨rfl, h⟩⟩

lemma Lockstep.bind (hm : Lockstep R quiet m m') (hf : ∀ a, Lockstep R quiet (f a) (f' a)) :
    Lockstep R quiet (m >>= f) (m' >>= f') := by
  have hfirst : ∀ s, quiet ((m >>= f).exec s).2 → quiet (m.exec s).2 := by
    intro s h
    rcases hexec : m.exec s with ⟨result, t⟩
    cases result with
    | error e => rwa [exec_bind_of_error hexec] at h
    | ok a =>
      rw [exec_bind_of_ok hexec] at h
      exact (hf a).inherited t h
  refine ⟨fun s h => hm.inherited s (hfirst s h), fun s s' hs h => ?_⟩
  obtain ⟨hresult, hstate⟩ := hm.agrees s s' hs (hfirst s h)
  rcases hexec : m.exec s with ⟨result, t⟩
  rcases hexec' : m'.exec s' with ⟨result', t'⟩
  rw [hexec, hexec'] at hresult hstate
  simp only at hresult hstate
  subst hresult
  cases result with
  | error e =>
    rw [exec_bind_of_error hexec, exec_bind_of_error hexec']
    exact ⟨rfl, hstate⟩
  | ok a =>
    rw [exec_bind_of_ok hexec] at h
    rw [exec_bind_of_ok hexec, exec_bind_of_ok hexec']
    exact (hf a).agrees t t' hstate h

/-- One step of each. -/
lemma lockstep_ofFun {g : σ → Except ε α × σ} {g' : σ' → Except ε α × σ'}
    (hquiet : ∀ s, quiet (g s).2 → quiet s)
    (h : ∀ s s', R s s' → quiet (g s).2 → (g s).1 = (g' s').1 ∧ R (g s).2 (g' s').2) :
    Lockstep R quiet (ofFun g) (ofFun g') :=
  ⟨hquiet, h⟩

end Lockstep

/-! ### Invariants -/

/-- Related to itself, where an invariant holds. -/
def Diagonal (inv : σ → Prop) (s s' : σ) : Prop := s = s' ∧ inv s

/-- The invariant holds throughout. -/
abbrev Keeps (inv : σ → Prop) (m : Computation ε σ α) : Prop :=
  Lockstep (Diagonal inv) (fun _ => True) m m

section Keeps

variable {inv : σ → Prop}

lemma keeps_iff : Keeps inv m ↔ ∀ s, inv s → inv (m.exec s).2 := by
  constructor
  · intro h s hs
    exact (h.agrees s s ⟨rfl, hs⟩ trivial).2.2
  · intro h
    refine ⟨fun _ _ => trivial, ?_⟩
    rintro s _ ⟨rfl, hs⟩ -
    exact ⟨rfl, rfl, h s hs⟩

end Keeps

end Computation

end AmlaSandbox.Library
