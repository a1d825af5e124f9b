import Mathlib.Logic.Relation
import Mathlib.Tactic.Common

/-!
# Guarded reachability

The states that a transition relation reaches from an initial state by steps that meet a guard,
which may depend on the state before the step. Invariants are proved by one induction rule.
-/

namespace AmlaSandbox.Library

variable {σ ε : Type*} {step : σ → ε → σ → Prop} {ok : σ → ε → Prop} {init s s' : σ}

/-- `Reach step ok init s`: some run from `init` whose steps all meet `ok` ends in `s`. -/
inductive Reach (step : σ → ε → σ → Prop) (ok : σ → ε → Prop) (init : σ) : σ → Prop
  | refl : Reach step ok init init
  | tail {s s' : σ} {e : ε} : Reach step ok init s → ok s e → step s e s' → Reach step ok init s'

namespace Reach

/-- What holds initially and is kept by every guarded step holds in every reachable state. -/
theorem invariant {I : σ → Prop} (h : Reach step ok init s) (hinit : I init)
    (hstep : ∀ s e s', I s → ok s e → step s e s' → I s') : I s := by
  induction h with
  | refl => exact hinit
  | tail _ hguard hs ih => exact hstep _ _ _ ih hguard hs

/-- The same rule with an invariant `J` that is already known of the reachable states. -/
theorem invariant_of {I J : σ → Prop} (hJ : ∀ s, Reach step ok init s → J s)
    (h : Reach step ok init s) (hinit : I init)
    (hstep : ∀ s e s', J s → J s' → I s → ok s e → step s e s' → I s') : I s := by
  induction h with
  | refl => exact hinit
  | tail hr hguard hs ih => exact hstep _ _ _ (hJ _ hr) (hJ _ (hr.tail hguard hs)) ih hguard hs

lemma mono {ok' : σ → ε → Prop} (h : Reach step ok init s) (himp : ∀ s e, ok s e → ok' s e) :
    Reach step ok' init s := by
  induction h with
  | refl => exact .refl
  | tail _ hguard hstep ih => exact ih.tail (himp _ _ hguard) hstep

lemma trans {s'' : σ} (h : Reach step ok init s) (h' : Reach step ok s s'') :
    Reach step ok init s'' := by
  induction h' with
  | refl => exact h
  | tail _ hguard hstep ih => exact ih.tail hguard hstep

end Reach

/-! ### Recorded runs -/

/-- A run is recorded as the list of its events, each with the state before it. -/
inductive Recorded (step : σ → ε → σ → Prop) : σ → List (σ × ε) → σ → Prop
  | nil {s : σ} : Recorded step s [] s
  | cons {s s' s'' : σ} {e : ε} {log : List (σ × ε)} :
    step s e s' → Recorded step s' log s'' → Recorded step s ((s, e) :: log) s''

namespace Recorded

variable {s'' : σ} {log log' : List (σ × ε)}

lemma single {e : ε} (h : step s e s') : Recorded step s [(s, e)] s' := .cons h .nil

lemma append (h : Recorded step s log s') (h' : Recorded step s' log' s'') :
    Recorded step s (log ++ log') s'' := by
  induction h with
  | nil => exact h'
  | cons hstep _ ih => exact .cons hstep (ih h')

/-- What is recorded was reached under every guard that the record meets. -/
lemma reach (h : Recorded step s log s') (hok : ∀ entry ∈ log, ok entry.1 entry.2) :
    Reach step ok s s' := by
  induction h with
  | nil => exact .refl
  | cons hstep _ ih =>
    obtain ⟨hfirst, hrest⟩ := List.forall_mem_cons.mp hok
    exact (Reach.tail .refl hfirst hstep).trans (ih hrest)

end Recorded

/-! ### Runs of given events -/

/-- Each event of a list meets the guard when its turn comes. -/
def Admits (ok : σ → ε → Prop) (next : σ → ε → σ) : σ → List ε → Prop
  | _, [] => True
  | s, e :: events => ok s e ∧ Admits ok next (next s e) events

/-- An event brings about a step, or nothing happens. -/
lemma reach_foldl {next : σ → ε → σ} (hnext : ∀ s e, next s e = s ∨ step s e (next s e))
    (events : List ε) (h : Admits ok next s events) : Reach step ok s (events.foldl next s) := by
  induction events generalizing s with
  | nil => exact .refl
  | cons e events ih =>
    obtain ⟨hok, hrest⟩ := h
    rcases hnext s e with hsame | hstep
    · rw [hsame] at hrest
      rw [List.foldl_cons, hsame]
      exact ih hrest
    · exact (Reach.tail .refl hok hstep).trans (ih hrest)

lemma admits_drop {next : σ → ε → σ} {events : List ε} (h : Admits ok next s events) (n : ℕ) :
    Admits ok next ((events.take n).foldl next s) (events.drop n) := by
  induction n generalizing s events with
  | zero => exact h
  | succ n ih =>
    cases events with
    | nil => trivial
    | cons e events => exact ih h.2

lemma admits_of_forall {next : σ → ε → σ} (hok : ∀ s e, ok s e) (events : List ε) :
    Admits ok next s events := by
  induction events generalizing s with
  | nil => trivial
  | cons e events ih => exact ⟨hok s e, ih⟩

/-- What an event brings about for itself, and no later event undoes, holds for each event of a list
at its end. -/
lemma forall_mem_foldl (next : σ → ε → σ) {I : σ → Prop} {P : ε → σ → Prop}
    (hI : ∀ s e, I s → I (next s e)) (hmake : ∀ s e, I s → P e (next s e))
    (hkeep : ∀ s e e', I s → P e' s → P e' (next s e)) (events : List ε) (hs : I s) :
    I (events.foldl next s) ∧ ∀ e, (e ∈ events ∨ P e s) → P e (events.foldl next s) := by
  induction events generalizing s with
  | nil => exact ⟨hs, fun e h => h.resolve_left List.not_mem_nil⟩
  | cons first rest ih =>
    obtain ⟨hlast, hall⟩ := ih (hI s first hs)
    refine ⟨hlast, fun e h => hall e ?_⟩
    rcases h with hmem | hP
    · rcases List.mem_cons.mp hmem with rfl | hmem
      · exact .inr (hmake s e hs)
      · exact .inl hmem
    · exact .inr (hkeep s first e hs hP)

/-! ### Runs of a partial function -/

/-- Each event of a list meets the guard when its turn comes, if it comes. -/
def Meets (ok : σ → ε → Prop) (next : σ → ε → Option σ) : σ → List ε → Prop
  | _, [] => True
  | s, e :: events => ok s e ∧ ∀ s' ∈ next s e, Meets ok next s' events

variable {next : σ → ε → Option σ}

/-- Whether a run meets its guard can be evaluated where the guard can. -/
def decideMeets [∀ s e, Decidable (ok s e)] (s : σ) :
    (events : List ε) → Decidable (Meets ok next s events)
  | [] => .isTrue trivial
  | e :: events =>
    match hnext : next s e with
    | some s' =>
      have := decideMeets s' events
      decidable_of_iff (ok s e ∧ Meets ok next s' events) (by simp [Meets, hnext])
    | none => decidable_of_iff (ok s e) (by simp [Meets, hnext])

instance [∀ s e, Decidable (ok s e)] (events : List ε) : Decidable (Meets ok next s events) :=
  decideMeets s events

lemma meets_of_forall {events : List ε} (h : ∀ s, ∀ e ∈ events, ok s e) :
    Meets ok next s events := by
  induction events generalizing s with
  | nil => trivial
  | cons e events ih =>
    exact ⟨h s e List.mem_cons_self, fun s' _ => ih fun s e he => h s e (List.mem_cons_of_mem _ he)⟩

lemma reach_foldlM {events : List ε} (h : Meets ok next s events)
    (hrun : events.foldlM next s = some s') :
    Reach (fun s e s' => next s e = some s') ok s s' := by
  induction events generalizing s with
  | nil =>
    obtain rfl := Option.some.inj hrun
    exact .refl
  | cons e events ih =>
    obtain ⟨hok, hrest⟩ := h
    rw [List.foldlM_cons] at hrun
    obtain ⟨s₁, hnext, hrun⟩ := Option.bind_eq_some_iff.mp hrun
    exact (Reach.tail .refl hok hnext).trans (ih (hrest s₁ hnext) hrun)

end AmlaSandbox.Library
