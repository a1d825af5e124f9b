import AmlaSandbox.Node.EventLoop
import Mathlib.Logic.Relation

/-!
# The order of operations

The event loop serves sleeps in the order of their registration, over all batches, and waits for
each of them in turn.
-/

namespace AmlaSandbox.Node

variable {σ κ : Type*} {p : Program σ κ} {clock : TimeNanos} {s : EventLoop σ κ}
  {op : PendingOp κ} {actions : List (Action κ)} {action : Action κ} {callback : κ}
  {continuation : Continuation κ} {delay timer id : ℕ} {start : TimeNanos}

namespace EventLoop

/-- The operations that are to be served, in order. -/
def waiting (s : EventLoop σ κ) : List (PendingOp κ) := s.batch ++ s.pendingOps

/-! ### Order -/

/-- The operations of the calls so far and of those to come. -/
def ids (s : EventLoop σ κ) : List ℕ := s.calls.map (·.op) ++ s.waiting.map (·.id)

/-- Operations are served as they were registered. -/
structure Ordered (s : EventLoop σ κ) : Prop where
  sorted : s.ids.Pairwise (· < ·)
  fresh : ∀ id ∈ s.ids, id < s.nextOpId

lemma Ordered.of_sublist {s' : EventLoop σ κ} (h : s.Ordered) (hids : s'.ids.Sublist s.ids)
    (hnext : s'.nextOpId = s.nextOpId) : s'.Ordered where
  sorted := h.sorted.sublist hids
  fresh id hid := hnext ▸ h.fresh id (hids.subset hid)

lemma waiting_createPendingOp (s : EventLoop σ κ) (delay : ℕ) (continuation : Continuation κ) :
    (s.createPendingOp delay continuation).waiting = s.waiting ++
      if delay < 2 ^ 64 then [{
        id := s.nextOpId
        delayMs := .ofNat delay
        continuation
        due := s.clock.toNat + millisToNanos delay }] else [] := by
  simp only [createPendingOp]
  split_ifs with hfits
  · rw [waiting, waiting, List.append_assoc]
  · rw [List.append_nil]
    rfl

lemma ids_createPendingOp (s : EventLoop σ κ) (delay : ℕ) (continuation : Continuation κ) :
    (s.createPendingOp delay continuation).ids =
      s.ids ++ if delay < 2 ^ 64 then [s.nextOpId] else [] := by
  have hcalls : (s.createPendingOp delay continuation).calls = s.calls := by
    simp only [createPendingOp]
    split_ifs <;> rfl
  rw [ids, ids, waiting_createPendingOp, hcalls]
  split_ifs <;> simp

lemma nextOpId_createPendingOp (s : EventLoop σ κ) (delay : ℕ) (continuation : Continuation κ) :
    (s.createPendingOp delay continuation).nextOpId = s.nextOpId + 1 := by
  simp only [createPendingOp]
  split_ifs <;> rfl

lemma Ordered.createPendingOp (h : s.Ordered) (delay : ℕ) (continuation : Continuation κ) :
    (s.createPendingOp delay continuation).Ordered := by
  constructor
  · rw [ids_createPendingOp]
    split_ifs with hfits
    · rw [List.pairwise_append]
      refine ⟨h.sorted, List.pairwise_singleton _ _, ?_⟩
      intro id hid next hnext
      rw [List.mem_singleton.mp hnext]
      exact h.fresh id hid
    · rw [List.append_nil]
      exact h.sorted
  · intro id hid
    rw [nextOpId_createPendingOp]
    rw [ids_createPendingOp, List.mem_append] at hid
    rcases hid with hid | hid
    · exact Nat.lt_succ_of_lt (h.fresh id hid)
    · split_ifs at hid
      · rw [List.mem_singleton.mp hid]
        exact Nat.lt_succ_self _
      · cases hid

/-! ### What JavaScript does -/

/-- Nothing is registered, and no time passes. -/
structure Quiet (s s' : EventLoop σ κ) : Prop where
  batch : s'.batch = s.batch
  pendingOps : s'.pendingOps = s.pendingOps
  nextOpId : s'.nextOpId = s.nextOpId
  clock : s'.clock = s.clock
  calls : s'.calls = s.calls

/-- Sleeps are registered, one after the other. -/
abbrev Registers : EventLoop σ κ → EventLoop σ κ → Prop :=
  Relation.ReflTransGen fun s s' =>
    Quiet s s' ∨ ∃ delay continuation, s' = s.createPendingOp delay continuation

lemma Quiet.registers {s' : EventLoop σ κ} (h : Quiet s s') : Registers s s' := .single (.inl h)

lemma registers_createPendingOp (s : EventLoop σ κ) (delay : ℕ) (continuation : Continuation κ) :
    Registers s (s.createPendingOp delay continuation) :=
  .single (.inr ⟨delay, continuation, rfl⟩)

/-- What silence and registrations keep, JavaScript keeps. -/
lemma Registers.invariant {I : EventLoop σ κ → Prop} {s' : EventLoop σ κ} (h : Registers s s')
    (hI : I s) (hquiet : ∀ s s' : EventLoop σ κ, Quiet s s' → I s → I s')
    (hcreate : ∀ s delay continuation, I s → I (s.createPendingOp delay continuation)) : I s' := by
  induction h with
  | refl => exact hI
  | tail _ hstep ih =>
    rcases hstep with hstep | ⟨delay, continuation, rfl⟩
    · exact hquiet _ _ hstep ih
    · exact hcreate _ delay continuation ih

lemma registers_perform (s : EventLoop σ κ) (action : Action κ) :
    Registers s (s.perform action) := by
  cases action with
  | setTimeout callback delay =>
    have hquiet : Quiet s ((s.recordTimeout s.nextTimerId delay).enterTimer callback) :=
      ⟨rfl, rfl, rfl, rfl, rfl⟩
    exact hquiet.registers.trans (registers_createPendingOp _ _ _)
  | setInterval callback delay =>
    have hquiet : Quiet s (s.enterTimer callback) := ⟨rfl, rfl, rfl, rfl, rfl⟩
    exact hquiet.registers.trans (registers_createPendingOp _ _ _)
  | clearTimeout timer =>
    simp only [perform, clearTimeout]
    split
    · exact Quiet.registers ⟨rfl, rfl, rfl, rfl, rfl⟩
    · exact .refl
  | sleep delay callback => exact registers_createPendingOp _ _ _

lemma registers_execute (s : EventLoop σ κ) (actions : List (Action κ)) :
    Registers s (s.execute actions) := by
  unfold execute
  induction actions generalizing s with
  | nil => exact .refl
  | cons action actions ih =>
    rw [List.foldl_cons]
    exact (registers_perform s action).trans (ih _)

lemma registers_runCallback (s : EventLoop σ κ) (callback : κ) :
    Registers s (s.runCallback p callback).2 := by
  have hquiet : Quiet s { s with memory := (p.body callback s.clock s.memory).2.2 } :=
    ⟨rfl, rfl, rfl, rfl, rfl⟩
  exact hquiet.registers.trans (registers_execute _ _)

lemma Registers.batch_eq {s' : EventLoop σ κ} (h : Registers s s') : s'.batch = s.batch := by
  refine h.invariant (I := fun s' => s'.batch = s.batch) rfl (fun _ _ hquiet h => ?_) ?_
  · rw [hquiet.batch, h]
  · intro s' delay continuation h
    rw [← h]
    simp only [createPendingOp]
    split_ifs <;> rfl

lemma Registers.pendingOps_subset {s' : EventLoop σ κ} (h : Registers s s') :
    s.pendingOps ⊆ s'.pendingOps := by
  refine h.invariant (I := fun s' => s.pendingOps ⊆ s'.pendingOps) (List.Subset.refl _)
    (fun _ _ hquiet h => ?_) ?_
  · rwa [hquiet.pendingOps]
  · intro s' delay continuation h
    refine List.Subset.trans h ?_
    simp only [createPendingOp]
    split_ifs
    · exact List.subset_append_left _ _
    · exact List.Subset.refl _

lemma Registers.calls_eq {s' : EventLoop σ κ} (h : Registers s s') : s'.calls = s.calls := by
  refine h.invariant (I := fun s' => s'.calls = s.calls) rfl (fun _ _ hquiet h => ?_) ?_
  · rw [hquiet.calls, h]
  · intro s' delay continuation h
    rw [← h]
    simp only [createPendingOp]
    split_ifs <;> rfl

lemma registers_deleteTimer (s : EventLoop σ κ) (timer : ℕ) : Registers s (s.deleteTimer timer) :=
  Quiet.registers ⟨rfl, rfl, rfl, rfl, rfl⟩

/-- The callback of a timer is recorded, if it is called, before it does anything. -/
lemma registers_resolve (s : EventLoop σ κ) (op : PendingOp κ) (start : TimeNanos) :
    Registers s (s.resolve p op start) ∨ Registers (s.record op start) (s.resolve p op start) := by
  unfold resolve
  split
  · split
    · right
      dsimp only
      split_ifs
      · exact (registers_runCallback _ _).trans (registers_deleteTimer _ _)
      · exact registers_runCallback _ _
    · exact .inl (registers_deleteTimer _ _)
  · split
    · right
      dsimp only
      split_ifs
      · exact (registers_runCallback _ _).trans (registers_createPendingOp _ _ _)
      · exact registers_runCallback _ _
    · exact .inl (registers_deleteTimer _ _)
  · exact .inl (registers_runCallback _ _)

/-! ### Steps -/

/-- The state in which the promise of an operation at the head is resolved. -/
def slept (s : EventLoop σ κ) (op : PendingOp κ) (batch : List (PendingOp κ)) : EventLoop σ κ :=
  { s with batch, clock := wakeTime s.clock op.delayMs }

/-- A step takes a batch, or it sleeps, records the callback of a timer if it calls one, and then
registers what JavaScript registers. -/
lemma step_cases (p : Program σ κ) (s : EventLoop σ κ) :
    (s.batch = [] ∧ s.step p = s.takePendingOps) ∨
    ∃ op batch, s.batch = op :: batch ∧ (Registers (s.slept op batch) (s.step p) ∨
      Registers ((s.slept op batch).record op s.clock) (s.step p)) := by
  unfold step
  split
  · rename_i op batch hbatch
    exact .inr ⟨op, batch, hbatch, registers_resolve _ _ _⟩
  · rename_i hbatch
    exact .inl ⟨hbatch, rfl⟩

lemma ids_takePendingOps (hbatch : s.batch = []) : s.takePendingOps.ids = s.ids := by
  rw [ids, ids, waiting, waiting, takePendingOps, hbatch, List.append_nil, List.nil_append]

lemma ids_record_slept {batch : List (PendingOp κ)} (hbatch : s.batch = op :: batch) :
    ((s.slept op batch).record op start).ids = s.ids := by
  rw [ids, ids, waiting, waiting, hbatch, record, List.map_append, List.append_assoc]
  rfl

/-- The operation at the head is dropped. -/
lemma ids_slept {batch : List (PendingOp κ)} (hbatch : s.batch = op :: batch) :
    (s.slept op batch).ids.Sublist s.ids := by
  rw [ids, ids, waiting, waiting, hbatch]
  exact (List.sublist_cons_self _ _).append_left _

lemma Quiet.ids_eq {s' : EventLoop σ κ} (h : Quiet s s') : s'.ids = s.ids := by
  rw [ids, ids, waiting, waiting, h.batch, h.pendingOps, h.calls]

lemma Ordered.registers {s' : EventLoop σ κ} (h : s.Ordered) (hreg : Registers s s') :
    s'.Ordered :=
  hreg.invariant h (fun _ _ hquiet h => h.of_sublist (hquiet.ids_eq ▸ .refl _) hquiet.nextOpId)
    fun _ delay continuation h => h.createPendingOp delay continuation

lemma Ordered.step (h : s.Ordered) : (s.step p).Ordered := by
  rcases step_cases p s with ⟨hbatch, hstep⟩ | ⟨op, batch, hbatch, hreg | hreg⟩
  · rw [hstep]
    exact h.of_sublist (ids_takePendingOps hbatch ▸ .refl _) rfl
  · exact Ordered.registers (h.of_sublist (ids_slept hbatch) rfl) hreg
  · have hrecorded : ((s.slept op batch).record op s.clock).Ordered :=
      h.of_sublist (ids_record_slept hbatch ▸ .refl _) rfl
    exact hrecorded.registers hreg

end EventLoop

namespace Program

open EventLoop

lemma run_succ (p : Program σ κ) (clock : TimeNanos) (n : ℕ) :
    p.run clock (n + 1) = (p.run clock n).step p := Function.iterate_succ_apply' _ _ _

theorem ordered_run (p : Program σ κ) (clock : TimeNanos) (n : ℕ) : (p.run clock n).Ordered := by
  induction n with
  | zero =>
    have hmain : Ordered (({ clock, memory := p.memory } : EventLoop σ κ).execute p.main) :=
      Ordered.registers ⟨List.Pairwise.nil, by simp [ids, waiting]⟩ (registers_execute _ _)
    refine hmain.of_sublist ?_ rfl
    rw [run, Function.iterate_zero, id_eq, start, ids, ids, waiting, waiting, takePendingOps,
      List.append_nil]
    exact (List.sublist_append_right _ _).map _ |>.append_left _
  | succ n ih =>
    rw [run_succ]
    exact ih.step

end Program

end AmlaSandbox.Node
