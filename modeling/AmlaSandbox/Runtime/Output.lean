import AmlaSandbox.Runtime.Registry
import Mathlib.Data.List.Perm.Subperm

/-!
# The output boundary

`runtime_step` and `cmd_cancel` drain operations from a runtime, serialise them and copy as much of
the text as the caller's buffer holds. An operation reaches the host when the text that carries it
is complete.
-/

namespace AmlaSandbox.Runtimes

variable {E : Engine}

/-- The JSON texts of responses. -/
structure Serializer where
  step : StepResponse → Bytes
  ops : List PendingHostOp → Bytes

/-- What a call of the host leaves behind: the bytes in its buffer, the whole text of the response,
and the operations that were drained into it. -/
structure Exchange where
  written : Bytes := []
  json : Bytes := []
  drained : List PendingHostOp := []

namespace Exchange

/-- Copy a response into a buffer of a length. -/
def write (outLen : Nat) (json : Bytes) (drained : List PendingHostOp) : Exchange where
  written := json.take (min json.length outLen)
  json := json
  drained := drained

/-- The operations in a complete response. -/
def delivered (x : Exchange) : List PendingHostOp := if x.written = x.json then x.drained else []

end Exchange

/-- A call of the host across the boundary. -/
inductive HostCall
  | runtimeStep (runtimeId : RuntimeId) (outLen : Nat)
  | cmdCancel (runtimeId : RuntimeId) (handle : CommandHandle) (outLen : Nat)
  | cmdCreate (runtimeId : RuntimeId) (command : Text)
  | cmdDelete (runtimeId : RuntimeId) (handle : CommandHandle)
  | runtimeDestroy (runtimeId : RuntimeId)
  | submit (batch : Batch)

namespace HostCall

section Run

variable (ser : Serializer)

/-- Run a call of the host on the registry. -/
def run (reg : Registry E) : HostCall → Exchange × Registry E
  | runtimeStep runtimeId outLen =>
    if runtimeId = 0 ∨ outLen = 0 then ({}, reg)
    else
      match reg.stepRuntime runtimeId with
      | (none, reg) => ({}, reg)
      | (some response, reg) => (.write outLen (ser.step response) response.hostOps, reg)
  | cmdCancel runtimeId handle outLen =>
    if runtimeId = 0 ∨ handle = 0 ∨ outLen = 0 then ({}, reg)
    else
      match reg.cancelCommand runtimeId handle with
      | (none, reg) => ({}, reg)
      | (some pendingOps, reg) => (.write outLen (ser.ops pendingOps) pendingOps, reg)
  | cmdCreate runtimeId command => ({}, (reg.createCommand runtimeId command).2)
  | cmdDelete runtimeId handle => ({}, (reg.deleteCommand runtimeId handle).2)
  | runtimeDestroy runtimeId => ({}, (reg.removeRuntime runtimeId).2)
  | submit batch => ({}, (reg.submitAll batch).2)

/-- The buffer of a call holds the response to it, unless the response carries nothing. -/
def Fits (reg : Registry E) : HostCall → Prop
  | runtimeStep runtimeId outLen =>
    runtimeId ≠ 0 → outLen ≠ 0 → ∀ response, (reg.stepRuntime runtimeId).1 = some response →
      response.hostOps = [] ∨ (ser.step response).length ≤ outLen
  | cmdCancel runtimeId handle outLen =>
    runtimeId ≠ 0 → handle ≠ 0 → outLen ≠ 0 →
      ∀ pendingOps, (reg.cancelCommand runtimeId handle).1 = some pendingOps →
        pendingOps = [] ∨ (ser.ops pendingOps).length ≤ outLen
  | _ => True

end Run

end HostCall

/-- Run calls of the host one after the other. -/
def exchanges (ser : Serializer) : List HostCall → Registry E → List Exchange
  | [], _ => []
  | call :: calls, reg => (call.run ser reg).1 :: exchanges ser calls (call.run ser reg).2

/-- Every call fits when its turn comes. -/
def AllFit (ser : Serializer) : List HostCall → Registry E → Prop
  | [], _ => True
  | call :: calls, reg => call.Fits ser reg ∧ AllFit ser calls (call.run ser reg).2

/-- Some continuation of the calls has every operation that was drained, each as often as it was
drained, in a complete response. -/
def NothingLost (ser : Serializer) (calls : List HostCall) (reg : Registry E) : Prop :=
  ∃ later, List.Subperm ((exchanges ser (calls ++ later) reg).flatMap Exchange.drained)
    ((exchanges ser (calls ++ later) reg).flatMap Exchange.delivered)

namespace Exchange

lemma delivered_sublist (x : Exchange) : List.Sublist x.delivered x.drained := by
  rw [delivered]
  split_ifs
  · exact List.Sublist.refl _
  · exact List.nil_sublist _

/-- Nothing is lost in an exchange: it drained nothing, or it wrote the whole text. -/
def Lossless (x : Exchange) : Prop := x.drained = [] ∨ x.written = x.json

lemma lossless_iff {x : Exchange} : x.Lossless ↔ x.delivered = x.drained := by
  rw [Lossless, delivered]
  split_ifs with h
  · simp [h]
  · simp [h, eq_comm]

lemma write_lossless {outLen : Nat} {json : Bytes} {drained : List PendingHostOp} :
    (write outLen json drained).Lossless ↔ drained = [] ∨ json.length ≤ outLen := by
  simp only [Lossless, write, List.take_eq_self_iff, le_min_iff, le_rfl, true_and]

lemma empty_lossless : Lossless {} := Or.inl rfl

/-- As many operations are delivered as drained only if no exchange loses one. -/
lemma forall_lossless {xs : List Exchange}
    (h : List.Subperm (xs.flatMap drained) (xs.flatMap delivered)) : ∀ x ∈ xs, x.Lossless := by
  induction xs with
  | nil => simp
  | cons x rest ih =>
    have hx := x.delivered_sublist
    have hrest : List.Sublist (rest.flatMap delivered) (rest.flatMap drained) :=
      List.Sublist.flatMap_right rest fun y _ => y.delivered_sublist
    have hle := h.length_le
    simp only [List.flatMap_cons, List.length_append] at hle
    have hxlen := hx.length_le
    have hrestlen := hrest.length_le
    have hxeq : x.delivered = x.drained := hx.eq_of_length (by omega)
    have hresteq : rest.flatMap delivered = rest.flatMap drained :=
      hrest.eq_of_length (by omega)
    refine List.forall_mem_cons.mpr ⟨lossless_iff.mpr hxeq, ih ?_⟩
    rw [hresteq]

lemma flatMap_delivered {xs : List Exchange} (h : ∀ x ∈ xs, x.Lossless) :
    xs.flatMap delivered = xs.flatMap drained := by
  induction xs with
  | nil => rfl
  | cons x rest ih =>
    obtain ⟨hx, hrest⟩ := List.forall_mem_cons.mp h
    rw [List.flatMap_cons, List.flatMap_cons, lossless_iff.mp hx, ih hrest]

end Exchange

section Boundary

variable {ser : Serializer}

/-- A call loses nothing exactly when its response fits. -/
lemma HostCall.run_lossless {call : HostCall} {reg : Registry E} :
    (call.run ser reg).1.Lossless ↔ call.Fits ser reg := by
  cases call with
  | runtimeStep runtimeId outLen =>
    rw [run, Fits]
    split_ifs with hnull
    · simp only [Exchange.empty_lossless, true_iff]
      intro hid hlen
      exact absurd hnull (by simp [hid, hlen])
    · obtain ⟨hid, hlen⟩ := not_or.mp hnull
      rcases reg.stepRuntime runtimeId with ⟨_ | response, reg'⟩
      · simp [Exchange.empty_lossless]
      · simp [Exchange.write_lossless, hid, hlen]
  | cmdCancel runtimeId handle outLen =>
    rw [run, Fits]
    split_ifs with hnull
    · simp only [Exchange.empty_lossless, true_iff]
      intro hid hhandle hlen
      exact absurd hnull (by simp [hid, hhandle, hlen])
    · obtain ⟨hid, hhandle, hlen⟩ : runtimeId ≠ 0 ∧ handle ≠ 0 ∧ outLen ≠ 0 := by
        simpa [not_or] using hnull
      rcases reg.cancelCommand runtimeId handle with ⟨_ | pendingOps, reg'⟩
      · simp [Exchange.empty_lossless]
      · simp [Exchange.write_lossless, hid, hhandle, hlen]
  | cmdCreate _ _ | cmdDelete _ _ | runtimeDestroy _ | submit _ =>
    simp [run, Fits, Exchange.empty_lossless]

lemma forall_lossless_iff {calls : List HostCall} {reg : Registry E} :
    (∀ x ∈ exchanges ser calls reg, x.Lossless) ↔ AllFit ser calls reg := by
  induction calls generalizing reg with
  | nil => simp [exchanges, AllFit]
  | cons call calls ih =>
    rw [exchanges, AllFit, List.forall_mem_cons, HostCall.run_lossless, ih]

lemma allFit_append_left {calls later : List HostCall} {reg : Registry E}
    (h : AllFit ser (calls ++ later) reg) : AllFit ser calls reg := by
  induction calls generalizing reg with
  | nil => trivial
  | cons call calls ih => exact ⟨h.1, ih h.2⟩

/-- Whatever the registry, the calls and the lengths of their buffers: nothing is lost exactly when
every call whose response carries operations has a buffer that holds it. -/
theorem nothingLost_iff (ser : Serializer) (calls : List HostCall) (reg : Registry E) :
    NothingLost ser calls reg ↔ AllFit ser calls reg := by
  constructor
  · rintro ⟨later, h⟩
    exact allFit_append_left (forall_lossless_iff.mp (Exchange.forall_lossless h))
  · intro h
    refine ⟨[], ?_⟩
    rw [List.append_nil, Exchange.flatMap_delivered (forall_lossless_iff.mpr h)]

end Boundary

/-! ### A cancelled command -/

/-- A scheduler that does nothing. -/
def idleEngine : Engine where
  State := Unit
  nowMonotonic _ := (0, ())
  spawnShell _ _ _ := (0, ())
  runStep _ := (.blocked, ())
  queueLength _ := 0
  takeHostOp _ := (none, ())
  completeHostOp _ _ _ := ()
  completeHostOpErr _ _ _ := ()
  appendChunk _ _ _ _ := (none, ())
  idRepr _ _ := none
  tryGet _ _ := (none, ())
  cancel _ _ := ()
  hasReadyTasks _ := false
  takeBuffered _ _ _ := ([], ())
  order handles := handles
  noGuestExit _ _ h := by simp at h

/-- A runtime with one command that has not started. -/
def oneCommand : Runtime idleEngine where
  id := 1
  engine := ()
  commands := (∅ : AList fun _ : CommandHandle => CommandState).insert 1
    { command := "cat".toList, startTimeNs := 0 }
  nextHandle := 2
  stdinClosedCommands := []
  pendingStdinOps := ∅
  auditBuffer := []

/-- The text of the exit of the cancelled command. -/
def cancelledJson : String :=
  "[\x7b\"id\":0,\"runtime_id\":1,\"command\":1,\"request\":\x7b\"type\":\"command_exit\"," ++
    "\"code\":-1,\"elapsed_ns\":0,\"user_time_ns\":0\x7d\x7d]"

/-- A serializer that writes this text. -/
def cancelledSerializer : Serializer where
  step _ := cancelledJson.toUTF8.toList
  ops _ := cancelledJson.toUTF8.toList

/-- With a buffer of one byte the exit of a cancelled command is gone. -/
theorem not_nothingLost_cancel :
    ¬ NothingLost cancelledSerializer [.cmdCancel 1 1 1]
      ((∅ : Registry idleEngine).insert 1 oneCommand) := by
  rintro ⟨later, h⟩
  have hfit := allFit_append_left (forall_lossless_iff.mp (Exchange.forall_lossless h))
  rcases hfit.1 (by decide) (by decide) (by decide)
    [oneCommand.notification 1 (.commandExit (-1) (some 0) (some 0))] rfl with hnone | hshort
  · exact absurd hnone (List.cons_ne_nil _ _)
  · exact absurd hshort (by decide +kernel)

end AmlaSandbox.Runtimes
