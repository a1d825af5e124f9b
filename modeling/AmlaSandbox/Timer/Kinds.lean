import AmlaSandbox.Host.Machine
import AmlaSandbox.Timer.Basic
import AmlaSandbox.Timer.Process

/-!
# The kinds of operations

What kinds of operations the futures create are the kinds that get into the queue, whatever else
happens; the timers add nothing but their own `WakeAt`.
-/

namespace AmlaSandbox

open Async Library Host HostChannelInner

variable {P : HostOpKind → Prop}

namespace Host.Machine

variable {m : Machine} {willWake : Waker → Waker → Bool} {i : Nat} {f : HostOpFuture}

/-- What waits for room in the queue or waits in it is of a kind that `P` admits. -/
structure OnlyKinds (P : HostOpKind → Prop) (m : Machine) : Prop where
  futures : ∀ f ∈ m.futures, ∀ kind, f.state = .pending kind → P kind
  queued : ∀ req ∈ m.chan.pendingRequests, P req.kind

namespace OnlyKinds

lemma new (maxPending : Nat) : (Machine.new maxPending).OnlyKinds P :=
  ⟨fun _ hf => absurd hf List.not_mem_nil, fun _ hreq => absurd hreq List.not_mem_nil⟩

lemma create (h : m.OnlyKinds P) {kind : HostOpKind} (hkind : P kind) :
    (m.createFuture kind).OnlyKinds P := by
  refine ⟨?_, h.queued⟩
  intro f hf kind' hstate
  rcases List.mem_append.mp hf with hf | hf
  · exact h.futures f hf kind' hstate
  · obtain rfl := List.mem_singleton.mp hf
    cases hstate
    exact hkind

/-- A future changes its state, and the queue grows by requests of admitted kinds. -/
lemma set (h : m.OnlyKinds P) {m' : Machine} {g : HostOpFuture}
    (hfutures : m'.futures = m.futures.set i g) (hg : ∀ kind, g.state = .pending kind → P kind)
    (hqueued : ∀ req ∈ m'.chan.pendingRequests, req ∈ m.chan.pendingRequests ∨ P req.kind) :
    m'.OnlyKinds P := by
  constructor
  · intro f hf
    rw [hfutures] at hf
    rcases List.mem_or_eq_of_mem_set hf with hf | rfl
    · exact h.futures f hf
    · exact hg
  · intro req hreq
    rcases hqueued req hreq with hold | hnew
    · exact h.queued req hold
    · exact hnew

lemma poll (h : m.OnlyKinds P) (waker : Waker) :
    (m.pollFuture willWake i waker).2.OnlyKinds P := by
  cases hf : m.futures[i]? with
  | none =>
    rw [pollFuture_none (by simp [hf])]
    exact h
  | some f =>
    have hold := h.futures f (List.mem_of_getElem? hf)
    cases hdropped : f.dropped with
    | true =>
      rw [pollFuture_none (by simp [hf, hdropped])]
      exact h
    | false =>
      cases hstate : f.state with
      | pending kind =>
        cases hroom : m.chan.canSubmit with
        | false =>
          rw [pollFuture_full hf hdropped hstate hroom]
          refine h.set rfl hold fun req hreq => .inl ?_
          rwa [← (register_frame m.chan willWake waker).1]
        | true =>
          rw [pollFuture_room hf hdropped hstate hroom]
          refine h.set rfl (fun kind hkind => by cases hkind) fun req hreq => ?_
          rw [(pollResult_frame _ _ _).1, (submit_frame _ _).1, List.mem_append,
            List.mem_singleton] at hreq
          refine hreq.imp_right ?_
          rintro rfl
          exact hold kind hstate
      | submitted id =>
        rw [pollFuture_submitted hf hdropped hstate]
        refine h.set rfl (fun kind hkind => hold kind hkind) fun req hreq => .inl ?_
        rwa [(pollResult_frame _ _ _).1] at hreq
      | done =>
        rw [pollFuture, hf]
        simp only [hdropped, hstate]
        exact h.set rfl (fun kind hkind => by cases hkind) fun req hreq => .inl hreq

lemma drop (h : m.OnlyKinds P) (i : Nat) : (m.dropFuture i).OnlyKinds P := by
  cases hf : m.futures[i]? with
  | none =>
    rw [dropFuture_none (by simp [hf])]
    exact h
  | some f =>
    cases hdropped : f.dropped with
    | true =>
      rw [dropFuture_none (by simp [hf, hdropped])]
      exact h
    | false =>
      have hold := h.futures f (List.mem_of_getElem? hf)
      simp only [dropFuture, hf, hdropped]
      refine h.set rfl hold fun req hreq => .inl ?_
      cases hstate : f.state with
      | submitted id =>
        simpa [hstate, HostChannelInner.dropFuture, cancel_eq] using hreq
      | pending | done => simpa [hstate, HostChannelInner.dropFuture] using hreq

lemma take (h : m.OnlyKinds P) : m.take.2.OnlyKinds P := by
  refine ⟨h.futures, ?_⟩
  refine takePending_keeps (P := fun c => ∀ req ∈ c.pendingRequests, P req.kind) h.queued ?_ ?_
  · intro c req rest hc hpending other hother
    exact hc other (hpending ▸ List.mem_cons_of_mem _ hother)
  · intro c id hc req hreq
    rw [pendingRequests_update] at hreq
    exact hc req hreq

lemma call (h : m.OnlyKinds P) (id : HostOpId) (call : HostCall) :
    (m.hostCall id call).OnlyKinds P := by
  refine ⟨h.futures, ?_⟩
  obtain ⟨wakers, heq⟩ := call_eq m.chan id call
  intro req hreq
  refine h.queued req ?_
  simpa [hostCall, heq, wakeAll] using hreq

/-- No event but the creation of a future brings in another kind. -/
theorem step (h : m.OnlyKinds P) {e : Event} (hcreate : ∀ kind, e = .create kind → P kind) :
    (m.step willWake e).OnlyKinds P := by
  cases e with
  | create kind => exact h.create (hcreate kind rfl)
  | poll i waker => exact h.poll waker
  | drop i => exact h.drop i
  | take => exact h.take
  | call id call => exact h.call id call
  | setTask task => exact ⟨h.futures, h.queued⟩

end OnlyKinds

/-- What is taken was in the queue. -/
lemma mem_of_takeLoop {c : HostChannelInner} {reqs : List HostOpRequest} {req : HostOpRequest}
    (h : (c.takeLoop reqs).1 = some req) : req ∈ reqs := by
  induction reqs generalizing c with
  | nil => cases h
  | cons first rest ih =>
    rw [takeLoop_cons] at h
    dsimp only at h
    split_ifs at h
    · exact List.mem_cons_of_mem _ (ih h)
    · obtain rfl := Option.some.inj h
      exact List.mem_cons_self

/-- A take shortens the queue, or finds nothing and leaves it empty. -/
lemma pendingRequests_takeLoop {c : HostChannelInner} (reqs : List HostOpRequest)
    (h : c.pendingRequests.length ≤ reqs.length) :
    (c.takeLoop reqs).2.pendingRequests.length ≤ reqs.length - 1 ∧
      ((c.takeLoop reqs).1 = none → (c.takeLoop reqs).2.pendingRequests = []) := by
  induction reqs generalizing c with
  | nil => exact ⟨Nat.zero_le _, fun _ => rfl⟩
  | cons first rest ih =>
    have hpurged : ((c.popRequest rest).update first.id purgeSlot).pendingRequests = rest :=
      pendingRequests_update
    rw [takeLoop_cons]
    dsimp only
    split_ifs
    · obtain ⟨hlength, hempty⟩ := ih (Nat.le_of_eq (congrArg List.length hpurged))
      exact ⟨Nat.le_trans hlength (Nat.sub_le _ _), hempty⟩
    · exact ⟨Nat.le_of_eq (congrArg List.length hpurged), fun hnone => by cases hnone⟩

lemma OnlyKinds.taken (h : m.OnlyKinds P) {req : HostOpRequest} (hreq : m.take.1 = some req) :
    P req.kind :=
  h.queued req (mem_of_takeLoop hreq)

end Host.Machine

namespace Timer

variable {Q : MinHeap TimerEntry TimerEntry.deadline} {willWake : Waker → Waker → Bool}
  {t : TimerStateInner Q}

namespace TimerStateInner

/-- What every turn of the loop of `process` keeps, `process` keeps. -/
theorem process_induction {I : TimerStateInner Q → Prop} {waker : Waker}
    (hturn : ∀ t, I t → I (t.turn willWake waker).2) (h : I t) : I (t.process willWake waker) := by
  have hloop : ∀ n t, I t → I (t.processLoop willWake waker n) := by
    intro n
    induction n with
    | zero => exact fun _ ht => ht
    | succ n ih =>
      intro t ht
      rw [processLoop]
      dsimp only
      split_ifs
      · exact ih _ (hturn t ht)
      · exact hturn t ht
  exact hloop _ _ h

variable (hwakeAt : ∀ deadline, P (.wakeAt deadline))

lemma onlyKinds_setWakeAt (h : t.host.OnlyKinds P) (state : WakeAtState) :
    (t.setWakeAt state).host.OnlyKinds P := by
  cases hstate : t.wakeAtState with
  | idle =>
    rw [host_setWakeAt_idle hstate]
    exact h
  | pending d i =>
    rw [host_setWakeAt_pending hstate]
    exact h.drop i

include hwakeAt

lemma onlyKinds_requestWakeAt (h : t.host.OnlyKinds P) (deadline : TimeNanos) :
    (t.requestWakeAt deadline).host.OnlyKinds P :=
  onlyKinds_setWakeAt (t := { t with host := t.host.createFuture (.wakeAt deadline) })
    (h.create (hwakeAt deadline)) _

lemma onlyKinds_turn (h : t.host.OnlyKinds P) (waker : Waker) :
    (t.turn willWake waker).2.host.OnlyKinds P := by
  simp only [turn]
  split
  · split
    · exact onlyKinds_requestWakeAt hwakeAt h _
    · exact h
  · next future _ =>
    have hpoll : (t.host.pollFuture willWake future waker).2.OnlyKinds P := h.poll waker
    generalize t.host.pollFuture willWake future waker = polled at hpoll ⊢
    obtain ⟨result, host⟩ := polled
    cases result with
    | pending => exact hpoll
    | ready result =>
      show ({ t with host }.answered result).host.OnlyKinds P
      rw [(answered_frame (t := { t with host }) result).2]
      exact onlyKinds_setWakeAt (t := { t with host }) hpoll _

lemma onlyKinds_process (h : t.host.OnlyKinds P) (waker : Waker) :
    (t.process willWake waker).host.OnlyKinds P :=
  process_induction (I := fun t => t.host.OnlyKinds P)
    (fun _ ht => onlyKinds_turn hwakeAt ht waker) h

lemma onlyKinds_register (h : t.host.OnlyKinds P) (deadline : TimeNanos) :
    (t.register deadline).2.host.OnlyKinds P := by
  have henter : (t.enter deadline).2.host = t.host := by
    simp only [enter, allocateSlot]
    split <;> rfl
  have hkinds : (t.enter deadline).2.host.OnlyKinds P := henter.symm ▸ h
  simp only [register]
  split_ifs
  · exact onlyKinds_requestWakeAt hwakeAt hkinds deadline
  · exact hkinds

end TimerStateInner

variable {m : Machine Q} {e : Event}

/-- No event but the creation of a future brings in a kind other than that of `WakeAt`. -/
theorem Machine.onlyKinds_step (h : m.timers.host.OnlyKinds P)
    (hwakeAt : ∀ deadline, P (.wakeAt deadline))
    (hcreate : ∀ kind, e = .host (.create kind) → P kind) :
    (m.step willWake e).timers.host.OnlyKinds P := by
  have hmodify : ∀ (t : TimerStateInner Q) id f, (t.modifySlot id f).host = t.host := by
    intro t id f
    simp only [TimerStateInner.modifySlot]
    split <;> rfl
  have hcleanup : ∀ (t : TimerStateInner Q) id, (t.cleanup id).host = t.host := by
    intro t id
    simp only [TimerStateInner.cleanup]
    split_ifs <;> rfl
  cases e with
  | host e =>
    simp only [Machine.step, TimerStateInner.hostStep]
    split_ifs
    · exact h
    · exact h.step fun kind hkind => hcreate kind (congrArg Event.host hkind)
  | sleepUntil deadline => exact TimerStateInner.onlyKinds_register hwakeAt h deadline
  | poll i waker =>
    simp only [Machine.step, Machine.pollSleep]
    split
    · exact h
    · split_ifs
      · exact (hcleanup _ _).symm ▸ h
      · exact (hmodify _ _ _).symm ▸ h
      · exact h
  | drop i =>
    simp only [Machine.step, Machine.dropSleep]
    split
    · exact h
    · split_ifs
      · exact (hmodify _ _ _).symm ▸ h
      · exact h
  | process waker => exact TimerStateInner.onlyKinds_process hwakeAt h waker

end Timer

end AmlaSandbox
