import AmlaSandbox.Host.Isolation
import AmlaSandbox.Host.Reply
import AmlaSandbox.Timer.Process

/-!
# The `WakeAt` of the timers

There is one `WakeAt` at a time. Its deadline is not later than any in the heap, but it gets to the
host only if the queue has room when the timers are processed.

Once `process` has returned, there is a `WakeAt` if there are timers. If its operation is with the
host and unanswered, processing the timers again changes nothing but what that poll registers.
-/

namespace AmlaSandbox.Timer

open Async Library Host

namespace TimerStateInner

variable {Q : MinHeap TimerEntry TimerEntry.deadline} {t t' : TimerStateInner Q}
  {willWake : Waker → Waker → Bool} {maxPending : Nat} {sleeps : List SleepFuture}
  {s : SleepFuture} {slot : PendingSlot} {result : HostResult} {f : HostOpFuture} {id : HostOpId}
  {d deadline : TimeNanos} {i : Nat} {waker : Waker}

/-- The host has replied to a `WakeAt` with a time at or past the deadline. -/
def Replied (t : TimerStateInner Q) (deadline : TimeNanos) : Prop :=
  ∃ d bytes, t.host.Replied (.wakeAt d) (.ok bytes) ∧ deadline ≤ replyTime bytes

/-- The future waits for the reply to a `WakeAt`, which may not have been submitted yet. -/
structure Awaits (t : TimerStateInner Q) (d : TimeNanos) (f : HostOpFuture) : Prop where
  dropped : f.dropped = false
  resolved : f.resolved = none
  state : f.state = .pending (.wakeAt d) ∨
    ∃ id, f.state = .submitted id ∧ t.host.Requested id (.wakeAt d)

structure Inv (willWake : Waker → Waker → Bool) (maxPending : Nat) (t : TimerStateInner Q)
    (sleeps : List SleepFuture) : Prop where
  host : Host.Machine.Reachable willWake Host.Machine.Fitting maxPending t.host
  consistent : t.Consistent t.Replied sleeps
  wakeAt : ∀ d i, t.wakeAtState = .pending d i →
    (∃ f, t.host.futures[i]? = some f ∧ t.Awaits d f) ∧ ∀ e ∈ Q.toList t.heap, d ≤ e.deadline

/-- Without a `WakeAt` there is no timer. -/
def Settled (t : TimerStateInner Q) : Prop := t.wakeAtState = .idle → Q.toList t.heap = []

lemma Inv.host_inv (h : t.Inv willWake maxPending sleeps) : t.host.Inv :=
  Host.Machine.inv_of_reachable h.host fun _ _ hok => hok

lemma Replied.keep (h : t.Replied deadline) (hkeeps : t.host.Keeps t'.host) :
    t'.Replied deadline := by
  obtain ⟨d, bytes, hreplied, hle⟩ := h
  exact ⟨d, bytes, hkeeps.replied hreplied, hle⟩

lemma Awaits.keep (h : t.Awaits d f) (hkeeps : t.host.Keeps t'.host) : t'.Awaits d f := by
  refine ⟨h.dropped, h.resolved, h.state.imp_right ?_⟩
  rintro ⟨id, hid, hreq⟩
  exact ⟨id, hid, hkeeps.requested hreq⟩

/-! ### Changes of `WakeAt` -/

/-- An event of the host channel. -/
lemma host_step (h : Host.Machine.Reachable willWake Host.Machine.Fitting maxPending t.host)
    (e : Host.Event) (hfit : t.host.Fitting e) :
    Host.Machine.Reachable willWake Host.Machine.Fitting maxPending (t.host.step willWake e) ∧
      t.host.Keeps (t.host.step willWake e) :=
  ⟨h.tail hfit rfl, Host.Machine.step_keeps (Host.Machine.inv_of_reachable h fun _ _ hok => hok) e⟩

lemma host_setWakeAt (h : Host.Machine.Reachable willWake Host.Machine.Fitting maxPending t.host)
    (state : WakeAtState) :
    Host.Machine.Reachable willWake Host.Machine.Fitting maxPending (t.setWakeAt state).host ∧
      t.host.Keeps (t.setWakeAt state).host := by
  cases hstate : t.wakeAtState with
  | idle =>
    rw [host_setWakeAt_idle hstate]
    exact ⟨h, .refl⟩
  | pending d i =>
    rw [host_setWakeAt_pending hstate]
    exact host_step h (.drop i) trivial

/-- `WakeAt` is requested for the earliest deadline; its future is new. -/
lemma Inv.requestWakeAt
    (hhost : Host.Machine.Reachable willWake Host.Machine.Fitting maxPending t.host)
    (hconsistent : t.Consistent t.Replied sleeps) (hle : ∀ e ∈ Q.toList t.heap, d ≤ e.deadline)
    (hold : ∀ d' i, t.wakeAtState = .pending d' i → i < t.host.futures.length) :
    (t.requestWakeAt d).Inv willWake maxPending sleeps ∧
      (t.requestWakeAt d).host.futures[t.host.futures.length]? =
        some { state := .pending (.wakeAt d) } := by
  obtain ⟨hcreate, hkeeps⟩ := host_step hhost (.create (.wakeAt d)) trivial
  obtain ⟨hhost', hkeeps'⟩ := host_setWakeAt
    (t := { t with host := t.host.createFuture (.wakeAt d) }) hcreate
    (.pending d t.host.futures.length)
  have hnew : (t.requestWakeAt d).host.futures[t.host.futures.length]? =
      some { state := .pending (.wakeAt d) } := by
    have hcreated : (t.host.createFuture (.wakeAt d)).futures[t.host.futures.length]? =
        some { state := .pending (.wakeAt d) } := List.getElem?_concat_length
    cases hstate : t.wakeAtState with
    | idle =>
      rw [host_requestWakeAt_idle hstate]
      exact hcreated
    | pending d' i =>
      rw [host_requestWakeAt_pending hstate]
      exact (Host.Machine.getElem?_dropFuture (Nat.ne_of_gt (hold d' i hstate))).trans hcreated
  refine ⟨⟨hhost', ?_, ?_⟩, hnew⟩
  · have hreplied : ∀ d', t.Replied d' → (t.requestWakeAt d).Replied d' := fun d' hd' =>
      hd'.keep (hkeeps.trans hkeeps')
    exact (hconsistent.mono hreplied).congr rfl rfl rfl
  · rintro d' i hstate
    cases hstate
    exact ⟨⟨_, hnew, rfl, rfl, .inl rfl⟩, hle⟩

/-! ### What a turn of `process` finds -/

/-- The future of `WakeAt`. -/
def wakeFuture? (t : TimerStateInner Q) : Option HostOpFuture :=
  t.wakeAtState.future?.bind (t.host.futures[·]?)

/-- `WakeAt` has been submitted, and its operation has the slot. -/
def WakeSlot (t : TimerStateInner Q) (slot : PendingSlot) : Prop :=
  ∃ f id, t.wakeFuture? = some f ∧ f.state = .submitted id ∧ t.host.chan.lookup id = some slot

/-- `WakeAt` has not been submitted. -/
def Unsubmitted (t : TimerStateInner Q) : Prop :=
  ∃ f kind, t.wakeFuture? = some f ∧ f.state = .pending kind

/-- A `WakeAt` for the deadline is with the host, which has not replied. -/
def WakeAtPending (t : TimerStateInner Q) (deadline : TimeNanos) : Prop :=
  ∃ i f id slot, t.wakeAtState = .pending deadline i ∧ t.host.futures[i]? = some f ∧
    f.dropped = false ∧ f.state = .submitted id ∧ t.host.Requested id (.wakeAt deadline) ∧
    t.host.chan.lookup id = some slot ∧ slot.cancelled = false ∧ slot.result = none

/-- A poll that submits `WakeAt` finds a slot for it and a generation that the slot did not have
before; a poll that resolves `WakeAt` frees its slot, which the next one then takes. -/
def FitsPoll (t : TimerStateInner Q) : Prop :=
  ∀ f, t.wakeFuture? = some f →
    (∀ kind, f.state = .pending kind → t.host.chan.canSubmit = true → t.host.chan.Fits) ∧
    ∀ id slot, f.state = .submitted id → t.host.chan.lookup id = some slot →
      slot.result ≠ none → id.generation ≠ 0

lemma wakeFuture?_eq (hstate : t.wakeAtState = .pending d i) :
    t.wakeFuture? = t.host.futures[i]? := by
  rw [wakeFuture?, hstate]
  rfl

lemma Unsubmitted.not_wakeSlot (h : t.Unsubmitted) : ¬ t.WakeSlot slot := by
  obtain ⟨f, kind, hf, hkind⟩ := h
  rintro ⟨f', id, hf', hid, _⟩
  obtain rfl := Option.some.inj (hf.symm.trans hf')
  rw [hkind] at hid
  cases hid

lemma WakeAtPending.wakeSlot (h : t.WakeAtPending d) : ∃ slot, t.WakeSlot slot := by
  obtain ⟨i, f, id, slot, hstate, hf, _, hid, _, hlookup, _⟩ := h
  exact ⟨slot, f, id, (wakeFuture?_eq hstate).trans hf, hid, hlookup⟩

lemma WakeSlot.unique {slot' : PendingSlot} (h : t.WakeSlot slot) (h' : t.WakeSlot slot') :
    slot = slot' := by
  obtain ⟨f, id, hf, hid, hlookup⟩ := h
  obtain ⟨f', id', hf', hid', hlookup'⟩ := h'
  obtain rfl := Option.some.inj (hf.symm.trans hf')
  obtain rfl := HostOpState.submitted.inj (hid.symm.trans hid')
  exact Option.some.inj (hlookup.symm.trans hlookup')

lemma FitsPoll.fitting (h : t.FitsPoll) (hstate : t.wakeAtState = .pending d i) (waker : Waker) :
    t.host.Fitting (.poll i waker) := by
  intro f kind hf _ hkind hroom
  exact (h f ((wakeFuture?_eq hstate).trans hf)).1 kind hkind hroom

/-! ### Turns of `process` -/

/-- The timers after a poll of `WakeAt`. -/
def polled (t : TimerStateInner Q) (willWake : Waker → Waker → Bool) (i : Nat) (waker : Waker) :
    TimerStateInner Q :=
  { t with host := (t.host.pollFuture willWake i waker).2 }

lemma turn_pending (hstate : t.wakeAtState = .pending d i)
    (hpoll : (t.host.pollFuture willWake i waker).1 = .pending) :
    t.turn willWake waker = (false, t.polled willWake i waker) := by
  rw [turn, hstate]
  simp [hpoll, polled, hstate]

lemma turn_ready (hstate : t.wakeAtState = .pending d i)
    (hpoll : (t.host.pollFuture willWake i waker).1 = .ready result) :
    t.turn willWake waker = (true, (t.polled willWake i waker).answered result) := by
  rw [turn, hstate]
  simp [hpoll, polled, hstate]

/-- A poll that leaves `WakeAt` pending. -/
lemma Inv.polled (h : t.Inv willWake maxPending sleeps) (hstate : t.wakeAtState = .pending d i)
    (hfit : t.FitsPoll) (hf : (t.polled willWake i waker).host.futures[i]? = some f)
    (hawaits : (t.polled willWake i waker).Awaits d f) :
    (t.polled willWake i waker).Inv willWake maxPending sleeps := by
  obtain ⟨hhost, hkeeps⟩ := host_step h.host (.poll i waker) (hfit.fitting hstate waker)
  refine ⟨hhost, (h.consistent.mono fun d' hd' => ?_).congr rfl rfl rfl, ?_⟩
  · exact hd'.keep hkeeps
  · intro d' j hstate'
    obtain ⟨rfl, rfl⟩ : d = d' ∧ i = j := WakeAtState.pending.inj (hstate.symm.trans hstate')
    exact ⟨⟨f, hf, hawaits⟩, (h.wakeAt d i hstate).2⟩

/-- The future of `WakeAt` is unsubmitted, or its operation has a slot that is not cancelled. -/
lemma Inv.future_cases (h : t.Inv willWake maxPending sleeps)
    (hstate : t.wakeAtState = .pending d i) :
    ∃ f, t.host.futures[i]? = some f ∧ t.Awaits d f ∧ (f.state = .pending (.wakeAt d) ∨
      ∃ id slot, f.state = .submitted id ∧ t.host.Requested id (.wakeAt d) ∧
        t.host.chan.lookup id = some slot ∧ slot.cancelled = false) := by
  obtain ⟨⟨f, hf, hawaits⟩, _⟩ := h.wakeAt d i hstate
  refine ⟨f, hf, hawaits, hawaits.state.imp_right ?_⟩
  rintro ⟨id, hid, hreq⟩
  have howned := Host.Machine.owned_of_reachable h.host f (List.mem_of_getElem? hf) id hid
  obtain ⟨slot, hslot, hcancelled⟩ := howned.live hawaits.dropped hawaits.resolved
  exact ⟨id, slot, hid, hreq, hslot, hcancelled⟩

/-- A `WakeAt` that finds the queue full is not submitted. -/
lemma Inv.turn_full (h : t.Inv willWake maxPending sleeps) (hfit : t.FitsPoll)
    (hstate : t.wakeAtState = .pending d i) (hf : t.host.futures[i]? = some f)
    (hawaits : t.Awaits d f) (hpending : f.state = .pending (.wakeAt d))
    (hroom : t.host.chan.canSubmit = false) (waker : Waker) :
    ∃ t', t.turn willWake waker = (false, t') ∧ t'.Inv willWake maxPending sleeps ∧
      t'.slots = t.slots ∧ t'.wakeAtState = .pending d i ∧ t'.Unsubmitted := by
  have hpoll : t.host.pollFuture willWake i waker = _ := Host.Machine.pollFuture_full hf
    hawaits.dropped hpending hroom
  obtain ⟨hlt, _⟩ := List.getElem?_eq_some_iff.mp hf
  have hnew : (t.polled willWake i waker).host.futures[i]? =
      some { f with parked := some ⟨waker, t.host.chan.woken.length⟩ } := by
    rw [TimerStateInner.polled, hpoll]
    exact List.getElem?_set_self hlt
  have hkept : (t.polled willWake i waker).Awaits d f :=
    hawaits.keep (host_step h.host (.poll i waker) (hfit.fitting hstate waker)).2
  refine ⟨_, turn_pending hstate (by rw [hpoll]), h.polled hstate hfit hnew ?_, rfl, hstate, ?_⟩
  · exact ⟨hkept.dropped, hkept.resolved, hkept.state⟩
  · exact ⟨_, _, (wakeFuture?_eq (t := t.polled willWake i waker) hstate).trans hnew, hpending⟩

/-- A `WakeAt` that finds room is submitted. -/
lemma Inv.turn_room (h : t.Inv willWake maxPending sleeps) (hfit : t.FitsPoll)
    (hstate : t.wakeAtState = .pending d i) (hf : t.host.futures[i]? = some f)
    (hawaits : t.Awaits d f) (hpending : f.state = .pending (.wakeAt d))
    (hroom : t.host.chan.canSubmit = true) (waker : Waker) :
    ∃ t', t.turn willWake waker = (false, t') ∧ t'.Inv willWake maxPending sleeps ∧
      t'.slots = t.slots ∧ t'.WakeAtPending d := by
  have hfits := (hfit f ((wakeFuture?_eq hstate).trans hf)).1 _ hpending hroom
  have hpoll : t.host.pollFuture willWake i waker = _ := Host.Machine.pollFuture_fits h.host_inv
    hfits hf hawaits.dropped hpending hawaits.resolved hroom
  obtain ⟨hlt, _⟩ := List.getElem?_eq_some_iff.mp hf
  have hnew : (t.polled willWake i waker).host.futures[i]? = some
      { state := .submitted (t.host.chan.submit (.wakeAt d)).1
        ticket := t.host.submitted.length
        since := t.host.calls.length } := by
    rw [TimerStateInner.polled, hpoll]
    exact List.getElem?_set_self hlt
  have hreq : (t.polled willWake i waker).host.Requested (t.host.chan.submit (.wakeAt d)).1
      (.wakeAt d) := by
    rw [TimerStateInner.polled, hpoll]
    exact ⟨_, List.mem_append_right _ (List.mem_singleton.mpr rfl), rfl, rfl⟩
  have hlookup : (t.polled willWake i waker).host.chan.lookup
      (t.host.chan.submit (.wakeAt d)).1 = some { waker := some waker } := by
    rw [TimerStateInner.polled, hpoll]
    show (HostChannelInner.update _ _ _).lookup _ = _
    rw [HostChannelInner.lookup_update, if_pos rfl,
      HostChannelInner.lookup_submit h.host_inv.wf _ hfits, if_pos rfl]
    rfl
  refine ⟨_, turn_pending hstate (by rw [hpoll]), h.polled hstate hfit hnew ?_, rfl, ?_⟩
  · exact ⟨rfl, rfl, .inr ⟨_, rfl, hreq⟩⟩
  · exact ⟨i, _, _, _, hstate, hnew, rfl, rfl, hreq, hlookup, rfl, rfl⟩

/-- A `WakeAt` to which the host has not replied stays with it. -/
lemma Inv.turn_waiting (h : t.Inv willWake maxPending sleeps) (hfit : t.FitsPoll)
    (hstate : t.wakeAtState = .pending d i) (hf : t.host.futures[i]? = some f)
    (hawaits : t.Awaits d f) (hid : f.state = .submitted id)
    (hreq : t.host.Requested id (.wakeAt d)) (hlookup : t.host.chan.lookup id = some slot)
    (hcancelled : slot.cancelled = false) (hresult : slot.result = none) (waker : Waker) :
    ∃ t', t.turn willWake waker = (false, t') ∧ t'.Inv willWake maxPending sleeps ∧
      t'.slots = t.slots ∧ t'.WakeAtPending d := by
  have hpoll : t.host.pollFuture willWake i waker = _ := Host.Machine.pollFuture_submitted hf
    hawaits.dropped hid
  rw [HostChannelInner.pollResult_of_some waker hlookup, hresult, hawaits.resolved] at hpoll
  obtain ⟨hlt, _⟩ := List.getElem?_eq_some_iff.mp hf
  have hnew : (t.polled willWake i waker).host.futures[i]? =
      some { f with parked := none, resolved := none } := by
    rw [TimerStateInner.polled, hpoll]
    exact List.getElem?_set_self hlt
  have hreq' : (t.polled willWake i waker).host.Requested id (.wakeAt d) :=
    (host_step h.host (.poll i waker) (hfit.fitting hstate waker)).2.requested hreq
  have hlookup' : (t.polled willWake i waker).host.chan.lookup id =
      some { slot with waker := some waker } := by
    rw [TimerStateInner.polled, hpoll]
    show (HostChannelInner.update _ _ _).lookup _ = _
    rw [HostChannelInner.lookup_update, if_pos rfl, hlookup, Option.bind_some,
      HostChannelInner.pollSlot]
    simp [hresult]
  refine ⟨_, turn_pending hstate (by rw [hpoll]), h.polled hstate hfit hnew ?_, rfl, ?_⟩
  · exact ⟨hawaits.dropped, rfl, .inr ⟨id, hid, hreq'⟩⟩
  · exact ⟨i, _, id, _, hstate, hnew, hawaits.dropped, hid, hreq', hlookup', hcancelled, hresult⟩

/-- The poll that hands out the reply frees the slot of `WakeAt`, and the drop of its future finds
it freed. -/
lemma chan_replied (hstate : t.wakeAtState = .pending d i) (hf : t.host.futures[i]? = some f)
    (hawaits : t.Awaits d f) (hid : f.state = .submitted id)
    (hlookup : t.host.chan.lookup id = some slot) (hresult : slot.result = some result)
    (waker : Waker) :
    ((t.polled willWake i waker).setWakeAt .idle).host.chan = t.host.chan.freeSlot id := by
  have hpoll : t.host.pollFuture willWake i waker = _ := Host.Machine.pollFuture_submitted hf
    hawaits.dropped hid
  obtain ⟨hlt, _⟩ := List.getElem?_eq_some_iff.mp hf
  have hchan : (t.polled willWake i waker).host.chan = t.host.chan.freeSlot id := by
    rw [TimerStateInner.polled, hpoll]
    show (t.host.chan.pollResult waker id).2 = _
    rw [HostChannelInner.pollResult_eq, HostChannelInner.update_of_some hlookup,
      HostChannelInner.pollSlot, hresult]
    rfl
  have hfreed : (t.host.chan.freeSlot id).lookup id = none := by
    have hupdate : t.host.chan.update id (fun _ => none) = t.host.chan.freeSlot id :=
      HostChannelInner.update_of_some hlookup
    rw [← hupdate, HostChannelInner.lookup_update, if_pos rfl, hlookup]
    rfl
  have hnew : ∃ g, (t.polled willWake i waker).host.futures[i]? = some g ∧ g.dropped = false ∧
      g.state = .submitted id := by
    rw [TimerStateInner.polled, hpoll]
    exact ⟨_, List.getElem?_set_self hlt, hawaits.dropped, hid⟩
  obtain ⟨g, hg, hdropped, hgid⟩ := hnew
  rw [host_setWakeAt_pending (t := t.polled willWake i waker) hstate,
    Host.Machine.dropFuture_submitted hg hdropped hgid]
  show (HostChannelInner.update _ id _) = _
  rw [hchan, HostChannelInner.update_of_none hfreed]

lemma fits_freeSlot {c : HostChannelInner} (hlookup : c.lookup id = some slot)
    (hgeneration : id.generation ≠ 0) : (c.freeSlot id).Fits := by
  have hvalid := HostChannelInner.isValidId_eq hlookup
  rw [HostChannelInner.isValidId, beq_iff_eq] at hvalid
  rw [HostChannelInner.freeSlot_eq hlookup]
  refine ⟨?_, fun hnil => by cases hnil⟩
  intro idx hidx
  obtain rfl : id.index = idx := Option.some.inj hidx
  show c.slotInfo[id.index]? ≠ some 0
  rw [hvalid]
  exact fun heq => hgeneration (Option.some.inj heq)

/-- A reply of the host fires the timers that it says are due. -/
lemma Consistent.answered (result : HostResult) (h : t.Consistent t.Replied sleeps)
    (hhost : Host.Machine.Reachable willWake Host.Machine.Fitting maxPending t.host)
    (hreplied : ∀ bytes, result = .ok bytes → ∀ deadline ≤ replyTime bytes, t.Replied deadline) :
    (t.answered result).Consistent (t.answered result).Replied sleeps ∧
      ∀ s ∈ sleeps, (t.answered result).Armed s ↔
        t.Armed s ∧ ¬ ∃ bytes, result = .ok bytes ∧ s.deadline ≤ replyTime bytes := by
  have hkeeps : t.host.Keeps (t.answered result).host := by
    rw [(answered_frame result).2]
    exact (host_setWakeAt hhost .idle).2
  have hkeep : ∀ deadline, t.Replied deadline → (t.answered result).Replied deadline :=
    fun _ hdeadline => hdeadline.keep hkeeps
  cases result with
  | error e =>
    refine ⟨(h.mono hkeep).congr rfl rfl rfl, fun s _ => ?_⟩
    show t.Armed s ↔ _
    simp
  | ok bytes =>
    obtain ⟨hconsistent, harmed, _⟩ := h.fireExpired _ (hreplied bytes rfl)
    refine ⟨(hconsistent.mono hkeep).congr rfl rfl rfl, fun s hs => ?_⟩
    show (t.fireExpired (replyTime bytes)).Armed s ↔ _
    rw [harmed s hs]
    simp

/-- The timers that the reply says are due fire, and `WakeAt` is given up. -/
lemma Inv.turn_replied (h : t.Inv willWake maxPending sleeps) (hfit : t.FitsPoll)
    (hstate : t.wakeAtState = .pending d i) (hf : t.host.futures[i]? = some f)
    (hawaits : t.Awaits d f) (hid : f.state = .submitted id)
    (hreq : t.host.Requested id (.wakeAt d)) (hlookup : t.host.chan.lookup id = some slot)
    (hresult : slot.result = some result) (waker : Waker) :
    ∃ t', t.turn willWake waker = (true, t') ∧ t'.wakeAtState = .idle ∧
      Host.Machine.Reachable willWake Host.Machine.Fitting maxPending t'.host ∧
      t'.Consistent t'.Replied sleeps ∧ t'.host.chan = t.host.chan.freeSlot id ∧
      ∀ s ∈ sleeps, t'.Armed s ↔
        t.Armed s ∧ ¬ ∃ bytes, result = .ok bytes ∧ s.deadline ≤ replyTime bytes := by
  have hpoll : t.host.pollFuture willWake i waker = _ := Host.Machine.pollFuture_submitted hf
    hawaits.dropped hid
  rw [HostChannelInner.pollResult_of_some waker hlookup, hresult, hawaits.resolved] at hpoll
  obtain ⟨hlt, _⟩ := List.getElem?_eq_some_iff.mp hf
  obtain ⟨hhost, hkeeps⟩ := host_step h.host (.poll i waker) (hfit.fitting hstate waker)
  have hreplied : (t.polled willWake i waker).host.Replied (.wakeAt d) result := by
    have hnew : (t.polled willWake i waker).host.futures[i]? =
        some { f with parked := none, resolved := some result } := by
      rw [TimerStateInner.polled, hpoll]
      exact List.getElem?_set_self hlt
    exact ⟨_, List.mem_of_getElem? hnew, id, hid, hkeeps.requested hreq, rfl⟩
  have hconsistent : (t.polled willWake i waker).Consistent
      (t.polled willWake i waker).Replied sleeps :=
    (h.consistent.mono fun d' hd' => hd'.keep hkeeps).congr rfl rfl rfl
  have hchan : ((t.polled willWake i waker).setWakeAt .idle).host.chan = t.host.chan.freeSlot id :=
    chan_replied hstate hf hawaits hid hlookup hresult waker
  obtain ⟨hidle, hhost'⟩ := answered_frame (t := t.polled willWake i waker) result
  obtain ⟨hanswered, harmed⟩ := hconsistent.answered result hhost <| by
    rintro bytes rfl deadline hle
    exact ⟨d, bytes, hreplied, hle⟩
  refine ⟨_, turn_ready hstate (by rw [hpoll]), hidle, ?_, hanswered, by rw [hhost', hchan], harmed⟩
  rw [hhost']
  exact (host_setWakeAt (t := t.polled willWake i waker) hhost .idle).1

end TimerStateInner

/-! ## Timers at rest -/

open HostChannelInner

namespace TimerStateInner

variable {Q : MinHeap TimerEntry TimerEntry.deadline} {W : Waker → Waker → Bool}
  {t t' : TimerStateInner Q} {waker : Waker}

/-- Without a `WakeAt` no timer is in the heap. -/
def Served (t : TimerStateInner Q) : Prop := t.wakeAtState = .idle → Q.peek t.heap = none

/-- The operation of `WakeAt`, if there is one, is with the host, which has not answered it. -/
def WithHost (t : TimerStateInner Q) : Prop :=
  ∀ f, t.wakeFuture? = some f → ∃ id slot, f.state = .submitted id ∧
    t.host.chan.lookup id = some slot ∧ slot.result = none

/-- Nothing is woken or requested, and the heap and the state of `WakeAt` stay. -/
structure Rests (t t' : TimerStateInner Q) : Prop where
  heap : t'.heap = t.heap
  wakeAtState : t'.wakeAtState = t.wakeAtState
  woken : t'.woken = t.woken
  hostWoken : t'.host.chan.woken = t.host.chan.woken
  pendingRequests : t'.host.chan.pendingRequests = t.host.chan.pendingRequests

lemma Rests.refl (t : TimerStateInner Q) : t.Rests t := ⟨rfl, rfl, rfl, rfl, rfl⟩

lemma Rests.trans {t'' : TimerStateInner Q} (h : t.Rests t') (h' : t'.Rests t'') : t.Rests t'' :=
  ⟨h'.heap.trans h.heap, h'.wakeAtState.trans h.wakeAtState, h'.woken.trans h.woken,
    h'.hostWoken.trans h.hostWoken, h'.pendingRequests.trans h.pendingRequests⟩

lemma Served.congr (h : t.Served) (hheap : t'.heap = t.heap)
    (hstate : t'.wakeAtState = t.wakeAtState) : t'.Served := by
  intro hidle
  rw [hheap]
  exact h (hstate.symm.trans hidle)

/-- The last turn of the loop finds no timer, or waits for `WakeAt`. -/
theorem served_process (t : TimerStateInner Q) : (t.process W waker).Served := by
  induction hn : t.turns using Nat.strongRecOn generalizing t with
  | ind n ih =>
    rw [process_turn]
    split_ifs with hmore
    · exact ih _ (hn ▸ turns_turn hmore) _ rfl
    · -- the loop ends with this turn
      cases hstate : t.wakeAtState with
      | idle =>
        rw [turn, hstate] at hmore ⊢
        dsimp only at hmore ⊢
        cases hpeek : Q.peek t.heap with
        | none => exact fun _ => hpeek
        | some entry => simp [hpeek] at hmore
      | pending d i =>
        rw [turn, hstate] at hmore ⊢
        dsimp only at hmore ⊢
        intro hidle
        generalize t.host.pollFuture W i waker = polled at hmore hidle ⊢
        obtain ⟨result, host⟩ := polled
        cases result with
        | ready result => simp at hmore
        | pending => cases hidle

/-- A turn that finds nothing to do. -/
lemma process_of_turn (h : (t.turn W waker).1 = false) :
    t.process W waker = (t.turn W waker).2 := by
  rw [process_turn, if_neg (by simp [h])]

/-- The poll of a `WakeAt` that is with the host leaves it there. -/
lemma WithHost.poll (waker : Waker) {d : TimeNanos} {i : Nat} (h : t.WithHost)
    (hstate : t.wakeAtState = .pending d i) :
    (t.host.pollFuture W i waker).1 = .pending ∧
      t.Rests { t with host := (t.host.pollFuture W i waker).2 } ∧
      WithHost { t with host := (t.host.pollFuture W i waker).2 } := by
  cases hf : t.host.futures[i]? with
  | none =>
    rw [Host.Machine.pollFuture_none (by simp [hf])]
    exact ⟨rfl, .refl t, h⟩
  | some f =>
    cases hdropped : f.dropped with
    | true =>
      rw [Host.Machine.pollFuture_none (by simp [hf, hdropped])]
      exact ⟨rfl, .refl t, h⟩
    | false =>
      obtain ⟨id, slot, hsubmitted, hlookup, hresult⟩ := h f ((wakeFuture?_eq hstate).trans hf)
      have hpoll : t.host.chan.pollResult waker id =
          (.pending, t.host.chan.update id (pollSlot waker)) := by
        rw [pollResult_of_some waker hlookup, hresult]
      rw [Host.Machine.pollFuture_submitted hf hdropped hsubmitted, hpoll]
      have hframe := @update_frame t.host.chan id (pollSlot waker)
      obtain ⟨hpending, _, _, hwoken⟩ := hframe
      refine ⟨rfl, ⟨rfl, rfl, rfl, hwoken, hpending⟩, ?_⟩
      intro f' hf'
      have hlt : i < t.host.futures.length := (List.getElem?_eq_some_iff.mp hf).1
      simp only [wakeFuture?, hstate, WakeAtState.future?, Option.bind_some,
        List.getElem?_set_self hlt] at hf'
      obtain rfl := Option.some.inj hf'
      refine ⟨id, { slot with waker := some waker }, hsubmitted, ?_, hresult⟩
      rw [lookup_update, if_pos rfl, hlookup]
      simp [pollSlot, hresult]

/-- Timers at rest are left at rest. -/
theorem process_rests (hserved : t.Served) (hhost : t.WithHost) :
    t.Rests (t.process W waker) ∧ (t.process W waker).WithHost := by
  cases hstate : t.wakeAtState with
  | idle =>
    have hturn : t.turn W waker = (false, t) := by
      rw [turn, hstate]
      simp [hserved hstate]
    rw [process_of_turn (by rw [hturn]), hturn]
    exact ⟨.refl t, hhost⟩
  | pending d i =>
    obtain ⟨hpending, hrests, hhost'⟩ := hhost.poll (W := W) waker hstate
    have hturn : t.turn W waker =
        (false, { t with host := (t.host.pollFuture W i waker).2 }) := by
      rw [turn, hstate]
      simp [hpending]
    rw [process_of_turn (by rw [hturn]), hturn]
    exact ⟨hrests, hhost'⟩

/-- Calls of the host and takes concern neither the heap nor the state of `WakeAt`. -/
lemma hostStep_frame (t : TimerStateInner Q) (e : Host.Event) :
    (t.hostStep W e).heap = t.heap ∧
      (t.hostStep W e).wakeAtState = t.wakeAtState := by
  simp only [hostStep]
  split_ifs <;> exact ⟨rfl, rfl⟩

end TimerStateInner

end AmlaSandbox.Timer
