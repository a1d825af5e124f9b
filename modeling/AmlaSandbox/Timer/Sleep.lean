import AmlaSandbox.Timer.WakeAt

/-!
# Sleeps

A sleep completes only after a reply of the host with a time at or past its deadline, and the timers
that fire are those that are due. That the host is asked for the next deadline depends on room in
the queue: where there is none when the timers are processed, `WakeAt` waits for the next time.
-/

namespace AmlaSandbox.Timer

open Async Library Host

namespace TimerStateInner

variable {Q : MinHeap TimerEntry TimerEntry.deadline} {t t' : TimerStateInner Q}
  {willWake : Waker → Waker → Bool} {maxPending : Nat} {sleeps : List SleepFuture}
  {s : SleepFuture} {slot : PendingSlot} {result : HostResult} {f : HostOpFuture} {id : HostOpId}
  {d deadline : TimeNanos} {i : Nat} {waker : Waker}

/-- If any sleep is armed, then a `WakeAt` that is not later than the earliest deadline is with the
host. -/
def InTime (t : TimerStateInner Q) (sleeps : List SleepFuture) : Prop :=
  (∃ s ∈ sleeps, t.Armed s) →
    ∃ d, t.WakeAtPending d ∧ ∀ s ∈ sleeps, t.Armed s → d ≤ s.deadline

/-- `WakeAt` has been submitted, and the host has not replied, or with a time at or past the
deadline. -/
def Serves (t : TimerStateInner Q) (deadline : TimeNanos) : Prop :=
  ∃ slot, t.WakeSlot slot ∧
    ∀ result, slot.result = some result → ∃ bytes, result = .ok bytes ∧ deadline ≤ replyTime bytes

/-- The queue of the host has room, or no armed sleep needs it. -/
def HasRoom (t : TimerStateInner Q) (sleeps : List SleepFuture) : Prop :=
  t.host.chan.canSubmit = true ∨ ∀ s ∈ sleeps, t.Armed s → t.Serves s.deadline

lemma Armed.congr (h : t.Armed s) (hslots : t'.slots = t.slots) : t'.Armed s := by
  rwa [Armed, isFired, slot?, hslots]

/-- An armed sleep stands in the heap. -/
lemma Inv.mem_heap (h : t.Inv willWake maxPending sleeps) (hs : s ∈ sleeps) (harmed : t.Armed s) :
    s.entry ∈ Q.toList t.heap := by
  obtain ⟨slot, hslot, _, hwaiting, _⟩ := h.consistent.owned s hs harmed.1
  have hfired := harmed.2
  rw [isFired_eq hslot] at hfired
  exact (hwaiting hfired).1

lemma Inv.inTime_of_pending (h : t.Inv willWake maxPending sleeps) (hpending : t.WakeAtPending d) :
    t.InTime sleeps := by
  intro _
  refine ⟨d, hpending, fun s hs harmed => ?_⟩
  obtain ⟨i, f, id, slot, hstate, _⟩ := hpending
  exact (h.wakeAt d i hstate).2 _ (h.mem_heap hs harmed)

lemma inTime_of_not_armed (h : ∀ s ∈ sleeps, ¬ t.Armed s) : t.InTime sleeps := by
  rintro ⟨s, hs, harmed⟩
  exact absurd harmed (h s hs)

lemma Unsubmitted.inTime_iff (h : t.Unsubmitted) :
    t.InTime sleeps ↔ ∀ s ∈ sleeps, ¬ t.Armed s := by
  refine ⟨fun htime s hs harmed => ?_, inTime_of_not_armed⟩
  obtain ⟨d, hpending, _⟩ := htime ⟨s, hs, harmed⟩
  obtain ⟨slot, hslot⟩ := hpending.wakeSlot
  exact h.not_wakeSlot hslot

/-- `process` ends with a poll of a `WakeAt` that has not been submitted. -/
lemma Inv.process_unsubmitted (h : t.Inv willWake maxPending sleeps) (hfit : t.FitsPoll)
    (hstate : t.wakeAtState = .pending d i) (hf : t.host.futures[i]? = some f)
    (hawaits : t.Awaits d f) (hpending : f.state = .pending (.wakeAt d)) (waker : Waker) :
    (t.process willWake waker).Inv willWake maxPending sleeps ∧ (t.process willWake waker).Settled ∧
      ((t.process willWake waker).InTime sleeps ↔
        t.host.chan.canSubmit = true ∨ ∀ s ∈ sleeps, ¬ t.Armed s) := by
  cases hroom : t.host.chan.canSubmit with
  | true =>
    obtain ⟨t', hturn, hinv, _, hwake⟩ :=
      h.turn_room hfit hstate hf hawaits hpending hroom waker
    rw [process_turn, hturn, if_neg Bool.false_ne_true]
    refine ⟨hinv, ?_, iff_of_true (hinv.inTime_of_pending hwake) (.inl rfl)⟩
    obtain ⟨j, _, _, _, hstate', _⟩ := hwake
    intro hidle
    rw [hstate'] at hidle
    cases hidle
  | false =>
    obtain ⟨t', hturn, hinv, hslots, hstate', hun⟩ :=
      h.turn_full hfit hstate hf hawaits hpending hroom waker
    rw [process_turn, hturn, if_neg Bool.false_ne_true]
    refine ⟨hinv, ?_, ?_⟩
    · intro hidle
      rw [hstate'] at hidle
      cases hidle
    · rw [hun.inTime_iff, or_iff_right Bool.false_ne_true]
      constructor
      · exact fun hnot s hs harmed => hnot s hs (harmed.congr hslots)
      · exact fun hnot s hs harmed => hnot s hs (harmed.congr hslots.symm)

lemma Inv.not_armed (h : t.Inv willWake maxPending sleeps) (hheap : Q.toList t.heap = []) :
    ∀ s ∈ sleeps, ¬ t.Armed s := by
  intro s hs harmed
  have hmem := h.mem_heap hs harmed
  rw [hheap] at hmem
  cases hmem

/-- `process` ends where there is neither a `WakeAt` nor a timer. -/
lemma Inv.process_idle (h : t.Inv willWake maxPending sleeps) (hidle : t.wakeAtState = .idle)
    (hheap : Q.toList t.heap = []) (waker : Waker) :
    (t.process willWake waker).Inv willWake maxPending sleeps ∧ (t.process willWake waker).Settled ∧
      (t.process willWake waker).InTime sleeps := by
  have hturn : t.turn willWake waker = (false, t) := by
    rw [turn, hidle]
    cases hpeek : Q.peek t.heap with
    | none => rfl
    | some e =>
      have hmem := MinHeap.mem_of_peek hpeek
      rw [hheap] at hmem
      cases hmem
  rw [process_turn, hturn, if_neg Bool.false_ne_true]
  exact ⟨h, fun _ => hheap, inTime_of_not_armed (h.not_armed hheap)⟩

/-- After the reply of the host, `process` fires timers and requests the next `WakeAt`. -/
lemma Inv.process_replied (h : t.Inv willWake maxPending sleeps) (hfit : t.FitsPoll)
    (hstate : t.wakeAtState = .pending d i) (hf : t.host.futures[i]? = some f)
    (hawaits : t.Awaits d f) (hid : f.state = .submitted id)
    (hreq : t.host.Requested id (.wakeAt d)) (hlookup : t.host.chan.lookup id = some slot)
    (hresult : slot.result = some result) (waker : Waker) :
    (t.process willWake waker).Inv willWake maxPending sleeps ∧ (t.process willWake waker).Settled ∧
      ((t.process willWake waker).InTime sleeps ↔ t.HasRoom sleeps) := by
  have hfuture := (wakeFuture?_eq hstate).trans hf
  have hslot : t.WakeSlot slot := ⟨f, id, hfuture, hid, hlookup⟩
  obtain ⟨t₁, hturn, hidle, hhost, hconsistent, hchan, harmed⟩ :=
    h.turn_replied hfit hstate hf hawaits hid hreq hlookup hresult waker
  have hserves : (∀ s ∈ sleeps, ¬ t₁.Armed s) ↔
      ∀ s ∈ sleeps, t.Armed s → t.Serves s.deadline := by
    refine forall₂_congr fun s hs => ?_
    rw [harmed s hs, not_and, not_not]
    refine imp_congr_right fun _ => ⟨?_, ?_⟩
    · rintro ⟨bytes, hok, hle⟩
      refine ⟨slot, hslot, fun result' hr => ⟨bytes, ?_, hle⟩⟩
      exact (Option.some.inj (hr.symm.trans hresult)).trans hok
    · rintro ⟨slot', hslot', hreply⟩
      obtain rfl := hslot.unique hslot'
      exact hreply result hresult
  rw [process_turn, hturn, if_pos rfl, HasRoom, ← hserves]
  cases hpeek : Q.peek t₁.heap with
  | none =>
    have hheap := MinHeap.peek_none hpeek
    have hinv : t₁.Inv willWake maxPending sleeps := by
      refine ⟨hhost, hconsistent, fun d' j hstate' => ?_⟩
      rw [hidle] at hstate'
      cases hstate'
    obtain ⟨hinv', hsettled, htime⟩ := hinv.process_idle hidle hheap waker
    exact ⟨hinv', hsettled, iff_of_true htime (.inr (hinv.not_armed hheap))⟩
  | some e =>
    have hturn' : t₁.turn willWake waker = (true, t₁.requestWakeAt e.deadline) := by
      rw [turn, hidle]
      simp only [hpeek]
    obtain ⟨hinv, hnew⟩ := Inv.requestWakeAt hhost hconsistent
      (fun e' he' => MinHeap.peek_le hpeek he') fun d' j hstate' => by
        rw [hidle] at hstate'
        cases hstate'
    have hchan' : (t₁.requestWakeAt e.deadline).host.chan = t.host.chan.freeSlot id := by
      rw [host_requestWakeAt_idle hidle]
      exact hchan
    have hfit' : (t₁.requestWakeAt e.deadline).FitsPoll := by
      intro f' hf'
      have hnew' := (wakeFuture?_eq (t := t₁.requestWakeAt e.deadline) rfl).trans hnew
      obtain rfl := Option.some.inj (hnew'.symm.trans hf')
      refine ⟨fun _ _ _ => ?_, fun _ _ hid' => by cases hid'⟩
      rw [hchan']
      refine fits_freeSlot hlookup ((hfit f hfuture).2 id slot hid hlookup ?_)
      rw [hresult]
      exact Option.some_ne_none result
    have hroom : (t₁.requestWakeAt e.deadline).host.chan.canSubmit = t.host.chan.canSubmit := by
      rw [hchan', HostChannelInner.freeSlot_eq hlookup]
      rfl
    rw [process_turn, hturn', if_pos rfl, ← hroom]
    exact hinv.process_unsubmitted hfit' rfl hnew ⟨rfl, rfl, .inl rfl⟩ rfl waker

/-- `process` keeps the invariant. It leaves a `WakeAt` in time with the host exactly if the queue
has room or no armed sleep needs it. -/
theorem Inv.process (h : t.Inv willWake maxPending sleeps) (hsettled : t.Settled)
    (hfit : t.FitsPoll) (waker : Waker) :
    (t.process willWake waker).Inv willWake maxPending sleeps ∧ (t.process willWake waker).Settled ∧
      ((t.process willWake waker).InTime sleeps ↔ t.HasRoom sleeps) := by
  cases hstate : t.wakeAtState with
  | idle =>
    have hheap := hsettled hstate
    obtain ⟨hinv, hsettled', htime⟩ := h.process_idle hstate hheap waker
    refine ⟨hinv, hsettled', iff_of_true htime (.inr fun s hs harmed => ?_)⟩
    exact absurd harmed (h.not_armed hheap s hs)
  | pending d i =>
    obtain ⟨f, hf, hawaits, hpending | ⟨id, slot, hid, hreq, hlookup, hcancelled⟩⟩ :=
      h.future_cases hstate
    · obtain ⟨hinv, hsettled', htime⟩ :=
        h.process_unsubmitted hfit hstate hf hawaits hpending waker
      refine ⟨hinv, hsettled', htime.trans (or_congr_right ?_)⟩
      have hun : t.Unsubmitted := ⟨f, _, (wakeFuture?_eq hstate).trans hf, hpending⟩
      refine forall₃_congr fun s hs harmed => iff_of_false id fun hserves => ?_
      obtain ⟨slot, hslot, _⟩ := hserves
      exact hun.not_wakeSlot hslot
    · cases hresult : slot.result with
      | none =>
        obtain ⟨t', hturn, hinv, _, hwake⟩ :=
          h.turn_waiting hfit hstate hf hawaits hid hreq hlookup hcancelled hresult waker
        rw [process_turn, hturn, if_neg Bool.false_ne_true]
        refine ⟨hinv, ?_, iff_of_true (hinv.inTime_of_pending hwake) (.inr ?_)⟩
        · obtain ⟨j, _, _, _, hstate', _⟩ := hwake
          intro hidle
          rw [hstate'] at hidle
          cases hidle
        · intro s _ _
          refine ⟨slot, ⟨f, id, (wakeFuture?_eq hstate).trans hf, hid, hlookup⟩, fun r hr => ?_⟩
          rw [hresult] at hr
          cases hr
      | some result =>
        exact h.process_replied hfit hstate hf hawaits hid hreq hlookup hresult waker

/-! ### Registration, polls and drops -/

/-- The table changes, but neither the heap nor `WakeAt`. -/
lemma Inv.table {sleeps' : List SleepFuture} (h : t.Inv willWake maxPending sleeps)
    (hconsistent : t'.Consistent t.Replied sleeps') (hheap : t'.heap = t.heap)
    (hstate : t'.wakeAtState = t.wakeAtState) (hhost : t'.host = t.host) :
    t'.Inv willWake maxPending sleeps' := by
  obtain ⟨heap, slots, freeSlots, wakeAtState, host, woken⟩ := t
  obtain ⟨heap', slots', freeSlots', wakeAtState', host', woken'⟩ := t'
  obtain rfl : heap' = heap := hheap
  obtain rfl : wakeAtState' = wakeAtState := hstate
  obtain rfl : host' = host := hhost
  refine ⟨h.host, hconsistent, fun d i hstate => ?_⟩
  obtain ⟨⟨f, hf, hawaits⟩, hle⟩ := h.wakeAt d i hstate
  exact ⟨⟨f, hf, hawaits.dropped, hawaits.resolved, hawaits.state⟩, hle⟩

lemma modifySlot_frame (t : TimerStateInner Q) (id : Nat) (f : TimerSlot → TimerSlot) :
    (t.modifySlot id f).heap = t.heap ∧ (t.modifySlot id f).wakeAtState = t.wakeAtState ∧
      (t.modifySlot id f).host = t.host := by
  rw [modifySlot]
  split <;> exact ⟨rfl, rfl, rfl⟩

lemma cleanup_frame (t : TimerStateInner Q) (id : Nat) :
    (t.cleanup id).heap = t.heap ∧ (t.cleanup id).wakeAtState = t.wakeAtState ∧
      (t.cleanup id).host = t.host := by
  rw [cleanup]
  split_ifs <;> exact ⟨rfl, rfl, rfl⟩

lemma enter_frame (t : TimerStateInner Q) (deadline : TimeNanos) :
    (t.enter deadline).2.wakeAtState = t.wakeAtState ∧ (t.enter deadline).2.host = t.host ∧
      ∀ e ∈ Q.toList (t.enter deadline).2.heap, e.deadline = deadline ∨ e ∈ Q.toList t.heap := by
  have halloc : t.allocateSlot.2.wakeAtState = t.wakeAtState ∧ t.allocateSlot.2.host = t.host ∧
      t.allocateSlot.2.heap = t.heap := by
    rw [allocateSlot]
    split <;> exact ⟨rfl, rfl, rfl⟩
  refine ⟨halloc.1, halloc.2.1, fun e he => ?_⟩
  have hpush : (t.enter deadline).2.heap =
      Q.push ⟨deadline, t.allocateSlot.1⟩ t.allocateSlot.2.heap := rfl
  rw [hpush, MinHeap.mem_push, halloc.2.2] at he
  rcases he with rfl | he
  · exact .inl rfl
  · exact .inr he

/-- A new timer replaces `WakeAt` if it is earlier. -/
lemma Inv.register (h : t.Inv willWake maxPending sleeps) (hsettled : t.Settled)
    (deadline : TimeNanos) :
    (t.register deadline).2.Inv willWake maxPending
        (sleeps ++ [{ deadline, id := (t.register deadline).1 }]) ∧
      (t.register deadline).2.Settled := by
  obtain ⟨hstate, hhost, hheap⟩ := t.enter_frame deadline
  have hconsistent := h.consistent.enter deadline
  rw [TimerStateInner.register]
  dsimp only
  generalize t.enter deadline = entered at *
  obtain ⟨id, t'⟩ := entered
  dsimp only at *
  have hconsistent' : t'.Consistent t'.Replied (sleeps ++ [{ deadline, id := id }]) := by
    refine hconsistent.mono fun d hd => hd.keep ?_
    rw [hhost]
    exact .refl
  split_ifs with hneed
  · have hle : ∀ e ∈ Q.toList t'.heap, deadline ≤ e.deadline := by
      intro e he
      rcases hheap e he with heq | he
      · exact UInt64.le_of_eq heq.symm
      · cases hstate' : t.wakeAtState with
        | idle =>
          rw [hsettled hstate'] at he
          cases he
        | pending d i =>
          rw [needNewWakeAt, hstate, hstate'] at hneed
          exact UInt64.le_of_lt
            (UInt64.lt_of_lt_of_le (of_decide_eq_true hneed) ((h.wakeAt d i hstate').2 e he))
    have hold : ∀ d i, t'.wakeAtState = .pending d i → i < t'.host.futures.length := by
      intro d i hstate'
      rw [hstate] at hstate'
      obtain ⟨⟨f, hf, _⟩, _⟩ := h.wakeAt d i hstate'
      rw [hhost]
      exact (List.getElem?_eq_some_iff.mp hf).1
    refine ⟨(Inv.requestWakeAt (hhost ▸ h.host) hconsistent' hle hold).1, fun hidle => ?_⟩
    cases hidle
  · refine ⟨⟨hhost ▸ h.host, hconsistent', ?_⟩, ?_⟩
    · intro d i hstate'
      rw [hstate] at hstate'
      obtain ⟨⟨f, hf, hawaits⟩, hle⟩ := h.wakeAt d i hstate'
      refine ⟨⟨f, hhost ▸ hf, hawaits.keep ?_⟩, fun e he => ?_⟩
      · rw [hhost]
        exact .refl
      · rcases hheap e he with heq | he
        · rw [needNewWakeAt, hstate, hstate'] at hneed
          rw [heq]
          exact UInt64.not_lt.mp fun hlt => hneed (decide_eq_true hlt)
        · exact hle e he
    · intro hidle
      rw [needNewWakeAt, hidle] at hneed
      exact absurd rfl hneed

/-- An event of the host that does not concern `WakeAt`. -/
lemma Inv.hostStep {e : Host.Event} (h : t.Inv willWake maxPending sleeps)
    (hfit : ¬ t.Concerns e → t.host.Fitting e) :
    (t.hostStep willWake e).Inv willWake maxPending sleeps := by
  rw [TimerStateInner.hostStep]
  split_ifs with hconcerns
  · exact h
  · obtain ⟨hhost, hkeeps⟩ := host_step h.host e (hfit hconcerns)
    refine ⟨hhost, (h.consistent.mono fun d hd => hd.keep hkeeps).congr rfl rfl rfl, ?_⟩
    intro d i hstate
    obtain ⟨⟨f, hf, hawaits⟩, hle⟩ := h.wakeAt d i hstate
    have hfuture : t.wakeAtState.future? = some i := by
      rw [hstate]
      rfl
    refine ⟨⟨f, Host.Machine.getElem?_step hf ?_ ?_, hawaits.keep hkeeps⟩, hle⟩
    · rintro waker rfl
      exact hconcerns hfuture
    · rintro rfl
      exact hconcerns hfuture

end TimerStateInner

/-! ### Runs -/

namespace Machine

variable {Q : MinHeap TimerEntry TimerEntry.deadline} {willWake : Waker → Waker → Bool}
  {maxPending : Nat} {m : Machine Q} {e : Event}

/-- Polls that submit a host operation find a slot for it and a generation that the slot did not
have before. -/
def Fitting (m : Machine Q) : Event → Prop
  | .host e => ¬ m.timers.Concerns e → m.timers.host.Fitting e
  | .process _ => m.timers.FitsPoll
  | _ => True

/-- A sleep that has completed was preceded by a reply to a `WakeAt`, which the host passed under
the id of the request, with a time at or past its deadline. -/
def CompletesInTime (m : Machine Q) : Prop :=
  ∀ s ∈ m.sleeps, s.registered = false → ∃ f ∈ m.timers.host.futures, ∃ id d bytes,
    f.state = .submitted id ∧ m.timers.host.Requested id (.wakeAt d) ∧
      f.resolved = some (.ok bytes) ∧ PassedBytes (m.timers.host.callsUnder id f.since) bytes ∧
      s.deadline ≤ replyTime bytes

/-- `fire_expired` fires the timers of the live sleeps whose deadlines have passed and that have not
fired, and no others, and wakes the wakers of these sleeps, each once. -/
def FiresExactly (m : Machine Q) : Prop :=
  ∀ now,
    (∀ id, (m.timers.fireExpired now).isFired id = true ↔ m.timers.isFired id = true ∨
      ∃ s ∈ m.sleeps, m.timers.Armed s ∧ s.deadline ≤ now ∧ s.id = id) ∧
    (∀ s ∈ m.sleeps, s.Live → ((m.timers.fireExpired now).isFired s.id = true ↔
      m.timers.isFired s.id = true ∨ s.deadline ≤ now)) ∧
    ∃ wakers, (m.timers.fireExpired now).woken = m.timers.woken ++ wakers ∧
      wakers.Perm ((m.sleeps.filter fun s => m.timers.Armed s ∧ s.deadline ≤ now).filterMap
        SleepFuture.waker)

/-- Once the timers are processed, a `WakeAt` in time is with the host. -/
def WakesInTime (m : Machine Q) : Prop := m.timers.InTime m.sleeps

/-- The queue of the host has room, or no armed sleep needs it. -/
def HasRoom (m : Machine Q) : Prop := m.timers.HasRoom m.sleeps

structure Inv (willWake : Waker → Waker → Bool) (maxPending : Nat) (m : Machine Q) : Prop where
  timers : m.timers.Inv willWake maxPending m.sleeps
  settled : m.timers.Settled

lemma inv_new (maxPending : Nat) : (new maxPending : Machine Q).Inv willWake maxPending where
  timers := by
    refine ⟨.refl, ⟨?_, List.nodup_nil, ?_, ?_, ?_, ?_, ?_⟩, fun d i hstate => by cases hstate⟩
    · show ((Q.toList Q.empty).map TimerEntry.id).Nodup
      rw [Q.toList_empty]
      exact List.nodup_nil
    · exact fun id hid => absurd hid List.not_mem_nil
    · intro e he
      have hmem : e ∈ Q.toList Q.empty := he
      rw [Q.toList_empty] at hmem
      cases hmem
    · exact fun s hs => absurd hs List.not_mem_nil
    · intro i j s s' hs
      cases hs
    · exact fun s hs => absurd hs List.not_mem_nil
  settled _ := Q.toList_empty

lemma Inv.step (h : m.Inv willWake maxPending) (hfit : m.Fitting e) :
    (m.step willWake e).Inv willWake maxPending := by
  obtain ⟨htimers, hsettled⟩ := h
  have changed : ∀ {t : TimerStateInner Q} {sleeps : List SleepFuture},
      t.heap = m.timers.heap ∧ t.wakeAtState = m.timers.wakeAtState ∧ t.host = m.timers.host →
        t.Consistent m.timers.Replied sleeps → Inv willWake maxPending ⟨t, sleeps⟩ := by
    rintro t sleeps ⟨hheap, hstate, hhost⟩ hconsistent
    refine ⟨htimers.table hconsistent hheap hstate hhost, fun hidle => ?_⟩
    show Q.toList t.heap = []
    rw [hheap]
    exact hsettled (hstate ▸ hidle)
  cases e with
  | host e =>
    refine ⟨htimers.hostStep hfit, ?_⟩
    show (m.timers.hostStep willWake e).Settled
    rw [TimerStateInner.hostStep]
    split_ifs
    · exact hsettled
    · exact hsettled
  | sleepUntil deadline =>
    obtain ⟨htimers', hsettled'⟩ := htimers.register hsettled deadline
    exact ⟨htimers', hsettled'⟩
  | poll i waker =>
    rw [Machine.step, pollSleep]
    split
    · exact ⟨htimers, hsettled⟩
    · next s hi =>
      split_ifs with hlive hfired
      · exact changed (m.timers.cleanup_frame s.id) (htimers.consistent.cleanup hi hlive hfired)
      · exact changed (m.timers.modifySlot_frame s.id _) (htimers.consistent.registerWaker hi hlive)
      · exact ⟨htimers, hsettled⟩
  | drop i =>
    rw [Machine.step, dropSleep]
    split
    · exact ⟨htimers, hsettled⟩
    · next s hi =>
      split_ifs with hlive
      · exact changed (m.timers.modifySlot_frame s.id _) (htimers.consistent.cancel hi hlive)
      · exact changed ⟨rfl, rfl, rfl⟩ (htimers.consistent.drop_dead hi hlive)
  | process waker =>
    obtain ⟨htimers', hsettled', _⟩ := htimers.process hsettled hfit waker
    exact ⟨htimers', hsettled'⟩

lemma inv_of_reachable (h : Reachable willWake Fitting maxPending m) :
    m.Inv willWake maxPending := by
  refine h.invariant (I := Inv willWake maxPending) (inv_new maxPending) ?_
  rintro m e m' hm hfit rfl
  exact hm.step hfit

lemma Inv.completesInTime (h : m.Inv willWake maxPending) : m.CompletesInTime := by
  intro s hs hdone
  obtain ⟨d, bytes, ⟨f, hf, id, hid, hreq, hresolved⟩, hle⟩ :=
    h.timers.consistent.completed s hs hdone
  have howned := Host.Machine.owned_of_reachable h.timers.host f hf id hid
  exact ⟨f, hf, id, d, bytes, hid, hreq, hresolved, howned.resolved _ hresolved, hle⟩

lemma Inv.firesExactly (h : m.Inv willWake maxPending) : m.FiresExactly := by
  intro now
  have hconsistent : m.timers.Consistent (fun _ => True) m.sleeps :=
    h.timers.consistent.mono fun _ _ => trivial
  obtain ⟨_, harmed, due, hfires, hdue, hwoken⟩ :=
    hconsistent.fireExpired now fun _ _ => trivial
  have hmem : ∀ s, s ∈ due ↔ s ∈ m.sleeps ∧ m.timers.Armed s ∧ s.deadline ≤ now := by
    intro s
    rw [hdue.mem_iff, List.mem_filter, TimerStateInner.mem_armed, decide_eq_true_iff, and_assoc]
  refine ⟨fun id => ?_, fun s hs hlive => ?_, due.filterMap SleepFuture.waker, hwoken, ?_⟩
  · rw [hfires.isFired]
    simp only [hmem, and_assoc]
  · have hs' := harmed s hs
    rw [TimerStateInner.Armed, TimerStateInner.Armed, and_iff_right hlive, and_iff_right hlive,
      ← Bool.not_eq_true, ← Bool.not_eq_true] at hs'
    rw [← not_iff_not, hs', not_or, UInt64.not_le]
  · refine (hdue.trans (List.Perm.of_eq ?_)).filterMap _
    rw [TimerStateInner.armed, List.filter_filter]
    simp only [Bool.decide_and, Bool.and_comm]

/-- In every run in which no id of a host operation comes twice, sleeps complete in time and timers
fire exactly when they are due; once the timers are processed, a `WakeAt` in time is with the host
exactly if the queue had room for it or none was needed. -/
theorem sleeps_iff_hasRoom (maxPending : Nat) (m : Machine Q)
    (h : Reachable willWake Fitting maxPending m) :
    m.CompletesInTime ∧ m.FiresExactly ∧ ∀ waker, m.Fitting (.process waker) →
      ((m.process willWake waker).WakesInTime ↔ m.HasRoom) := by
  have hinv := inv_of_reachable h
  refine ⟨hinv.completesInTime, hinv.firesExactly, fun waker hfit => ?_⟩
  exact (hinv.timers.process hinv.settled hfit waker).2.2

/-- A sleep whose `WakeAt` is answered in time. -/
def oneSleep : List Event :=
  [.sleepUntil 100, .poll 0 7, .process 0, .host .take,
    .host (.call (.encode 1 0) (.complete (.ok [100, 0, 0, 0, 0, 0, 0, 0]))), .process 0, .poll 0 7]

abbrev listHeap : MinHeap TimerEntry TimerEntry.deadline := .ofList TimerEntry.deadline

/-- The sleep has completed after a reply with its deadline. -/
theorem sleeps_oneSleep :
    (run Waker.willWake 1 oneSleep : Machine listHeap).sleeps.map (·.registered) = [false] ∧
      (run Waker.willWake 1 oneSleep : Machine listHeap).CompletesInTime := by
  refine ⟨by decide, (sleeps_iff_hasRoom 1 _ (reachable_run Waker.willWake ?_)).1⟩
  refine ⟨trivial, trivial, ?_, fun _ => trivial, fun _ => trivial, ?_, trivial, trivial⟩
  · intro f hf
    obtain rfl : { state := .pending (.wakeAt 100) } = f := Option.some.inj hf
    refine ⟨fun _ _ _ => HostChannelInner.fits_of_no_free (by decide) (by decide), ?_⟩
    rintro id slot ⟨⟩
  · intro f hf
    obtain rfl : { state := .submitted (.encode 1 0) } = f := Option.some.inj hf
    constructor
    · rintro kind ⟨⟩
    · rintro id slot ⟨⟩ _ _
      decide

/-- A sleep that starts when another operation fills the queue. -/
def fullQueue : List Event :=
  [.host (.create (.print 1 [104])), .host (.poll 0 7), .sleepUntil 100]

/-- With a full queue, the host is not asked to wake the sleep. -/
theorem not_wakesInTime_full :
    ¬ ∀ maxPending (m : Machine listHeap), Reachable Waker.willWake Fitting maxPending m →
      m.CompletesInTime ∧ m.FiresExactly ∧ ∀ waker, m.Fitting (.process waker) →
        (m.process Waker.willWake waker).WakesInTime := by
  intro h
  have hreach : Reachable Waker.willWake Fitting 1
      (run Waker.willWake 1 fullQueue : Machine listHeap) := by
    apply reachable_run
    refine ⟨fun _ => trivial, fun _ => ?_, trivial, trivial⟩
    exact fun _ _ _ _ _ _ => HostChannelInner.fits_of_no_free (by decide) (by decide)
  have hfit : (run Waker.willWake 1 fullQueue : Machine listHeap).Fitting (.process 0) := by
    intro f hf
    obtain rfl : { state := .pending (.wakeAt 100) } = f := Option.some.inj hf
    refine ⟨fun _ _ hroom => absurd hroom (by decide), ?_⟩
    rintro id slot ⟨⟩
  have hinv := inv_of_reachable hreach
  have htime := (hinv.timers.process hinv.settled hfit 0).2.2.mp ((h 1 _ hreach).2.2 0 hfit)
  rcases htime with hroom | hserves
  · exact absurd hroom (by decide)
  · obtain ⟨slot, hslot, _⟩ := hserves ⟨100, 0, true, false, none⟩ (by decide) (by decide)
    have hun : (run Waker.willWake 1 fullQueue : Machine listHeap).timers.Unsubmitted :=
      ⟨_, _, rfl, rfl⟩
    exact hun.not_wakeSlot hslot

end Machine

end AmlaSandbox.Timer
