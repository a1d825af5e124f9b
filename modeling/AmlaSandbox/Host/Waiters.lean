import AmlaSandbox.Async.Basic
import AmlaSandbox.Host.Machine

/-!
# Waiting for room in the host queue

Futures that find the queue full wait for a wakeup, one of which is made for every request that
leaves the queue. Nobody takes a waker back from the list: a wakeup is lost where it goes to a
waiter that was dropped, or does not wait any more.
-/

namespace AmlaSandbox.Host

open Async Library HostChannelInner

namespace HostChannelInner

/-- How many more requests the queue can take. -/
def room (c : HostChannelInner) : Nat := c.maxPending - c.pendingRequests.length

end HostChannelInner

namespace Machine

variable {willWake : Waker → Waker → Bool} {m m' : Machine} {e : Event} {i : Nat}
  {f g : HostOpFuture} {waker : Waker}

/-- The polls that wait for room in the queue. -/
def waiters (m : Machine) : List Parked := m.futures.filterMap (·.parked)

/-- Those of the other futures. -/
def otherWaiters (m : Machine) (i : Nat) : List Parked :=
  (m.futures.eraseIdx i).filterMap (·.parked)

/-- If the queue has room and futures wait for it, one of them has been woken since. -/
def NoLostSubmitWakeup (m : Machine) : Prop :=
  m.chan.canSubmit = true → m.waiters ≠ [] → ∃ p ∈ m.waiters, p.Woken m.chan.woken

/-- The waker is in the list only if another waiter has it too. -/
def Shared (m : Machine) (i : Nat) (p : Parked) : Prop :=
  p.waker ∈ m.chan.submitWakers → ∃ q ∈ m.otherWaiters i, q.waker = p.waker

instance (m : Machine) (i : Nat) (p : Parked) : Decidable (m.Shared i p) :=
  inferInstanceAs (Decidable (_ → _))

/-- The event keeps the list of wakers that of the waiters. A future that submits or is dropped
while it waits leaves no waker in the list that no other waiter has; if it was woken, it is not
dropped unless the others that were woken are enough for the room. A future that parks again does
so with its old waker or with one not in the list, and `will_wake` finds a waker that is in the
list. -/
def KeepsWaiters (willWake : Waker → Waker → Bool) (m : Machine) : Event → Prop
  | .poll i waker => ∀ f, m.futures[i]? = some f → f.dropped = false →
    (∃ kind, f.state = .pending kind) →
      if m.chan.canSubmit then ∀ p ∈ f.parked, m.Shared i p
      else
        (waker ∈ m.chan.submitWakers → m.chan.submitWakers.any (willWake · waker) = true) ∧
          ∀ p ∈ f.parked, p.waker ≠ waker → m.Shared i p
  | .drop i => ∀ f, m.futures[i]? = some f → ∀ p ∈ f.parked,
    m.Shared i p ∧ (m.chan.submitWakers = [] ∨ p.waker ∈ m.chan.submitWakers ∨
      m.chan.room ≤ unlisted m.chan.submitWakers (m.otherWaiters i))
  | _ => True

/-- The wakers and the waiters of the queue are a wait list, and only futures that were not
submitted and not dropped wait. -/
structure Attended (m : Machine) : Prop where
  waitList : WaitList m.chan.submitWakers m.chan.woken m.chan.room m.waiters
  parked : ∀ f ∈ m.futures, f.parked ≠ none → (∃ kind, f.state = .pending kind) ∧ f.dropped = false
  not_done : ∀ f ∈ m.futures, f.state ≠ .done

lemma Attended.noLostSubmitWakeup (h : m.Attended) : m.NoLostSubmitWakeup := by
  intro hroom hwaiters
  apply h.waitList.exists_woken ?_ hwaiters
  have hlt : m.chan.pendingRequests.length < m.chan.maxPending := by
    simpa [canSubmit] using hroom
  exact Nat.sub_pos_of_lt hlt

/-- The waiters are those of a future and of the others. -/
lemma waiters_perm (hf : m.futures[i]? = some f) :
    m.waiters.Perm (f.parked.toList ++ m.otherWaiters i) := by
  obtain ⟨hlt, rfl⟩ := List.getElem?_eq_some_iff.mp hf
  have hperm :=
    (List.getElem_cons_eraseIdx_perm hlt).symm.filterMap (fun f : HostOpFuture => f.parked)
  rw [waiters, otherWaiters]
  refine hperm.trans ?_
  cases hparked : m.futures[i].parked <;> simp [hparked]

lemma waiters_set (hf : m.futures[i]? = some f) (g : HostOpFuture) :
    ((m.futures.set i g).filterMap (·.parked)).Perm (g.parked.toList ++ m.otherWaiters i) := by
  obtain ⟨hlt, _⟩ := List.getElem?_eq_some_iff.mp hf
  have hperm := waiters_perm (m := { m with futures := m.futures.set i g }) (i := i)
    (List.getElem?_set_self hlt)
  rwa [otherWaiters, List.eraseIdx_set_eq] at hperm

lemma attended_new (maxPending : Nat) : (new maxPending).Attended where
  waitList := WaitList.empty _
  parked _ hf := absurd hf List.not_mem_nil
  not_done _ hf := absurd hf List.not_mem_nil

/-- A future that is put in place of another. -/
lemma Attended.forall_set {P : HostOpFuture → Prop} (h : ∀ f ∈ m.futures, P f) (hg : P g) :
    ∀ f ∈ m.futures.set i g, P f := by
  intro f hf
  rcases List.mem_or_eq_of_mem_set hf with hf | rfl
  · exact h f hf
  · exact hg

/-- A take makes room and wakes the waiters whose turn it is. -/
lemma Attended.take (h : m.Attended) : (m.step willWake .take).Attended := by
  refine ⟨?_, h.parked, h.not_done⟩
  refine takePending_keeps (P := fun c => WaitList c.submitWakers c.woken c.room m.waiters)
    h.waitList ?_ ?_
  · intro c req rest hc hpending
    apply hc.pop.mono
    show c.maxPending - rest.length ≤ c.room + 1
    rw [HostChannelInner.room, hpending, List.length_cons]
    omega
  · intro c id hc
    rw [submitWakers_update, woken_update, HostChannelInner.room, pendingRequests_update,
      maxPending_update]
    exact hc

lemma room_eq_zero {c : HostChannelInner} (h : c.canSubmit = false) : c.room = 0 := by
  have hle : c.maxPending ≤ c.pendingRequests.length := by simpa [canSubmit] using h
  exact Nat.sub_eq_zero_of_le hle

/-- The list after a registration, if `will_wake` is right about the wakers it compares. -/
lemma register_cases {c : HostChannelInner} (hwill : ∀ w w', willWake w w' = true → w = w')
    (hknown : waker ∈ c.submitWakers → c.submitWakers.any (willWake · waker) = true) :
    let c' := c.registerSubmitWaker willWake waker
    c'.submitWakers = c.submitWakers ∧ waker ∈ c.submitWakers ∨
      c'.submitWakers = c.submitWakers ++ [waker] ∧ waker ∉ c.submitWakers := by
  cases hany : c.submitWakers.any (willWake · waker) with
  | true =>
    left
    obtain ⟨w, hw, hwakes⟩ := List.any_eq_true.mp hany
    cases hwill w waker hwakes
    exact ⟨by simp [registerSubmitWaker, hany], hw⟩
  | false =>
    right
    refine ⟨by simp [registerSubmitWaker, hany], fun hmem => ?_⟩
    rw [hknown hmem] at hany
    cases hany

/-- A future that finds no room parks. -/
lemma Attended.full (h : m.Attended) (hwill : ∀ w w', willWake w w' = true → w = w')
    {kind : HostOpKind} (hf : m.futures[i]? = some f) (hdropped : f.dropped = false)
    (hstate : f.state = .pending kind) (hroom : m.chan.canSubmit = false)
    (hok : m.KeepsWaiters willWake (.poll i waker)) :
    (m.pollFuture willWake i waker).2.Attended := by
  have hkeeps := hok f hf hdropped ⟨kind, hstate⟩
  rw [hroom, if_neg Bool.false_ne_true] at hkeeps
  obtain ⟨hknown, hshared⟩ := hkeeps
  rw [pollFuture_full hf hdropped hstate hroom]
  obtain ⟨hpending, hmax, hwoken⟩ := register_frame m.chan willWake waker
  refine ⟨?_, Attended.forall_set h.parked fun _ => ⟨⟨kind, hstate⟩, hdropped⟩,
    Attended.forall_set h.not_done (h.not_done f (List.mem_of_getElem? hf))⟩
  have hlist := (h.waitList.mono (Nat.zero_le _)).perm (waiters_perm hf)
  have hpark := hlist.park (w := waker) (fun p hp hne hmem => hshared p hp hne hmem)
    (register_cases hwill hknown)
  show WaitList (m.chan.registerSubmitWaker willWake waker).submitWakers
    (m.chan.registerSubmitWaker willWake waker).woken
    (m.chan.registerSubmitWaker willWake waker).room _
  have hzero := room_eq_zero hroom
  rw [HostChannelInner.room] at hzero
  rw [hwoken, HostChannelInner.room, hpending, hmax, hzero]
  exact hpark.perm (waiters_set hf { f with parked := some ⟨waker, m.chan.woken.length⟩ }).symm

/-- A waiter that is gone: the others are enough for the room if they were with it, or if it was not
woken or the room is less. -/
lemma Attended.leave (h : m.Attended) {room' : Nat} (hf : m.futures[i]? = some f)
    (hshared : ∀ p, f.parked = some p → m.Shared i p) (hroom : room' ≤ m.chan.room)
    (henough : ∀ p, f.parked = some p → m.chan.submitWakers = [] ∨
      p.waker ∈ m.chan.submitWakers ∨
        room' ≤ unlisted m.chan.submitWakers (m.otherWaiters i)) :
    WaitList m.chan.submitWakers m.chan.woken room' (m.otherWaiters i) := by
  have hlist := h.waitList.perm (waiters_perm hf)
  cases hparked : f.parked with
  | none =>
    rw [hparked] at hlist
    exact hlist.mono hroom
  | some p =>
    rw [hparked] at hlist
    refine WaitList.leave hlist (fun hmem => hshared p hparked hmem) ?_
    rcases henough p hparked with hnil | hmem | hle
    · exact .inl hnil
    · refine hlist.enough.imp_right fun hle => Nat.le_trans hroom ?_
      rwa [Option.toList_some, List.singleton_append, WaitList.unlisted_cons, if_pos hmem] at hle
    · exact .inr hle

/-- A future that no longer waits is put in place of another. -/
lemma Attended.stop (h : m.Attended) (hf : m.futures[i]? = some f)
    (hfutures : m'.futures = m.futures.set i g) (hg : g.parked = none) (hdone : g.state ≠ .done)
    (hlist : WaitList m'.chan.submitWakers m'.chan.woken m'.chan.room (m.otherWaiters i)) :
    m'.Attended := by
  refine ⟨?_, ?_, ?_⟩
  · have hperm := waiters_set hf g
    rw [hg] at hperm
    rw [waiters, hfutures]
    exact hlist.perm hperm.symm
  · rw [hfutures]
    exact Attended.forall_set h.parked fun hparked => absurd hg hparked
  · rw [hfutures]
    exact Attended.forall_set h.not_done hdone

/-- A waiter that submits takes up the room it was woken for. -/
lemma Attended.submit (h : m.Attended) {kind : HostOpKind} (hf : m.futures[i]? = some f)
    (hdropped : f.dropped = false) (hstate : f.state = .pending kind)
    (hroom : m.chan.canSubmit = true) (hok : m.KeepsWaiters willWake (.poll i waker)) :
    (m.pollFuture willWake i waker).2.Attended := by
  have hshared := hok f hf hdropped ⟨kind, hstate⟩
  rw [hroom, if_pos rfl] at hshared
  obtain ⟨hpending, hmax, hwakers, hwoken⟩ := submit_frame m.chan kind
  obtain ⟨hpending', hmax', hwakers', hwoken'⟩ :=
    pollResult_frame (m.chan.submit kind).2 waker (m.chan.submit kind).1
  have henough : ∀ p, f.parked = some p → m.chan.submitWakers = [] ∨
      p.waker ∈ m.chan.submitWakers ∨
        m.chan.room - 1 ≤ unlisted m.chan.submitWakers (m.otherWaiters i) := by
    intro p hp
    have hlist := (h.waitList.perm (waiters_perm hf)).enough
    rw [hp, Option.toList_some, List.singleton_append, WaitList.unlisted_cons] at hlist
    refine hlist.imp_right fun hle => ?_
    by_cases hmem : p.waker ∈ m.chan.submitWakers
    · exact .inl hmem
    · rw [if_neg hmem] at hle
      exact .inr (Nat.sub_le_of_le_add hle)
  rw [pollFuture_room hf hdropped hstate hroom]
  refine h.stop hf rfl rfl HostOpState.noConfusion ?_
  show WaitList (pollResult _ waker _).2.submitWakers (pollResult _ waker _).2.woken
    (pollResult _ waker _).2.room (m.otherWaiters i)
  rw [hwakers', hwakers, hwoken', hwoken, HostChannelInner.room, hpending', hpending,
    hmax', hmax, List.length_append, List.length_singleton, ← Nat.sub_sub]
  exact h.leave hf hshared (Nat.sub_le _ 1) henough

/-- A future that was submitted does not wait, and nothing changes for the others. -/
lemma Attended.submitted (h : m.Attended) {id : HostOpId} (hf : m.futures[i]? = some f)
    (hstate : f.state = .submitted id) (hfutures : m'.futures = m.futures.set i g)
    (hg : g.state = .submitted id) (hparked : g.parked = none)
    (hwakers : m'.chan.submitWakers = m.chan.submitWakers)
    (hwoken : m'.chan.woken = m.chan.woken)
    (hpending : m'.chan.pendingRequests = m.chan.pendingRequests)
    (hmax : m'.chan.maxPending = m.chan.maxPending) : m'.Attended := by
  have hnone : f.parked = none := by
    by_contra hsome
    obtain ⟨⟨kind, hkind⟩, _⟩ := h.parked f (List.mem_of_getElem? hf) hsome
    rw [hstate] at hkind
    cases hkind
  refine h.stop hf hfutures hparked (by rw [hg]; exact HostOpState.noConfusion) ?_
  have hlist := h.waitList.perm (waiters_perm hf)
  rw [hnone] at hlist
  rw [hwakers, hwoken, HostChannelInner.room, hpending, hmax]
  exact hlist

lemma Attended.drop (h : m.Attended) (hok : m.KeepsWaiters willWake (.drop i)) :
    (m.dropFuture i).Attended := by
  rcases future_cases h.not_done i with hnone | ⟨f, hf, hdropped, ⟨kind, hstate⟩ | ⟨id, hstate⟩⟩
  · rw [dropFuture_none hnone]
    exact h
  · rw [dropFuture_pending hf hdropped hstate]
    refine h.stop hf rfl rfl (h.not_done f (List.mem_of_getElem? hf)) ?_
    exact h.leave hf (fun p hp => (hok f hf p hp).1) (Nat.le_refl _) fun p hp => (hok f hf p hp).2
  · rw [dropFuture_submitted hf hdropped hstate]
    exact h.submitted hf hstate rfl hstate rfl submitWakers_update woken_update
      pendingRequests_update maxPending_update

lemma Attended.step (h : m.Attended) (hwill : ∀ w w', willWake w w' = true → w = w')
    (hok : m.KeepsWaiters willWake e) : (m.step willWake e).Attended := by
  cases e with
  | create kind =>
    have hcreate : ∀ {P : HostOpFuture → Prop}, (∀ f ∈ m.futures, P f) →
        P { state := .pending kind } → ∀ f ∈ (m.createFuture kind).futures, P f := by
      intro P hold hnew f hf
      rcases List.mem_append.mp hf with hf | hf
      · exact hold f hf
      · exact List.mem_singleton.mp hf ▸ hnew
    refine ⟨?_, hcreate h.parked fun hparked => absurd rfl hparked,
      hcreate h.not_done HostOpState.noConfusion⟩
    have hwaiters : (m.createFuture kind).waiters = m.waiters := by simp [waiters, createFuture]
    rw [Machine.step, hwaiters]
    exact h.waitList
  | poll i waker =>
    rcases future_cases h.not_done i with hnone | ⟨f, hf, hdropped, ⟨kind, hstate⟩ | ⟨id, hstate⟩⟩
    · rw [Machine.step, pollFuture_none hnone]
      exact h
    · cases hroom : m.chan.canSubmit with
      | false => exact h.full hwill hf hdropped hstate hroom hok
      | true => exact h.submit hf hdropped hstate hroom hok
    · obtain ⟨hpending, hmax, hwakers, hwoken⟩ := pollResult_frame m.chan waker id
      rw [Machine.step, pollFuture_submitted hf hdropped hstate]
      exact h.submitted hf hstate rfl hstate rfl hwakers hwoken hpending hmax
  | drop i => exact h.drop hok
  | take => exact h.take
  | call id c =>
    obtain ⟨wakers, hcall⟩ := call_eq m.chan id c
    refine ⟨?_, h.parked, h.not_done⟩
    show WaitList (m.chan.call id c).submitWakers (m.chan.call id c).woken (m.chan.call id c).room
      m.waiters
    have hwake := h.waitList.wake wakers
    rw [hcall]
    simpa [wakeAll, HostChannelInner.room] using hwake
  | setTask task => exact ⟨h.waitList, h.parked, h.not_done⟩

/-- In every run whose events keep the list of wakers that of the waiters, no wakeup for room in the
queue is lost. `will_wake` is right when it says that two wakers wake the same task. -/
theorem noLostSubmitWakeup_of_keepsWaiters (hwill : ∀ w w', willWake w w' = true → w = w')
    (maxPending : Nat) (m : Machine)
    (h : Reachable willWake (KeepsWaiters willWake) maxPending m) : m.NoLostSubmitWakeup := by
  apply Attended.noLostSubmitWakeup
  refine h.invariant (I := Attended) (attended_new maxPending) ?_
  rintro m e m' hm hok rfl
  exact hm.step hwill hok

/-- A waiter is woken when the request before it is taken. -/
theorem noLostSubmitWakeup_after_take :
    ∃ p ∈ (run Waker.willWake 1 [.create (.print 0 []), .poll 0 7, .create (.print 1 []),
      .poll 1 8, .take]).waiters,
      p.Woken (run Waker.willWake 1 [.create (.print 0 []), .poll 0 7, .create (.print 1 []),
        .poll 1 8, .take]).chan.woken := by
  refine noLostSubmitWakeup_of_keepsWaiters (fun _ _ h => of_decide_eq_true h) 1 _
    (reachable_run Waker.willWake ?_) (by decide) (by decide)
  refine ⟨trivial, ?_, trivial, ?_, trivial, trivial⟩
  · rintro f ⟨⟩ _ _
    decide
  · rintro f ⟨⟩ _ _
    decide

/-- The wakeup goes to a waiter that was dropped, and not to the one after it. -/
theorem lostSubmitWakeup_drop :
    ¬ ∀ maxPending m, Reachable Waker.willWake anyEvent maxPending m → m.NoLostSubmitWakeup := by
  intro h
  have hlost := h 1 _ (reachable_run Waker.willWake (admits_of_forall (fun _ _ => trivial)
    [.create (.print 0 []), .poll 0 7, .create (.print 1 []), .poll 1 8, .create (.print 2 []),
      .poll 2 9, .drop 1, .take]))
  unfold NoLostSubmitWakeup at hlost
  revert hlost
  decide

end Machine

end AmlaSandbox.Host
