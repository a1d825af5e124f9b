import AmlaSandbox.Host.Operation

/-!
# Requests and replies in the course of a run

What was requested stays requested, and an operation that has resolved keeps its result.
-/

namespace AmlaSandbox.Host.Machine

open Async Library HostChannelInner

variable {willWake : Waker → Waker → Bool} {m m' m'' : Machine} {e : Event} {i j : Nat}
  {f g : HostOpFuture} {id : HostOpId} {kind : HostOpKind} {waker : Waker} {result : HostResult}

/-- A request of the kind went into the queue under the id. -/
def Requested (m : Machine) (id : HostOpId) (kind : HostOpKind) : Prop :=
  ∃ s ∈ m.submitted, s.request.id = id ∧ s.request.kind = kind

/-- The operation of a request has resolved. -/
def Replied (m : Machine) (kind : HostOpKind) (result : HostResult) : Prop :=
  ∃ f ∈ m.futures, ∃ id, f.state = .submitted id ∧ m.Requested id kind ∧ f.resolved = some result

/-- What was requested and what has resolved is kept. -/
structure Keeps (m m' : Machine) : Prop where
  requests : ∀ s ∈ m.submitted, ∃ s' ∈ m'.submitted, s'.request = s.request
  results : ∀ f ∈ m.futures, ∀ id result, f.state = .submitted id → f.resolved = some result →
    ∃ f' ∈ m'.futures, f'.state = .submitted id ∧ f'.resolved = some result

lemma Keeps.refl : m.Keeps m where
  requests s hs := ⟨s, hs, rfl⟩
  results f hf _ _ hstate hresolved := ⟨f, hf, hstate, hresolved⟩

lemma Keeps.trans (h : m.Keeps m') (h' : m'.Keeps m'') : m.Keeps m'' where
  requests s hs := by
    obtain ⟨s', hs', heq⟩ := h.requests s hs
    obtain ⟨s'', hs'', heq'⟩ := h'.requests s' hs'
    exact ⟨s'', hs'', heq'.trans heq⟩
  results f hf id result hstate hresolved := by
    obtain ⟨f', hf', hstate', hresolved'⟩ := h.results f hf id result hstate hresolved
    exact h'.results f' hf' id result hstate' hresolved'

lemma Keeps.requested (h : m.Keeps m') (hreq : m.Requested id kind) : m'.Requested id kind := by
  obtain ⟨s, hs, hid, hkind⟩ := hreq
  obtain ⟨s', hs', heq⟩ := h.requests s hs
  exact ⟨s', hs', heq ▸ hid, heq ▸ hkind⟩

lemma Keeps.replied (h : m.Keeps m') (hrep : m.Replied kind result) : m'.Replied kind result := by
  obtain ⟨f, hf, id, hstate, hreq, hresolved⟩ := hrep
  obtain ⟨f', hf', hstate', hresolved'⟩ := h.results f hf id result hstate hresolved
  exact ⟨f', hf', id, hstate', h.requested hreq, hresolved'⟩

/-- A future that is put in place of another does not lose its result. -/
lemma results_set (hf : m.futures[i]? = some f) (hfutures : m'.futures = m.futures.set i g)
    (hkeep : ∀ id result, f.state = .submitted id → f.resolved = some result →
      g.state = .submitted id ∧ g.resolved = some result) :
    ∀ f ∈ m.futures, ∀ id result, f.state = .submitted id → f.resolved = some result →
      ∃ f' ∈ m'.futures, f'.state = .submitted id ∧ f'.resolved = some result := by
  intro f' hf' id result hstate hresolved
  obtain ⟨j, hj⟩ := List.getElem?_of_mem hf'
  obtain ⟨hlt, _⟩ := List.getElem?_eq_some_iff.mp hf
  by_cases hij : i = j
  · subst hij
    obtain rfl := Option.some.inj (hf.symm.trans hj)
    refine ⟨g, ?_, hkeep id result hstate hresolved⟩
    rw [hfutures]
    exact List.mem_of_getElem? (List.getElem?_set_self hlt)
  · refine ⟨f', ?_, hstate, hresolved⟩
    rw [hfutures]
    exact List.mem_of_getElem? ((List.getElem?_set_ne hij).trans hj)

lemma requests_modify (n : Nat) : ∀ s ∈ m.submitted,
    ∃ s' ∈ m.submitted.modify n .withdraw, s'.request = s.request := by
  intro s hs
  obtain ⟨k, hk⟩ := List.getElem?_of_mem hs
  by_cases hn : n = k
  · refine ⟨s.withdraw, List.mem_of_getElem? (i := k) ?_, rfl⟩
    rw [List.getElem?_modify, hk, Option.map_eq_map, Option.map_some, if_pos hn]
  · refine ⟨s, List.mem_of_getElem? (i := k) ?_, rfl⟩
    rw [List.getElem?_modify, hk, Option.map_eq_map, Option.map_some, if_neg hn]

lemma step_keeps (h : m.Inv) (e : Event) : m.Keeps (m.step willWake e) := by
  cases e with
  | create kind =>
    refine ⟨fun s hs => ⟨s, hs, rfl⟩, fun f hf id result hstate hresolved => ?_⟩
    exact ⟨f, List.mem_append_left _ hf, hstate, hresolved⟩
  | poll i waker =>
    rw [step]
    rcases h.future_cases i with
      hnone | ⟨f, hf, hdropped, ⟨kind, hstate, hresolved⟩ | ⟨id, hstate⟩⟩
    · rw [pollFuture_none hnone]
      exact .refl
    · cases hroom : m.chan.canSubmit with
      | false =>
        rw [pollFuture_full hf hdropped hstate hroom]
        exact ⟨fun s hs => ⟨s, hs, rfl⟩, results_set hf rfl fun _ _ hid hres => ⟨hid, hres⟩⟩
      | true =>
        rw [pollFuture_room hf hdropped hstate hroom]
        refine ⟨fun s hs => ⟨s, List.mem_append_left _ hs, rfl⟩, results_set hf rfl ?_⟩
        intro id result hid
        rw [hstate] at hid
        cases hid
    · rw [pollFuture_submitted hf hdropped hstate]
      refine ⟨fun s hs => ⟨s, hs, rfl⟩, results_set hf rfl fun _ _ hid hres => ⟨hid, ?_⟩⟩
      simp [hres]
  | drop i =>
    rw [step]
    rcases h.future_cases i with hnone | ⟨f, hf, hdropped, ⟨kind, hstate, _⟩ | ⟨id, hstate⟩⟩
    · rw [dropFuture_none hnone]
      exact .refl
    · rw [dropFuture_pending hf hdropped hstate]
      exact ⟨fun s hs => ⟨s, hs, rfl⟩, results_set hf rfl fun _ _ hid hres => ⟨hid, hres⟩⟩
    · rw [dropFuture_submitted hf hdropped hstate]
      refine ⟨?_, results_set hf rfl fun _ _ hid hres => ⟨hid, hres⟩⟩
      dsimp only
      split_ifs
      · exact requests_modify f.ticket
      · exact fun s hs => ⟨s, hs, rfl⟩
  | take | call | setTask =>
    exact ⟨fun s hs => ⟨s, hs, rfl⟩, fun f hf _ _ hstate hresolved => ⟨f, hf, hstate, hresolved⟩⟩

/-! ### Futures that others hold -/

lemma getElem?_pollFuture (hne : i ≠ j) :
    (m.pollFuture willWake j waker).2.futures[i]? = m.futures[i]? := by
  rw [pollFuture]
  split
  · rfl
  · split_ifs
    · rfl
    · exact List.getElem?_set_ne (Ne.symm hne)

lemma getElem?_dropFuture (hne : i ≠ j) : (m.dropFuture j).futures[i]? = m.futures[i]? := by
  rw [dropFuture]
  split
  · rfl
  · split_ifs
    · rfl
    all_goals exact List.getElem?_set_ne (Ne.symm hne)

/-- Only its own polls and its drop change a future. -/
lemma getElem?_step (hf : m.futures[i]? = some f) (hpoll : ∀ waker, e ≠ .poll i waker)
    (hdrop : e ≠ .drop i) : (m.step willWake e).futures[i]? = some f := by
  cases e with
  | create kind =>
    obtain ⟨hlt, _⟩ := List.getElem?_eq_some_iff.mp hf
    exact (List.getElem?_append_left hlt).trans hf
  | poll j waker =>
    have hne : i ≠ j := fun hij => hpoll waker (hij ▸ rfl)
    exact (getElem?_pollFuture hne).trans hf
  | drop j =>
    have hne : i ≠ j := fun hij => hdrop (hij ▸ rfl)
    exact (getElem?_dropFuture hne).trans hf
  | take | call | setTask => exact hf

/-! ### Room in the queue -/

/-- The room in the queue. -/
def room (m : Machine) : Nat := m.chan.maxPending - m.chan.pendingRequests.length

lemma room_of_frame {m m' : Machine}
    (hpending : m'.chan.pendingRequests = m.chan.pendingRequests)
    (hmax : m'.chan.maxPending = m.chan.maxPending) : m'.room = m.room := by
  rw [room, room, hpending, hmax]

lemma room_dropFuture (m : Machine) (i : Nat) : (m.dropFuture i).room = m.room := by
  rw [dropFuture]
  split
  · rfl
  · next f _ =>
    split_ifs
    · rfl
    all_goals
      cases hstate : f.state with
      | submitted id =>
        exact room_of_frame (by simp [HostChannelInner.dropFuture, cancel_eq])
          (by simp [HostChannelInner.dropFuture, cancel_eq])
      | pending | done => rfl

/-- A poll that hands out a result leaves the queue as it is, or has submitted the operation. -/
lemma room_pollFuture (h : (m.pollFuture willWake i waker).1 = .ready result) :
    ∃ f, m.futures[i]? = some f ∧
      (((∃ kind, f.state = .pending kind) ∧
        (m.pollFuture willWake i waker).2.room + 1 = m.room) ∨
      ((∀ kind, f.state ≠ .pending kind) ∧ (m.pollFuture willWake i waker).2.room = m.room)) := by
  cases hf : m.futures[i]? with
  | none =>
    rw [pollFuture, hf] at h
    cases h
  | some f =>
    refine ⟨f, rfl, ?_⟩
    cases hdropped : f.dropped with
    | true =>
      simp only [pollFuture, hf, hdropped, if_true] at h
      cases h
    | false =>
      cases hstate : f.state with
      | pending kind =>
        left
        cases hroom : m.chan.canSubmit with
        | false =>
          rw [pollFuture_full hf hdropped hstate hroom] at h
          cases h
        | true =>
          refine ⟨⟨kind, rfl⟩, ?_⟩
          obtain ⟨hpending, hmax, _⟩ := submit_frame m.chan kind
          obtain ⟨hpending', hmax', _⟩ := pollResult_frame (m.chan.submit kind).2 waker
            (m.chan.submit kind).1
          have hlt : m.chan.pendingRequests.length < m.chan.maxPending := of_decide_eq_true hroom
          rw [pollFuture_room hf hdropped hstate hroom]
          simp only [room]
          rw [hpending', hpending, hmax', hmax, List.length_append, List.length_singleton]
          omega
      | submitted id =>
        right
        refine ⟨fun kind hkind => HostOpState.noConfusion hkind, ?_⟩
        obtain ⟨hpending, hmax, _⟩ := pollResult_frame m.chan waker id
        rw [pollFuture_submitted hf hdropped hstate]
        exact room_of_frame hpending hmax
      | done =>
        right
        refine ⟨fun kind hkind => HostOpState.noConfusion hkind, ?_⟩
        rw [pollFuture, hf]
        simp only [hdropped, hstate]
        exact room_of_frame rfl rfl

end AmlaSandbox.Host.Machine
