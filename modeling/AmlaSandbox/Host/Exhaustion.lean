import AmlaSandbox.Host.Operation

/-!
# Running out of slot indices

An id has room for 2 ^ 32 slot indices, and nothing keeps the channel from having more slots. The
operation after that many gets the id of the first one.
-/

namespace AmlaSandbox.Host

open Async Library HostChannelInner

/-- Past the last index the ids start again. -/
lemma HostOpId.encode_wraps : encode 1 (2 ^ 32) = encode 1 0 := by
  decide

lemma HostOpId.index_wraps : (encode 1 (2 ^ 32)).index = 0 := by
  rw [encode_wraps]
  exact index_encode (by decide)

lemma HostOpId.encode_of_le {n : Nat} (h : n ≤ 2 ^ 32) :
    (encode 1 n).index ≤ n ∧ (encode 1 n).generation = 1 := by
  rcases Nat.lt_or_eq_of_le h with hlt | rfl
  · exact ⟨Nat.le_of_eq (index_encode hlt), generation_encode hlt⟩
  · rw [encode_wraps]
    decide

namespace HostChannelInner

variable {c : HostChannelInner}

/-- Submission without a free slot. -/
lemma submit_new (h : c.freeSlots = []) (kind : HostOpKind) :
    c.submit kind =
      (.encode 1 c.slots.length,
        { c with
          pendingRequests := c.pendingRequests ++
            [⟨.encode 1 c.slots.length, kind, c.currentTask⟩]
          slots := (c.slots ++ [none]).set (HostOpId.encode 1 c.slots.length).index (some {})
          slotInfo := c.slotInfo ++ [1]
          freeSlots := [] }) := by
  simp [submit, allocateId, h]

end HostChannelInner

namespace Machine

variable {willWake : Waker → Waker → Bool} {m : Machine} {n : Nat}

/-- Each of `n` operations was submitted and taken, and none was answered or dropped. -/
structure Filled (n : Nat) (m : Machine) : Prop where
  maxPending_eq : m.chan.maxPending = 1
  pending_eq : m.chan.pendingRequests = []
  free_eq : m.chan.freeSlots = []
  length_slots : m.chan.slots.length = n
  slotInfo_eq : m.chan.slotInfo = List.replicate n 1
  length_futures : m.futures.length = n
  first : 0 < n → ∃ f, m.futures[0]? = some f ∧ f.dropped = false ∧
    f.state = .submitted (.encode 1 0) ∧ f.ticket = 0
  submitted_eq : m.submitted = m.taken.map fun request => { request }
  length_taken : m.taken.length = n

/-- A step without a call of the host while there is no free slot. -/
def Quiet (m : Machine) : Event → Prop
  | .call _ _ => False
  | _ => m.chan.freeSlots = []

lemma filled_new : Filled 0 (new 1) where
  maxPending_eq := rfl
  pending_eq := rfl
  free_eq := rfl
  length_slots := rfl
  slotInfo_eq := rfl
  length_futures := rfl
  first := nofun
  submitted_eq := rfl
  length_taken := rfl

/-- One more operation is created and polled. -/
def oneMore (willWake : Waker → Waker → Bool) (m : Machine) : Machine :=
  [.create (.print 0 []), .poll m.futures.length 0].foldl (step willWake) m

/-- The request of one more operation. -/
def nextRequest (m : Machine) : HostOpRequest :=
  ⟨.encode 1 m.chan.slots.length, .print 0 [], m.chan.currentTask⟩

/-- The operation after `n` others is submitted, whether or not there is an index for it. -/
lemma Filled.oneMore_eq (willWake : Waker → Waker → Bool) (h : Filled n m) (hn : n ≤ 2 ^ 32) :
    m.oneMore willWake =
    { m with
      chan := { m.chan with
        pendingRequests := [m.nextRequest]
        slots := (m.chan.slots ++ [none]).set m.nextRequest.id.index (some { waker := some 0 })
        slotInfo := m.chan.slotInfo ++ [1] }
      futures := m.futures ++
        [{ state := .submitted m.nextRequest.id, ticket := n, since := m.calls.length }]
      submitted := m.submitted ++ [{ request := m.nextRequest }] } := by
  obtain ⟨hindex, hgeneration⟩ := HostOpId.encode_of_le hn
  have hget : (m.createFuture (.print 0 [])).futures[m.futures.length]? =
      some { state := .pending (.print 0 []) } := by
    simp [createFuture]
  have hroom : (m.createFuture (.print 0 [])).chan.canSubmit = true := by
    simp [createFuture, canSubmit, h.pending_eq, h.maxPending_eq]
  have hlookup : (m.chan.submit (.print 0 [])).2.lookup (.encode 1 n) = some {} := by
    rw [submit_new h.free_eq, lookup_eq_some, h.length_slots]
    constructor
    · simp only [isValidId, h.slotInfo_eq, ← List.replicate_succ', hgeneration]
      rw [List.getElem?_replicate_of_lt (Nat.lt_succ_of_le hindex)]
      rfl
    · rw [List.getElem?_set_self (by simp [h.length_slots]; omega)]
  have hpoll := pollResult_of_some 0 hlookup
  rw [update_of_some hlookup] at hpoll
  simp only [submit_new h.free_eq, h.length_slots] at hpoll
  show (pollFuture willWake (m.createFuture (.print 0 [])) m.futures.length 0).2 = _
  rw [pollFuture_room hget rfl rfl hroom]
  simp only [createFuture, submit_new h.free_eq, h.length_slots, hpoll]
  simp [nextRequest, h.pending_eq, h.free_eq, h.length_slots, h.length_futures, setSlot, pollSlot,
    readyResult, h.submitted_eq, h.length_taken]

/-- It is taken, if there is an index for it. -/
lemma Filled.succ (h : Filled n m) (hn : n < 2 ^ 32) :
    Filled (n + 1) ((m.oneMore willWake).step willWake .take) := by
  have hindex : (HostOpId.encode 1 n).index = n := HostOpId.index_encode hn
  have heq := h.oneMore_eq willWake (Nat.le_of_lt hn)
  have htake : ((m.oneMore willWake).chan.takePending) =
      (some m.nextRequest, (m.oneMore willWake).chan.popRequest []) := by
    have hpending : (m.oneMore willWake).chan.pendingRequests = [m.nextRequest] := by rw [heq]
    rw [takePending, hpending, takeLoop_live]
    rw [heq]
    simp [nextRequest, slot?, h.length_slots, hindex]
  rw [Machine.step, take, htake, heq]
  constructor
  · exact h.maxPending_eq
  · rfl
  · exact h.free_eq
  · simp [popRequest, wakeSubmitter, wakeAll, h.length_slots]
  · simp [popRequest, wakeSubmitter, wakeAll, h.slotInfo_eq, ← List.replicate_succ']
  · simp [h.length_futures]
  · intro _
    rcases Nat.eq_zero_or_pos n with rfl | hpos
    · have hnil := List.eq_nil_of_length_eq_zero h.length_futures
      exact ⟨_, by rw [hnil]; rfl, rfl, by rw [nextRequest, h.length_slots], rfl⟩
    · obtain ⟨f, hf, hrest⟩ := h.first hpos
      refine ⟨f, ?_, hrest⟩
      rw [List.getElem?_append_left (by rwa [h.length_futures])]
      exact hf
  · simp [h.submitted_eq]
  · simp [h.length_taken]

lemma Filled.reachable_oneMore (h : Filled n m)
    (hreach : Reachable willWake Quiet 1 m) : Reachable willWake Quiet 1 (m.oneMore willWake) := by
  have hcreate : Reachable willWake Quiet 1 (m.step willWake (.create (.print 0 []))) :=
    hreach.tail (e := .create (.print 0 [])) h.free_eq rfl
  exact hcreate.tail (e := .poll m.futures.length 0) h.free_eq rfl

/-- Any number of operations up to the number of indices can be waiting for the host. -/
theorem exists_filled (willWake : Waker → Waker → Bool) (hn : n ≤ 2 ^ 32) :
    ∃ m, Reachable willWake Quiet 1 m ∧ Filled n m := by
  induction n with
  | zero => exact ⟨new 1, .refl, filled_new⟩
  | succ n ih =>
    obtain ⟨m, hreach, hfilled⟩ := ih (Nat.le_of_succ_le hn)
    have hone := hfilled.reachable_oneMore hreach
    have hfree : (m.oneMore willWake).chan.freeSlots = [] := by
      rw [hfilled.oneMore_eq _ (Nat.le_of_succ_le hn)]
      exact hfilled.free_eq
    exact ⟨_, hone.tail (e := .take) hfree rfl, hfilled.succ hn⟩


end Machine

end AmlaSandbox.Host
