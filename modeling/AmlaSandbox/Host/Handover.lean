import AmlaSandbox.Host.Exhaustion

/-!
# Handing requests over to the host

Requests are taken in the order of their submission. The queue also holds the requests of dropped
futures, which are skipped when their turn comes.
-/

namespace AmlaSandbox.Host

open Async Library HostChannelInner

section

variable {α β : Type*}

lemma modify_append_right (l l' : List α) (n : Nat) (g : α → α) :
    (l ++ l').modify (l.length + n) g = l ++ l'.modify n g := by
  induction l with
  | nil => rw [List.nil_append, List.length_nil, Nat.zero_add, List.nil_append]
  | cons a l ih =>
    rw [List.cons_append, List.length_cons, Nat.succ_add, List.modify_succ_cons, ih,
      List.cons_append]

lemma map_modify {h : α → β} {g : α → α} (hg : ∀ a, h (g a) = h a) (l : List α) (n : Nat) :
    (l.modify n g).map h = l.map h := by
  apply List.ext_getElem?
  intro i
  rw [List.getElem?_map, List.getElem?_map, List.getElem?_modify]
  cases l[i]? with
  | none => rfl
  | some a => by_cases hi : n = i <;> simp [hi, hg]

end

namespace HostChannelInner

/-- The queue holds these submissions: each has its slot, without a result, which is cancelled when
the submission is withdrawn. -/
structure Queue (c : HostChannelInner) (queue : List Submission) : Prop where
  pending_eq : c.pendingRequests = queue.map (·.request)
  slot : ∀ s ∈ queue, ∃ slot, c.lookup s.request.id = some slot ∧ slot.result = none ∧
    slot.cancelled = s.withdrawn
  nodup : (queue.map (·.request.id)).Nodup

variable {c c' : HostChannelInner} {queue rest : List Submission} {s : Submission} {id : HostOpId}
  {f : PendingSlot → Option PendingSlot}

lemma Queue.tail (h : c.Queue (s :: rest)) (hpending : c'.pendingRequests = rest.map (·.request))
    (hlookup : ∀ id, id ≠ s.request.id → c'.lookup id = c.lookup id) : c'.Queue rest := by
  obtain ⟨hnot, hnodup⟩ := List.nodup_cons.mp h.nodup
  refine ⟨hpending, fun s' hs' => ?_, hnodup⟩
  have hne : s'.request.id ≠ s.request.id := fun heq =>
    hnot (List.mem_map.mpr ⟨s', hs', heq⟩)
  rw [hlookup _ hne]
  exact h.slot s' (List.mem_cons_of_mem _ hs')

/-- An update that keeps a slot's result away and its cancellation as it is keeps the queue. -/
lemma Queue.update (h : c.Queue queue)
    (hf : ∀ s ∈ queue, s.request.id = id → ∀ slot, slot.result = none →
      ∃ slot', f slot = some slot' ∧ slot'.result = none ∧ slot'.cancelled = slot.cancelled) :
    (c.update id f).Queue queue := by
  refine ⟨pendingRequests_update.trans h.pending_eq, fun s hs => ?_, h.nodup⟩
  obtain ⟨slot, hslot, hresult, hcancelled⟩ := h.slot s hs
  rw [lookup_update]
  split_ifs with heq
  · obtain ⟨slot', hslot', hresult', hcancelled'⟩ := hf s hs heq slot hresult
    refine ⟨slot', ?_, hresult', hcancelled'.trans hcancelled⟩
    rw [← heq, hslot, Option.bind_some, hslot']
  · exact ⟨slot, hslot, hresult, hcancelled⟩

lemma Queue.same (h : c.Queue queue) (hsame : c.SameSlots c')
    (hpending : c'.pendingRequests = c.pendingRequests) : c'.Queue queue :=
  ⟨hpending.trans h.pending_eq, fun s hs => by rw [hsame.lookup]; exact h.slot s hs, h.nodup⟩

/-- A submission goes to the end of the queue. -/
lemma Queue.submit (h : c.Queue queue) (hwf : c.Wf) (hfits : c.Fits) (kind : HostOpKind)
    (waker : Waker) (hne : ∀ s ∈ queue, s.request.id ≠ (c.submit kind).1) :
    ((c.submit kind).2.update (c.submit kind).1 (pollSlot waker)).Queue
      (queue ++ [{ request := ⟨(c.submit kind).1, kind, c.currentTask⟩ }]) := by
  obtain ⟨hpending, _⟩ := submit_frame c kind
  refine ⟨?_, fun s hs => ?_, ?_⟩
  · rw [pendingRequests_update, hpending, h.pending_eq, List.map_append]
    rfl
  · rw [lookup_update]
    rcases List.mem_append.mp hs with hs | hs
    · rw [if_neg (hne s hs), lookup_submit hwf kind hfits, if_neg (hne s hs)]
      exact h.slot s hs
    · cases List.mem_singleton.mp hs
      rw [if_pos rfl, lookup_submit hwf kind hfits, if_pos rfl]
      exact ⟨_, rfl, rfl, rfl⟩
  · rw [List.map_append]
    refine List.nodup_append.mpr ⟨h.nodup, List.nodup_singleton _, ?_⟩
    rintro id hid _ hid' rfl
    obtain ⟨s, hs, rfl⟩ := List.mem_map.mp hid
    exact hne s hs (List.mem_singleton.mp hid')

/-- A withdrawn submission stays in the queue with a cancelled slot. -/
lemma Queue.withdraw (h : c.Queue queue) {n : Nat} (hs : queue[n]? = some s) :
    (c.update s.request.id cancelSlot).Queue (queue.modify n .withdraw) := by
  refine ⟨?_, fun s' hs' => ?_, ?_⟩
  · rw [pendingRequests_update, h.pending_eq, map_modify (g := Submission.withdraw) fun _ => rfl]
  · obtain ⟨j, hj⟩ := List.getElem?_of_mem hs'
    rw [lookup_update]
    by_cases hn : n = j
    · subst hn
      rw [List.getElem?_modify_eq, hs] at hj
      cases hj
      obtain ⟨slot, hslot, hresult, _⟩ := h.slot s (List.mem_of_getElem? hs)
      refine ⟨{ slot with cancelled := true }, ?_, hresult, rfl⟩
      have hid : s.withdraw.request.id = s.request.id := rfl
      rw [if_pos hid, hslot, Option.bind_some, cancelSlot, hresult]
      rfl
    · rw [List.getElem?_modify_ne _ _ hn] at hj
      have hne : s'.request.id ≠ s.request.id := by
        intro heq
        obtain ⟨hlt, _⟩ := List.getElem?_eq_some_iff.mp hs
        apply hn
        apply (List.getElem?_inj (by simpa using hlt) h.nodup).mp
        rw [List.getElem?_map, List.getElem?_map, hs, hj]
        exact congrArg some heq.symm
      rw [if_neg hne]
      exact h.slot s' (List.mem_of_getElem? hj)
  · rw [map_modify (g := Submission.withdraw) fun _ => rfl]
    exact h.nodup

/-- A request is live if its submission was not withdrawn. -/
lemma Queue.isLive_eq (h : c.Queue queue) (hs : s ∈ queue) : c.isLive s.request = !s.withdrawn := by
  obtain ⟨slot, hslot, _, hcancelled⟩ := h.slot s hs
  rw [isLive, slot?_eq hslot, Option.any_some, hcancelled]

/-- The live requests of the queue are those of the submissions that were not withdrawn. -/
lemma Queue.filter_isLive (h : c.Queue queue) :
    c.pendingRequests.filter c.isLive = (queue.filter (!·.withdrawn)).map (·.request) := by
  rw [h.pending_eq, List.filter_map]
  exact congrArg _ (List.filter_congr fun s hs => h.isLive_eq hs)

/-- Taking skips the withdrawn submissions and hands out the next one. -/
lemma Queue.takePending (h : c.Queue queue) :
    (∀ s ∈ queue, s.withdrawn = true) ∧ c.takePending.1 = none ∧
        c.takePending.2.Queue [] ∨
      ∃ skipped s rest, queue = skipped ++ s :: rest ∧ (∀ s ∈ skipped, s.withdrawn = true) ∧
        s.withdrawn = false ∧ c.takePending.1 = some s.request ∧
        c.takePending.2.Queue rest := by
  induction queue generalizing c with
  | nil =>
    left
    rw [HostChannelInner.takePending, h.pending_eq]
    exact ⟨fun _ hs => absurd hs List.not_mem_nil, rfl, rfl,
      fun _ hs => absurd hs List.not_mem_nil, List.nodup_nil⟩
  | cons s rest ih =>
    obtain ⟨slot, hslot, _, hcancelled⟩ := h.slot s List.mem_cons_self
    have htail : ((c.popRequest (rest.map (·.request))).update s.request.id purgeSlot).Queue
        rest := by
      apply h.tail pendingRequests_update
      intro id hne
      rw [lookup_update, if_neg hne]
      rfl
    have hpending : c.pendingRequests = s.request :: rest.map (·.request) := h.pending_eq
    rw [HostChannelInner.takePending, hpending, takeLoop_cons, slot?_eq hslot,
      Option.any_some, hcancelled]
    dsimp only
    cases hwithdrawn : s.withdrawn with
    | true =>
      rw [if_pos rfl]
      have hrest := ih htail
      rw [HostChannelInner.takePending, htail.pending_eq] at hrest
      rcases hrest with ⟨hall, hnone, hqueue⟩ |
        ⟨skipped, s', rest', heq, hall, hfalse, htake, hqueue⟩
      · exact .inl ⟨List.forall_mem_cons.mpr ⟨hwithdrawn, hall⟩, hnone, hqueue⟩
      · exact .inr ⟨s :: skipped, s', rest', by rw [heq, List.cons_append],
          List.forall_mem_cons.mpr ⟨hwithdrawn, hall⟩, hfalse, htake, hqueue⟩
    | false =>
      rw [if_neg Bool.false_ne_true]
      exact .inr ⟨[], s, rest, rfl, fun _ hs => absurd hs List.not_mem_nil, hwithdrawn, rfl, htail⟩

/-- A cancelled request alone in the queue is thrown away. -/
lemma takePending_cancelled {request : HostOpRequest} {slot : PendingSlot}
    (hpending : c.pendingRequests = [request]) (hslot : c.lookup request.id = some slot)
    (hcancelled : slot.cancelled = true) :
    c.takePending.1 = none ∧ c.takePending.2.pendingRequests = [] := by
  rw [takePending, hpending, takeLoop_cons, slot?_eq hslot,
      Option.any_some, hcancelled]
  exact ⟨rfl, rfl⟩

/-- The channel after a number of takes. -/
def afterTakes : HostChannelInner → Nat → HostChannelInner
  | c, 0 => c
  | c, n + 1 => afterTakes c.takePending.2 n

lemma Queue.pendingCount_eq (h : c.Queue queue) :
    c.pendingCount = (queue.filter (!·.withdrawn)).length := by
  rw [pendingCount, h.filter_isLive, List.length_map]

lemma Queue.hasPending_eq (h : c.Queue queue) : c.hasPending = c.takePending.1.isSome := by
  have hany : c.hasPending = queue.any (!·.withdrawn) := by
    rw [hasPending, h.pending_eq, List.any_map]
    apply Bool.eq_iff_iff.mpr
    simp only [List.any_eq_true, Function.comp_apply]
    exact exists_congr fun s => and_congr_right fun hs => by rw [h.isLive_eq hs]
  rw [hany]
  rcases h.takePending with ⟨hall, hnone, _⟩ | ⟨skipped, s, rest, rfl, _, hfalse, htake, _⟩
  · rw [hnone, Option.isSome_none, List.any_eq_false]
    exact fun s hs => by simp [hall s hs]
  · rw [htake, Option.isSome_some, List.any_eq_true]
    exact ⟨s, by simp, by simp [hfalse]⟩

/-- As many takes as there are live requests return a request. -/
lemma Queue.isSome_afterTakes (h : c.Queue queue) (n : Nat) :
    (c.afterTakes n).takePending.1.isSome = true ↔ n < c.pendingCount := by
  induction n generalizing c queue with
  | zero =>
    rw [afterTakes, ← h.hasPending_eq, hasPending, List.any_eq_true, pendingCount,
      List.length_pos_iff_exists_mem]
    simp only [List.mem_filter]
  | succ n ih =>
    rw [afterTakes, h.pendingCount_eq]
    rcases h.takePending with ⟨hall, _, hqueue⟩ | ⟨skipped, s, rest, rfl, hall, hfalse, _, hqueue⟩
    · have hempty : queue.filter (!·.withdrawn) = [] :=
        List.filter_eq_nil_iff.mpr fun s hs => by simp [hall s hs]
      have hrest := hqueue.pendingCount_eq
      rw [ih hqueue, hrest, hempty]
      simp
    · have hskipped : skipped.filter (!·.withdrawn) = [] :=
        List.filter_eq_nil_iff.mpr fun s hs => by simp [hall s hs]
      rw [ih hqueue, hqueue.pendingCount_eq, List.filter_append, hskipped,
        List.nil_append, List.filter_cons_of_pos (by simp [hfalse]), List.length_cons]
      omega

end HostChannelInner

namespace Machine

variable {willWake : Waker → Waker → Bool} {m m' : Machine} {e : Event} {i : Nat} {f : HostOpFuture}

/-- Requests are handed over in the order of submission: those taken are the first of those not
withdrawn, and the live ones in the queue are the others; the counters of the queue tell what can be
taken. -/
structure HandedOver (m : Machine) : Prop where
  in_order : (m.submitted.filter (!·.withdrawn)).map (·.request) =
    m.taken ++ m.chan.pendingRequests.filter m.chan.isLive
  distinct : (m.submitted.map (·.request.id)).Nodup
  hasPending_eq : m.chan.hasPending = m.chan.takePending.1.isSome
  pendingCount_spec : ∀ n,
    (m.chan.afterTakes n).takePending.1.isSome = true ↔ n < m.chan.pendingCount
  bounded : m.chan.pendingRequests.length ≤ m.chan.maxPending

/-- Ids do not run out, and the host completes only requests that it has taken. -/
def Handing (m : Machine) : Event → Prop
  | .call _ .clearBuffer => True
  | .call id _ => ∃ request ∈ m.taken, request.id = id
  | e => m.Fitting e

/-- The ids of the requests, in the order of their submission. -/
def submittedIds (m : Machine) : List HostOpId := m.submitted.map (·.request.id)

/-- What is passed on of the submissions, and what is still in the queue. -/
structure Handed (m : Machine) (passed queue : List Submission) : Prop where
  submitted_eq : m.submitted = passed ++ queue
  taken_eq : m.taken = (passed.filter (!·.withdrawn)).map (·.request)
  queue : m.chan.Queue queue
  distinct : m.submittedIds.Nodup
  issued : ∀ id ∈ m.submittedIds, m.chan.table.Issued id.key
  ticket : ∀ f ∈ m.futures, ∀ id, f.state = .submitted id → m.submittedIds[f.ticket]? = some id
  bounded : m.chan.pendingRequests.length ≤ m.chan.maxPending

variable {passed queue : List Submission}

lemma Handed.handedOver (h : m.Handed passed queue) : m.HandedOver where
  in_order := by
    rw [h.submitted_eq, h.taken_eq, h.queue.filter_isLive, List.filter_append, List.map_append]
  distinct := h.distinct
  hasPending_eq := h.queue.hasPending_eq
  pendingCount_spec := h.queue.isSome_afterTakes
  bounded := h.bounded

lemma Handing.fitting (h : m.Handing e) : m.Fitting e := by
  cases e with
  | call => trivial
  | create | poll | drop | take | setTask => exact h

lemma handed_new (maxPending : Nat) : (new maxPending).Handed [] [] where
  submitted_eq := rfl
  taken_eq := rfl
  queue := ⟨rfl, fun _ hs => absurd hs List.not_mem_nil, List.nodup_nil⟩
  distinct := List.nodup_nil
  issued _ hs := absurd hs List.not_mem_nil
  ticket _ hf := absurd hf List.not_mem_nil
  bounded := Nat.zero_le _

lemma Handed.queue_pending (h : m.Handed passed queue) :
    m.chan.pendingRequests.length = queue.length := by
  rw [h.queue.pending_eq, List.length_map]

/-- A taken request is no longer in the queue. -/
lemma Handed.ne_taken (h : m.Handed passed queue) {request : HostOpRequest} {s : Submission}
    (hrequest : request ∈ m.taken) (hs : s ∈ queue) : s.request.id ≠ request.id := by
  have hnodup := h.distinct
  rw [submittedIds, h.submitted_eq, List.map_append] at hnodup
  rw [h.taken_eq] at hrequest
  obtain ⟨s', hs', rfl⟩ := List.mem_map.mp hrequest
  intro heq
  exact List.disjoint_of_nodup_append hnodup
    (List.mem_map.mpr ⟨s', (List.mem_filter.mp hs').1, rfl⟩) (List.mem_map.mpr ⟨s, hs, heq⟩)

/-- A step that submits, takes and withdraws nothing keeps what was handed over. -/
lemma Handed.transport (h : m.Handed passed queue) (hqueue : m'.chan.Queue queue)
    (hissued : ∀ key, m.chan.table.Issued key → m'.chan.table.Issued key)
    (hmax : m'.chan.maxPending = m.chan.maxPending) (hsubmitted : m'.submitted = m.submitted)
    (htaken : m'.taken = m.taken)
    (hticket : ∀ f ∈ m'.futures, ∀ id, f.state = .submitted id →
      m.submittedIds[f.ticket]? = some id) : m'.Handed passed queue := by
  have hids : m'.submittedIds = m.submittedIds := by rw [submittedIds, hsubmitted, submittedIds]
  refine ⟨hsubmitted.trans h.submitted_eq, htaken.trans h.taken_eq, hqueue, ?_, ?_, ?_, ?_⟩
  · rw [hids]
    exact h.distinct
  · rw [hids]
    exact fun id hid => hissued _ (h.issued id hid)
  · rw [hids]
    exact hticket
  · rw [hqueue.pending_eq, List.length_map, ← h.queue_pending, hmax]
    exact h.bounded

/-- A future that is put in place of another of the same state and ticket. -/
lemma Handed.ticket_set (h : m.Handed passed queue) {g : HostOpFuture}
    (hf : m.futures[i]? = some f) (hstate : g.state = f.state) (hticket : g.ticket = f.ticket) :
    ∀ f' ∈ m.futures.set i g, ∀ id, f'.state = .submitted id →
      m.submittedIds[f'.ticket]? = some id := by
  intro f' hf' id hid
  rcases List.mem_or_eq_of_mem_set hf' with hf' | rfl
  · exact h.ticket f' hf' id hid
  · rw [hticket]
    exact h.ticket f (List.mem_of_getElem? hf) id (hstate ▸ hid)

/-- A submission is handed over after all others. -/
lemma Handed.submit (h : m.Handed passed queue) (hinv : m.Inv) (hfits : m.chan.Fits)
    {kind : HostOpKind} {waker : Waker} {g : HostOpFuture} (hroom : m.chan.canSubmit = true)
    (hchan : m'.chan = (m.chan.submit kind).2.update (m.chan.submit kind).1 (pollSlot waker))
    (hsubmitted : m'.submitted = m.submitted ++
      [{ request := ⟨(m.chan.submit kind).1, kind, m.chan.currentTask⟩ }])
    (htaken : m'.taken = m.taken) (hfutures : m'.futures = m.futures.set i g)
    (hg : g.state = .submitted (m.chan.submit kind).1) (hticket : g.ticket = m.submitted.length) :
    m'.Handed passed
      (queue ++ [{ request := ⟨(m.chan.submit kind).1, kind, m.chan.currentTask⟩ }]) := by
  obtain ⟨htable, hkey⟩ := submit_insert kind hinv.wf hfits
  obtain ⟨hpending, hmax, _⟩ := submit_frame m.chan kind
  have hids : m'.submittedIds = m.submittedIds ++ [(m.chan.submit kind).1] := by
    rw [submittedIds, hsubmitted, List.map_append]
    rfl
  have hnew : (m.chan.submit kind).1 ∉ m.submittedIds := by
    intro hmem
    have hissued := h.issued _ hmem
    rw [hkey] at hissued
    exact GenTable.not_issued_nextKey hissued
  have hne : ∀ s' ∈ queue, s'.request.id ≠ (m.chan.submit kind).1 := by
    intro s' hs' heq
    apply hnew
    rw [submittedIds, h.submitted_eq, List.map_append]
    exact List.mem_append_right _ (List.mem_map.mpr ⟨s', hs', heq⟩)
  refine ⟨?_, htaken.trans h.taken_eq, ?_, ?_, ?_, ?_, ?_⟩
  · rw [hsubmitted, h.submitted_eq, List.append_assoc]
  · rw [hchan]
    exact h.queue.submit hinv.wf hfits kind waker hne
  · rw [hids]
    exact List.nodup_append.mpr ⟨h.distinct, List.nodup_singleton _, by
      rintro id hid _ hid' rfl
      exact hnew (List.mem_singleton.mp hid' ▸ hid)⟩
  · rw [hids, hchan]
    intro id hid
    rw [issued_update, htable]
    rcases List.mem_append.mp hid with hid | hid
    · exact GenTable.issued_insert hinv.wf.table_wf (h.issued id hid)
    · rw [List.mem_singleton.mp hid, hkey]
      exact GenTable.issued_insert_nextKey hinv.wf.table_wf
  · rw [hids, hfutures]
    intro f' hf' id hid
    rcases List.mem_or_eq_of_mem_set hf' with hf' | rfl
    · have hticket' := h.ticket f' hf' id hid
      obtain ⟨hlt, _⟩ := List.getElem?_eq_some_iff.mp hticket'
      rw [List.getElem?_append_left hlt]
      exact hticket'
    · rw [hg] at hid
      cases hid
      rw [hticket, List.getElem?_append_right (by simp [submittedIds])]
      simp [submittedIds]
  · rw [hchan, pendingRequests_update, maxPending_update, hpending, hmax]
    simpa [canSubmit, Nat.succ_le_iff] using hroom

/-- The drop of a future withdraws its request if it is still in the queue. -/
lemma Handed.drop (h : m.Handed passed queue) {id : HostOpId} (hf : m.futures[i]? = some f)
    (hdropped : f.dropped = false) (hstate : f.state = .submitted id) :
    ∃ queue', (m.dropFuture i).Handed passed queue' := by
  have hticket := h.ticket f (List.mem_of_getElem? hf) id hstate
  have hpopped : m.popped = passed.length := by
    rw [popped, h.submitted_eq, List.length_append, h.queue_pending, Nat.add_sub_cancel]
  have hset := h.ticket_set (g := { f with dropped := true, parked := none }) hf rfl rfl
  have hissued : ∀ key, m.chan.table.Issued key →
      (m.chan.update id cancelSlot).table.Issued key := fun _ hkey => issued_update.mpr hkey
  rw [dropFuture_submitted hf hdropped hstate, hpopped]
  by_cases hle : passed.length ≤ f.ticket
  · obtain ⟨n, hn⟩ := Nat.exists_eq_add_of_le hle
    rw [submittedIds, h.submitted_eq, List.map_append, hn,
      List.getElem?_append_right (by simp), List.length_map, Nat.add_sub_cancel_left,
      List.getElem?_map, Option.map_eq_some_iff] at hticket
    obtain ⟨s, hs, rfl⟩ := hticket
    have hmodify : m.submitted.modify f.ticket .withdraw = passed ++ queue.modify n .withdraw := by
      rw [h.submitted_eq, hn, modify_append_right]
    rw [if_pos hle, hmodify]
    have hids : (passed ++ queue.modify n .withdraw).map (·.request.id) = m.submittedIds := by
      rw [List.map_append, map_modify (g := Submission.withdraw) fun _ => rfl, ← List.map_append,
        ← h.submitted_eq]
      rfl
    refine ⟨queue.modify n .withdraw, rfl, h.taken_eq, h.queue.withdraw hs, ?_, ?_, ?_, ?_⟩
    · rw [submittedIds, hids]
      exact h.distinct
    · rw [submittedIds, hids]
      exact fun id hid => hissued _ (h.issued id hid)
    · rw [submittedIds, hids]
      exact hset
    · rw [pendingRequests_update, maxPending_update]
      exact h.bounded
  · rw [if_neg hle]
    refine ⟨queue, h.transport (h.queue.update ?_) hissued maxPending_update rfl rfl hset⟩
    intro s hs hid
    have hlt : f.ticket < passed.length := Nat.lt_of_not_le hle
    have hnodup := h.distinct
    rw [submittedIds, h.submitted_eq, List.map_append] at hticket hnodup
    rw [List.getElem?_append_left (by simpa using hlt)] at hticket
    exact absurd (List.mem_map.mpr ⟨s, hs, hid⟩)
      (List.disjoint_of_nodup_append hnodup (List.mem_of_getElem? hticket))

/-- A take passes on the withdrawn submissions at the front and the one that it returns. -/
lemma Handed.take (h : m.Handed passed queue) :
    ∃ passed' queue', (m.step willWake .take).Handed passed' queue' := by
  have hissued : ∀ id ∈ m.submittedIds, m.chan.takePending.2.table.Issued id.key :=
    fun id hid => takePending_issued (h.issued id hid)
  have hmax : m.chan.takePending.2.maxPending = m.chan.maxPending :=
    takePending_keeps (P := fun c => c.maxPending = m.chan.maxPending) rfl
      (fun _ _ _ hc _ => hc) fun _ _ hc => maxPending_update.trans hc
  have hskip : ∀ l : List Submission, (∀ s ∈ l, s.withdrawn = true) →
      l.filter (!·.withdrawn) = [] := fun l hl =>
    List.filter_eq_nil_iff.mpr fun s hs => by simp [hl s hs]
  have hbounded := h.bounded
  rw [h.queue_pending] at hbounded
  rcases h.queue.takePending with ⟨hall, hnone, hqueue⟩ |
    ⟨skipped, s, rest, heq, hall, hfalse, htake, hqueue⟩
  · refine ⟨passed ++ queue, [], ?_, ?_, hqueue, h.distinct, hissued, h.ticket, ?_⟩
    · rw [List.append_nil]
      exact h.submitted_eq
    · show m.taken ++ m.chan.takePending.1.toList = _
      rw [hnone, h.taken_eq, List.filter_append, hskip queue hall]
      simp
    · show m.chan.takePending.2.pendingRequests.length ≤ m.chan.takePending.2.maxPending
      rw [hqueue.pending_eq]
      exact Nat.zero_le _
  · refine ⟨passed ++ (skipped ++ [s]), rest, ?_, ?_, hqueue, h.distinct, hissued, h.ticket, ?_⟩
    · show m.submitted = _
      rw [h.submitted_eq, heq, List.append_assoc, List.append_assoc]
      rfl
    · show m.taken ++ m.chan.takePending.1.toList = _
      rw [htake, h.taken_eq, List.filter_append, List.filter_append, hskip skipped hall]
      simp [hfalse]
    · show m.chan.takePending.2.pendingRequests.length ≤ m.chan.takePending.2.maxPending
      rw [hqueue.pending_eq, hmax, List.length_map]
      rw [heq, List.length_append, List.length_cons] at hbounded
      omega

lemma Handed.step (h : m.Handed passed queue) (hinv : m.Inv) (hok : m.Handing e) :
    ∃ passed' queue', (m.step willWake e).Handed passed' queue' := by
  cases e with
  | create kind =>
    refine ⟨passed, queue, h.transport h.queue (fun _ hkey => hkey) rfl rfl rfl ?_⟩
    intro f hf id hid
    rcases List.mem_append.mp hf with hf | hf
    · exact h.ticket f hf id hid
    · rw [List.mem_singleton.mp hf] at hid
      cases hid
  | poll i waker =>
    rw [Machine.step]
    rcases hinv.future_cases i with
      hnone | ⟨f, hf, hdropped, ⟨kind, hstate, hresolved⟩ | ⟨id, hstate⟩⟩
    · rw [pollFuture_none hnone]
      exact ⟨passed, queue, h⟩
    · cases hroom : m.chan.canSubmit with
      | false =>
        obtain ⟨hpending, hmax, _⟩ := register_frame m.chan willWake waker
        rw [pollFuture_full hf hdropped hstate hroom]
        refine ⟨passed, queue, h.transport (h.queue.same sameSlots_register hpending) ?_ hmax rfl
          rfl (h.ticket_set hf rfl rfl)⟩
        intro key hkey
        show (m.chan.registerSubmitWaker willWake waker).table.Issued key
        rwa [sameSlots_register.table]
      | true =>
        have hfits := hok f kind hf hdropped hstate hroom
        rw [pollFuture_fits hinv hfits hf hdropped hstate hresolved hroom]
        exact ⟨passed, _, h.submit hinv hfits hroom rfl rfl rfl rfl rfl rfl⟩
    · rw [pollFuture_submitted hf hdropped hstate, pollResult_eq]
      refine ⟨passed, queue, h.transport (h.queue.update ?_) (fun _ hkey => issued_update.mpr hkey)
        maxPending_update rfl rfl (h.ticket_set hf rfl rfl)⟩
      intro s _ _ slot hresult
      exact ⟨{ slot with waker := register slot.waker waker }, by simp [pollSlot, hresult], hresult,
        rfl⟩
  | drop i =>
    rw [Machine.step]
    rcases hinv.future_cases i with hnone | ⟨f, hf, hdropped, ⟨kind, hstate, _⟩ | ⟨id, hstate⟩⟩
    · rw [dropFuture_none hnone]
      exact ⟨passed, queue, h⟩
    · rw [dropFuture_pending hf hdropped hstate]
      exact ⟨passed, queue, h.transport h.queue (fun _ hkey => hkey) rfl rfl rfl
        (h.ticket_set hf rfl rfl)⟩
    · obtain ⟨queue', h'⟩ := h.drop hf hdropped hstate
      exact ⟨passed, queue', h'⟩
  | take => exact h.take
  | call id c =>
    obtain ⟨wakers, hcall⟩ := call_eq m.chan id c
    have hqueue : (m.chan.update id c.onSlot).Queue queue := by
      apply h.queue.update
      intro s hs hid slot hresult
      have hne : ∀ request ∈ m.taken, request.id ≠ id := fun request hrequest heq =>
        h.ne_taken hrequest hs (hid.trans heq.symm)
      cases c with
      | clearBuffer => exact ⟨_, rfl, hresult, rfl⟩
      | complete | chunk =>
        obtain ⟨request, hrequest, heq⟩ := hok
        exact absurd heq (hne request hrequest)
    refine ⟨passed, queue, h.transport ?_ ?_ ?_ rfl rfl h.ticket⟩
    · show (m.chan.call id c).Queue queue
      rw [hcall]
      exact hqueue.same sameSlots_wakeAll rfl
    · show ∀ key, m.chan.table.Issued key → (m.chan.call id c).table.Issued key
      rw [hcall]
      exact fun key hkey => issued_update.mpr hkey
    · show (m.chan.call id c).maxPending = _
      rw [hcall]
      exact maxPending_update
  | setTask task =>
    exact ⟨passed, queue, h.transport (h.queue.same ⟨rfl, rfl, rfl⟩ rfl) (fun _ hkey => hkey) rfl
      rfl rfl h.ticket⟩

/-- Three requests, the second of which is dropped before it is taken. -/
def threeRequests : List Event :=
  [.create (.print 0 []), .poll 0 7, .create (.print 1 []), .poll 1 8, .create (.print 2 []),
    .poll 2 9, .drop 1, .take, .take]

/-- In every run in which the host completes only requests that it has taken, and ids do not run
out, requests are handed over once each and in order. -/
theorem handedOver_of_handing (maxPending : Nat) (m : Machine)
    (h : Reachable willWake Handing maxPending m) : m.HandedOver := by
  have hhanded : ∃ passed queue, m.Handed passed queue := by
    refine h.invariant_of (J := Inv) (I := fun m => ∃ passed queue, m.Handed passed queue)
      (fun m hm => inv_of_reachable hm fun _ _ hok => hok.fitting) ⟨[], [], handed_new _⟩ ?_
    rintro m e m' hinv _ ⟨passed, queue, hm⟩ hok rfl
    exact hm.step hinv hok
  obtain ⟨passed, queue, hm⟩ := hhanded
  exact hm.handedOver

/-- Of three requests the second is withdrawn, and the first and the third are taken. -/
theorem handedOver_three :
    (run Waker.willWake 3 threeRequests).taken.map (·.id) = [.encode 1 0, .encode 1 2] ∧
      (run Waker.willWake 3 threeRequests).HandedOver := by
  refine ⟨by decide, handedOver_of_handing 3 _ (reachable_run Waker.willWake ?_)⟩
  exact ⟨trivial, fun _ _ _ _ _ _ => fits_of_no_free (by decide) (by decide), trivial,
    fun _ _ _ _ _ _ => fits_of_no_free (by decide) (by decide), trivial,
    fun _ _ _ _ _ _ => fits_of_no_free (by decide) (by decide), trivial, trivial, trivial, trivial⟩

/-- The host completes only requests that it has taken. -/
def TakenOnly (m : Machine) : Event → Prop
  | .call _ .clearBuffer => True
  | .call id _ => ∃ request ∈ m.taken, request.id = id
  | _ => True

/-- With more slots than indices, the drop of the first future makes the last request disappear,
which has the same id. -/
theorem not_handedOver_of_takenOnly :
    ¬ ∀ maxPending m, Reachable Waker.willWake TakenOnly maxPending m → m.HandedOver := by
  intro h
  obtain ⟨m, hreach, hfilled⟩ := exists_filled Waker.willWake (Nat.le_refl (2 ^ 32))
  have hone : Reachable Waker.willWake TakenOnly 1 (m.oneMore Waker.willWake) :=
    (hfilled.reachable_oneMore hreach).mono fun m e hquiet => by
      cases e with
      | call => exact absurd hquiet id
      | create | poll | drop | take | setTask => trivial
  have hdrop := hone.tail (e := Event.drop 0) trivial (step_step Waker.willWake _ _)
  have htake := hdrop.tail (e := Event.take) trivial (step_step Waker.willWake _ _)
  have hwraps : m.nextRequest.id = .encode 1 0 := by
    rw [nextRequest, hfilled.length_slots, HostOpId.encode_wraps]
  obtain ⟨f, hf, hdropped, hstate, hticket⟩ := hfilled.first (by decide)
  have heq := hfilled.oneMore_eq Waker.willWake (Nat.le_refl _)
  have hfirst : (m.oneMore Waker.willWake).futures[0]? = some f := by
    rw [heq, List.getElem?_append_left (by rw [hfilled.length_futures]; decide), hf]
  have hpopped : ¬ (m.oneMore Waker.willWake).popped ≤ f.ticket := by
    rw [popped, heq, hticket]
    simp [hfilled.submitted_eq, hfilled.length_taken]
  have hindex : (HostOpId.encode 1 0).index = 0 := HostOpId.index_encode (by decide)
  have hgeneration : (HostOpId.encode 1 0).generation = 1 :=
    HostOpId.generation_encode (by decide)
  have hlookup : (m.oneMore Waker.willWake).chan.lookup (.encode 1 0) =
      some { waker := some 0 } := by
    rw [heq, lookup_eq_some, hwraps, hindex]
    constructor
    · simp only [isValidId, hindex, hgeneration, hfilled.slotInfo_eq, ← List.replicate_succ']
      rw [List.getElem?_replicate_of_lt (Nat.succ_pos _)]
      rfl
    · rw [List.getElem?_set_self (by simp)]
  have hcancelled : ((m.oneMore Waker.willWake).chan.update (.encode 1 0) cancelSlot).lookup
      (.encode 1 0) = some { waker := some 0, cancelled := true } := by
    rw [lookup_update, if_pos rfl, hlookup]
    rfl
  have hpending : ((m.oneMore Waker.willWake).chan.update (.encode 1 0)
      cancelSlot).pendingRequests = [m.nextRequest] := by
    rw [pendingRequests_update, heq]
  obtain ⟨hnone, hempty⟩ := takePending_cancelled hpending
    (by rw [hwraps]; exact hcancelled) rfl
  have horder := congrArg List.length (h 1 _ htake).in_order
  simp only [step] at horder
  rw [dropFuture_submitted hfirst hdropped hstate, if_neg hpopped] at horder
  simp only [take] at horder
  rw [hnone, hempty, heq] at horder
  have hfilter : (m.submitted.filter (!·.withdrawn)).length = 2 ^ 32 := by
    rw [hfilled.submitted_eq, List.filter_eq_self.mpr (by simp), List.length_map,
      hfilled.length_taken]
  simp [List.filter_append, hfilter, hfilled.length_taken] at horder

end Machine

end AmlaSandbox.Host
