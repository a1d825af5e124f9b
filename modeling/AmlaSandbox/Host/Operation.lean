import AmlaSandbox.Host.Machine

/-!
# One host operation

As long as ids do not run out, every submitted operation has an id of its own, and every step of the
channel and its users is, for each operation, a step that concerns only its slot, its future and the
calls under its id.
-/

namespace AmlaSandbox.Host

open Async Library HostChannelInner

/-- What concerns one submitted operation: its slot, its future, and the calls under its id since it
was submitted. -/
structure Operation where
  slot : Option PendingSlot
  resolved : Option HostResult := none
  dropped : Bool := false
  calls : List HostCall := []
deriving DecidableEq

namespace Operation

/-- The operation after a call under its id. -/
def called (o : Operation) (c : HostCall) : Operation :=
  { o with slot := o.slot.bind c.onSlot, calls := o.calls ++ [c] }

lemma slot_called {o : Operation} {c : HostCall} {slot slot' : PendingSlot}
    (h : o.slot = some slot) (hcall : c.onSlot slot = some slot') :
    (o.called c).slot = some slot' := by
  rw [called, h, Option.bind_some, hcall]

/-- What can happen to one operation; `admitted` are the calls that can come. -/
inductive Step (admitted : HostCall → Prop) (o : Operation) : Operation → Prop
  | stutter : Step admitted o o
  | call {c : HostCall} (h : admitted c) : Step admitted o (o.called c)
  | poll {waker : Waker} {slot : PendingSlot} (hdropped : o.dropped = false)
    (h : o.slot = some slot) :
    Step admitted o
      { o with slot := pollSlot waker slot, resolved := o.resolved.or slot.result }
  | pollGone {e : IoError} (hdropped : o.dropped = false) (h : o.slot = none) :
    Step admitted o { o with resolved := o.resolved.or (some (.error e)) }
  | drop : Step admitted o { o with slot := o.slot.bind cancelSlot, dropped := true }
  | purge : Step admitted o { o with slot := o.slot.bind purgeSlot }

lemma Step.mono {admitted admitted' : HostCall → Prop} {o o' : Operation}
    (h : o.Step admitted o') (himp : ∀ c, admitted c → admitted' c) : o.Step admitted' o' := by
  cases h with
  | stutter => exact .stutter
  | call hc => exact .call (himp _ hc)
  | poll hdropped hslot => exact .poll hdropped hslot
  | pollGone hdropped hslot => exact .pollGone hdropped hslot
  | drop => exact .drop
  | purge => exact .purge

end Operation

namespace Machine

/-- The calls that the host made under an id from its `n`-th call on. -/
def callsUnder (m : Machine) (id : HostOpId) (n : Nat) : List HostCall :=
  ((m.calls.drop n).filter (·.1 = id)).map Prod.snd

/-- The operation of a future that was submitted under an id. -/
def operation (m : Machine) (f : HostOpFuture) (id : HostOpId) : Operation :=
  ⟨m.chan.lookup id, f.resolved, f.dropped, m.callsUnder id f.since⟩

/-- The future has submitted an operation under the id. -/
def Awaits (m : Machine) (i : Nat) (id : HostOpId) : Prop :=
  ∃ f, m.futures[i]? = some f ∧ f.state = .submitted id

/-- A poll that submits an operation finds a slot for it and a generation that the slot did not have
before. -/
def Fitting (m : Machine) : Event → Prop
  | .poll i _ =>
    ∀ f kind, m.futures[i]? = some f → f.dropped = false → f.state = .pending kind →
      m.chan.canSubmit = true → m.chan.Fits
  | _ => True

/-- A future is unsubmitted, without a result, or it is submitted. -/
def WellFormed (m : Machine) (f : HostOpFuture) : Prop :=
  f.since ≤ m.calls.length ∧
    ((∃ kind, f.state = .pending kind ∧ f.resolved = none) ∨ ∃ id, f.state = .submitted id)

structure Inv (m : Machine) : Prop where
  wf : m.chan.Wf
  issued : ∀ i id, m.Awaits i id → m.chan.table.Issued id.key
  distinct : ∀ i j id, m.Awaits i id → m.Awaits j id → i = j
  wellFormed : ∀ f ∈ m.futures, m.WellFormed f

variable {willWake : Waker → Waker → Bool} {m m' : Machine} {e : Event} {i j : Nat}
  {f g : HostOpFuture} {id id' : HostOpId} {kind : HostOpKind} {waker : Waker}

/-! ### The invariant -/

lemma Inv.new (maxPending : Nat) : (new maxPending).Inv where
  wf := ⟨⟨rfl, List.nodup_nil, by simp [Machine.new, table], rfl⟩, by simp [Machine.new]⟩
  issued := by simp [Machine.new, Awaits]
  distinct := by simp [Machine.new, Awaits]
  wellFormed := by simp [Machine.new]

lemma Inv.future_cases (h : m.Inv) (i : Nat) :
    (∀ f, m.futures[i]? = some f → f.dropped = true) ∨
      ∃ f, m.futures[i]? = some f ∧ f.dropped = false ∧
        ((∃ kind, f.state = .pending kind ∧ f.resolved = none) ∨
          ∃ id, f.state = .submitted id) := by
  have hdone : ∀ f ∈ m.futures, f.state ≠ .done := by
    intro f hf hstate
    rcases (h.wellFormed f hf).2 with ⟨kind, hkind, _⟩ | ⟨id, hid⟩ <;> simp_all
  rcases Machine.future_cases hdone i with hnone | ⟨f, hf, hdropped, _⟩
  · exact .inl hnone
  · exact .inr ⟨f, hf, hdropped, (h.wellFormed f (List.mem_of_getElem? hf)).2⟩

/-- A step that submits nothing keeps the invariant if it keeps the table's. -/
lemma Inv.transport (h : m.Inv) (hwf : m'.chan.Wf)
    (hissued : ∀ key, m.chan.table.Issued key → m'.chan.table.Issued key)
    (hawaits : ∀ i id, m'.Awaits i id → m.Awaits i id)
    (hformed : ∀ f ∈ m'.futures, m'.WellFormed f) : m'.Inv where
  wf := hwf
  issued i id hid := hissued _ (h.issued i id (hawaits i id hid))
  distinct i j id hi hj := h.distinct i j id (hawaits i id hi) (hawaits j id hj)
  wellFormed := hformed

/-- A future that is put in place of another of the same state. -/
lemma awaits_set (hf : m.futures[i]? = some f) (hstate : g.state = f.state)
    (hfutures : m'.futures = m.futures.set i g) : m'.Awaits j id → m.Awaits j id := by
  rintro ⟨f', hf', hid⟩
  rw [hfutures, List.getElem?_set] at hf'
  split_ifs at hf' with hij hlt
  · cases hf'
    exact ⟨f, hij ▸ hf, hstate ▸ hid⟩
  · exact ⟨f', hf', hid⟩

lemma WellFormed.mono (h : m.WellFormed f) (hcalls : m.calls.length ≤ m'.calls.length) :
    m'.WellFormed f := ⟨Nat.le_trans h.1 hcalls, h.2⟩

lemma wellFormed_set (h : m.Inv) (hg : m'.WellFormed g)
    (hfutures : m'.futures = m.futures.set i g) (hcalls : m'.calls = m.calls) :
    ∀ f ∈ m'.futures, m'.WellFormed f := by
  intro f hf
  rw [hfutures] at hf
  rcases List.mem_or_eq_of_mem_set hf with hf | rfl
  · exact (h.wellFormed f hf).mono (Nat.le_of_eq (congrArg List.length hcalls.symm))
  · exact hg

/-- A step that changes the slots and puts a future in place of another of the same state. -/
lemma Inv.set (h : m.Inv) (hwf : m'.chan.Wf)
    (hissued : ∀ key, m.chan.table.Issued key → m'.chan.table.Issued key)
    (hf : m.futures[i]? = some f) (hfutures : m'.futures = m.futures.set i g)
    (hcalls : m'.calls = m.calls) (hstate : g.state = f.state) (hsince : g.since = f.since)
    (hresolved : (∃ kind, f.state = .pending kind) → g.resolved = f.resolved) : m'.Inv := by
  refine h.transport hwf hissued (fun j id => awaits_set hf hstate hfutures) ?_
  refine wellFormed_set h ⟨?_, ?_⟩ hfutures hcalls
  · rw [hsince, hcalls]
    exact (h.wellFormed f (List.mem_of_getElem? hf)).1
  · rw [hstate]
    rcases (h.wellFormed f (List.mem_of_getElem? hf)).2 with ⟨kind, hkind, hnone⟩ | hid
    · exact .inl ⟨kind, hkind, (hresolved ⟨kind, hkind⟩).trans hnone⟩
    · exact .inr hid

lemma takePending_wf {c : HostChannelInner} (h : c.Wf) : c.takePending.2.Wf :=
  takePending_keeps (P := Wf) h (fun _ _ _ hc _ => ⟨hc.table_wf, hc.length_le⟩)
    fun _ _ hc => hc.update

lemma takePending_issued {c : HostChannelInner} {key : Key} (h : c.table.Issued key) :
    c.takePending.2.table.Issued key :=
  takePending_keeps (P := fun c => c.table.Issued key) h (fun _ _ _ hc _ => hc)
    fun _ _ hc => issued_update.mpr hc

/-- A submission adds an id that was never issued. -/
lemma Inv.submit (h : m.Inv) (hfits : m.chan.Fits) (hf : m.futures[i]? = some f)
    (hchan : m'.chan = (m.chan.submit kind).2.update (m.chan.submit kind).1 (pollSlot waker))
    (hfutures : m'.futures = m.futures.set i g) (hcalls : m'.calls = m.calls)
    (hg : g.state = .submitted (m.chan.submit kind).1) (hsince : g.since = m.calls.length) :
    m'.Inv := by
  obtain ⟨htable, hkey⟩ := submit_insert kind h.wf hfits
  have hcases : ∀ j id, m'.Awaits j id → (j = i ∧ id = (m.chan.submit kind).1) ∨ m.Awaits j id := by
    rintro j id ⟨f', hf', hid⟩
    rw [hfutures, List.getElem?_set] at hf'
    split_ifs at hf' with hij hlt
    · cases hf'
      rw [hg] at hid
      cases hid
      exact .inl ⟨hij.symm, rfl⟩
    · exact .inr ⟨f', hf', hid⟩
  have hnew : ∀ j, ¬ m.Awaits j (m.chan.submit kind).1 := by
    intro j hj
    have hissued := h.issued j _ hj
    rw [hkey] at hissued
    exact GenTable.not_issued_nextKey hissued
  refine ⟨?_, ?_, ?_, ?_⟩
  · rw [hchan]
    exact (h.wf.submit kind hfits).update
  · intro j id hj
    rw [hchan, issued_update, htable]
    rcases hcases j id hj with ⟨rfl, rfl⟩ | hj
    · rw [hkey]
      exact GenTable.issued_insert_nextKey h.wf.table_wf
    · exact GenTable.issued_insert h.wf.table_wf (h.issued j id hj)
  · intro j k id hj hk
    rcases hcases j id hj with ⟨rfl, rfl⟩ | hj'
    · rcases hcases k _ hk with ⟨rfl, _⟩ | hk'
      · rfl
      · exact absurd hk' (hnew k)
    · rcases hcases k id hk with ⟨rfl, rfl⟩ | hk'
      · exact absurd hj' (hnew j)
      · exact h.distinct j k id hj' hk'
  · apply wellFormed_set h _ hfutures hcalls
    exact ⟨Nat.le_of_eq (by rw [hsince, hcalls]), .inr ⟨_, hg⟩⟩

/-- A fresh operation is pending after its first poll. -/
lemma pollFuture_fits (h : m.Inv) (hfits : m.chan.Fits) (hf : m.futures[i]? = some f)
    (hdropped : f.dropped = false) (hstate : f.state = .pending kind)
    (hresolved : f.resolved = none) (hroom : m.chan.canSubmit = true) :
    m.pollFuture willWake i waker =
      (.pending,
        { m with
          chan := (m.chan.submit kind).2.update (m.chan.submit kind).1 (pollSlot waker)
          futures := m.futures.set i
            { state := .submitted (m.chan.submit kind).1
              ticket := m.submitted.length
              since := m.calls.length }
          submitted := m.submitted ++
            [{ request := ⟨(m.chan.submit kind).1, kind, m.chan.currentTask⟩ }] }) := by
  have hlookup : (m.chan.submit kind).2.lookup (m.chan.submit kind).1 = some {} := by
    rw [lookup_submit h.wf kind hfits, if_pos rfl]
  rw [pollFuture_room hf hdropped hstate hroom]
  simp [pollResult_of_some _ hlookup, hresolved, readyResult]

lemma Inv.step (h : m.Inv) (hfit : m.Fitting e) : (m.step willWake e).Inv := by
  have hsame : ∀ {chan : HostChannelInner}, chan.table = m.chan.table →
      ∀ key, m.chan.table.Issued key → chan.table.Issued key := by
    intro chan htable key hkey
    rwa [htable]
  cases e with
  | create kind =>
    refine h.transport h.wf (hsame rfl) ?_ ?_
    · rintro i id ⟨f, hf, hid⟩
      rw [Machine.step, createFuture, List.getElem?_append] at hf
      split_ifs at hf with hlt
      · exact ⟨f, hf, hid⟩
      · have hmem := List.mem_of_getElem? hf
        simp only [List.mem_singleton] at hmem
        rw [hmem] at hid
        cases hid
    · intro f hf
      rcases List.mem_append.mp hf with hf | hf
      · exact (h.wellFormed f hf).mono (Nat.le_refl _)
      · cases List.mem_singleton.mp hf
        exact ⟨Nat.zero_le _, .inl ⟨kind, rfl, rfl⟩⟩
  | poll i waker =>
    rw [Machine.step]
    rcases h.future_cases i with hnone | ⟨f, hf, hdropped, ⟨kind, hstate, hresolved⟩ | ⟨id, hstate⟩⟩
    · rw [pollFuture_none hnone]
      exact h
    · cases hroom : m.chan.canSubmit with
      | false =>
        rw [pollFuture_full hf hdropped hstate hroom]
        exact h.set (sameSlots_register.wf h.wf) (hsame sameSlots_register.table) hf rfl rfl
          rfl rfl fun _ => rfl
      | true =>
        have hfits := hfit f kind hf hdropped hstate hroom
        rw [pollFuture_fits h hfits hf hdropped hstate hresolved hroom]
        exact h.submit hfits hf rfl rfl rfl rfl rfl
    · rw [pollFuture_submitted hf hdropped hstate]
      refine h.set ?_ ?_ hf rfl rfl rfl rfl ?_
      · simp only [pollResult_eq]
        exact h.wf.update
      · simp only [pollResult_eq]
        exact fun key hkey => issued_update.mpr hkey
      · rintro ⟨kind, hkind⟩
        rw [hstate] at hkind
        cases hkind
  | drop i =>
    rw [Machine.step]
    rcases h.future_cases i with hnone | ⟨f, hf, hdropped, ⟨kind, hstate, _⟩ | ⟨id, hstate⟩⟩
    · rw [dropFuture_none hnone]
      exact h
    · rw [dropFuture_pending hf hdropped hstate]
      exact h.set h.wf (hsame rfl) hf rfl rfl rfl rfl fun _ => rfl
    · rw [dropFuture_submitted hf hdropped hstate]
      refine h.set h.wf.update (fun key hkey => issued_update.mpr hkey) hf rfl rfl rfl rfl ?_
      exact fun _ => rfl
  | take =>
    exact h.transport (takePending_wf h.wf) (fun key hkey => takePending_issued hkey)
      (fun _ _ hid => hid) fun f hf => (h.wellFormed f hf).mono (Nat.le_refl _)
  | call id call =>
    obtain ⟨wakers, hcall⟩ := call_eq m.chan id call
    refine h.transport ?_ ?_ (fun _ _ hid => hid) fun f hf => (h.wellFormed f hf).mono ?_
    · show (m.chan.call id call).Wf
      rw [hcall]
      exact sameSlots_wakeAll.wf h.wf.update
    · show ∀ key, m.chan.table.Issued key → (m.chan.call id call).table.Issued key
      rw [hcall]
      exact fun key hkey => issued_update.mpr hkey
    · simp [Machine.step, hostCall]
  | setTask task =>
    exact h.transport ⟨h.wf.table_wf, h.wf.length_le⟩ (hsame rfl) (fun _ _ hid => hid)
      fun f hf => (h.wellFormed f hf).mono (Nat.le_refl _)

/-! ### Steps of one operation -/

lemma callsUnder_call {n : Nat} (hn : n ≤ m.calls.length) (c : HostCall) :
    (m.hostCall id' c).callsUnder id n =
      m.callsUnder id n ++ if id' = id then [c] else [] := by
  simp only [callsUnder, hostCall, List.drop_append_of_le_length hn, List.filter_append,
    List.map_append]
  by_cases hid : id' = id <;> simp [hid]

/-- Taking requests frees the slot of an operation only if it was cancelled. -/
lemma lookup_takePending (c : HostChannelInner) (id : HostOpId) :
    c.takePending.2.lookup id = c.lookup id ∨
      c.takePending.2.lookup id = (c.lookup id).bind purgeSlot := by
  have hidem : ∀ o : Option PendingSlot,
      (o.bind purgeSlot).bind purgeSlot = o.bind purgeSlot := by
    intro o
    rcases o with _ | slot
    · rfl
    · by_cases hcancelled : slot.cancelled = true <;> simp [purgeSlot, hcancelled]
  refine takePending_keeps
    (P := fun c' => c'.lookup id = c.lookup id ∨ c'.lookup id = (c.lookup id).bind purgeSlot)
    (.inl rfl) (fun _ _ _ hc _ => hc) ?_
  intro c' id' hc
  rw [lookup_update]
  split_ifs with hid
  · subst hid
    rcases hc with hc | hc
    · exact .inr (by rw [hc])
    · exact .inr (by rw [hc, hidem])
  · exact hc

lemma operation_congr (hlookup : m'.chan.lookup id = m.chan.lookup id)
    (hcalls : m'.calls = m.calls) : m'.operation f id = m.operation f id := by
  rw [operation, operation, callsUnder, callsUnder, hlookup, hcalls]

/-- A future other than the one that was put in place of another has another id. -/
lemma Inv.ne_id (h : m.Inv) (hf : m.futures[i]? = some f) (hstate : f.state = .submitted id')
    (hg : m.futures[j]? = some g) (hid : g.state = .submitted id) (hne : i ≠ j) : id ≠ id' := by
  rintro rfl
  exact hne (h.distinct i j id ⟨f, hf, hstate⟩ ⟨g, hg, hid⟩)

lemma Inv.ne_submit (kind : HostOpKind) (h : m.Inv) (hfits : m.chan.Fits)
    (hg : m.futures[j]? = some g) (hid : g.state = .submitted id) :
    id ≠ (m.chan.submit kind).1 := by
  rintro rfl
  have hissued := h.issued j _ ⟨g, hg, hid⟩
  rw [(submit_insert kind h.wf hfits).2] at hissued
  exact GenTable.not_issued_nextKey hissued

variable {admitted : HostCall → Prop}

/-- A poll of a submitted operation, as a step of the operation. -/
lemma step_poll (hdropped : f.dropped = false)
    (hchan : m'.chan = (m.chan.pollResult waker id).2) (hcalls : m'.calls = m.calls)
    (hg : g = { f with
      parked := none, resolved := f.resolved.or (readyResult (m.chan.pollResult waker id).1) }) :
    Operation.Step admitted (m.operation f id) (m'.operation g id) := by
  cases hlookup : m.chan.lookup id with
  | none =>
    obtain ⟨err, hpoll⟩ := pollResult_of_none waker hlookup
    have hstep : m'.operation g id =
        { m.operation f id with resolved := f.resolved.or (some (.error err)) } := by
      rw [hpoll] at hchan hg
      simp [operation, callsUnder, hchan, hcalls, hg, readyResult]
    rw [hstep]
    exact .pollGone hdropped hlookup
  | some slot =>
    have hpoll := pollResult_of_some waker hlookup
    have hstep : m'.operation g id =
        { m.operation f id with
          slot := pollSlot waker slot, resolved := f.resolved.or slot.result } := by
      rw [hpoll] at hchan hg
      simp only [operation, callsUnder, hchan, hcalls, hg, lookup_update, hlookup]
      cases slot.result <;> rfl
    rw [hstep]
    exact .poll hdropped hlookup

/-- A call of the host under the id of an operation. -/
lemma operation_hostCall (id : HostOpId) (hsince : f.since ≤ m.calls.length) (c : HostCall) :
    (m.hostCall id c).operation f id = (m.operation f id).called c := by
  obtain ⟨wakers, hcall⟩ := call_eq m.chan id c
  have hlookup : (m.hostCall id c).chan.lookup id = (m.chan.lookup id).bind c.onSlot := by
    show (m.chan.call id c).lookup id = _
    rw [hcall, lookup_wakeAll, lookup_update, if_pos rfl]
  rw [operation, operation, callsUnder_call hsince, hlookup, if_pos rfl, Operation.called]

/-- A call under another id leaves an operation alone. -/
lemma operation_hostCall_ne (hsince : f.since ≤ m.calls.length) (hne : id ≠ id') (c : HostCall) :
    (m.hostCall id' c).operation f id = m.operation f id := by
  obtain ⟨wakers, hcall⟩ := call_eq m.chan id' c
  have hlookup : (m.hostCall id' c).chan.lookup id = m.chan.lookup id := by
    show (m.chan.call id' c).lookup id = _
    rw [hcall, lookup_wakeAll, lookup_update, if_neg hne]
  rw [operation, operation, callsUnder_call hsince, hlookup, if_neg hne.symm, List.append_nil]

/-- A future that is left alone, with its slot and its calls. -/
lemma operation_stutter (hf : m.futures[j]? = some g) (hid : g.state = .submitted id)
    (hlookup : m'.chan.lookup id = m.chan.lookup id) (hcalls : m'.calls = m.calls) :
    ∃ f, m.futures[j]? = some f ∧ f.state = .submitted id ∧
      Operation.Step admitted (m.operation f id) (m'.operation g id) := by
  rw [operation_congr hlookup hcalls]
  exact ⟨g, hf, hid, .stutter⟩

/-- A poll submits an operation, polls it or leaves it alone. -/
lemma operation_pollFuture (h : m.Inv) (hfit : m.Fitting (.poll i waker))
    (hg : (m.pollFuture willWake i waker).2.futures[j]? = some g) (hid : g.state = .submitted id) :
    (∃ waker', (m.pollFuture willWake i waker).2.operation g id =
        { slot := some { waker := some waker' } }) ∨
      ∃ f, m.futures[j]? = some f ∧ f.state = .submitted id ∧
        Operation.Step admitted (m.operation f id)
          ((m.pollFuture willWake i waker).2.operation g id) := by
  rcases h.future_cases i with
    hnone | ⟨f, hf, hdropped, ⟨kind, hstate, hresolved⟩ | ⟨id', hstate⟩⟩
  · rw [pollFuture_none hnone] at hg ⊢
    exact .inr (operation_stutter hg hid rfl rfl)
  · cases hroom : m.chan.canSubmit with
    | false =>
      right
      rw [pollFuture_full hf hdropped hstate hroom] at hg ⊢
      rw [List.getElem?_set] at hg
      split_ifs at hg with hij hlt
      · cases hg
        rw [hstate] at hid
        cases hid
      · exact operation_stutter hg hid sameSlots_register.lookup rfl
    | true =>
      have hfits := hfit f kind hf hdropped hstate hroom
      rw [pollFuture_fits h hfits hf hdropped hstate hresolved hroom] at hg ⊢
      rw [List.getElem?_set] at hg
      split_ifs at hg with hij hlt
      · cases hg
        cases hid
        left
        refine ⟨waker, ?_⟩
        simp [operation, callsUnder, lookup_update, lookup_submit h.wf kind hfits, pollSlot]
      · right
        have hne := h.ne_submit kind hfits hg hid
        refine operation_stutter hg hid ?_ rfl
        rw [lookup_update, if_neg hne, lookup_submit h.wf kind hfits, if_neg hne]
  · right
    rw [pollFuture_submitted hf hdropped hstate] at hg ⊢
    rw [List.getElem?_set] at hg
    split_ifs at hg with hij hlt
    · cases hg
      rw [hstate] at hid
      cases hid
      exact ⟨f, hij ▸ hf, hstate, step_poll hdropped rfl rfl rfl⟩
    · refine operation_stutter hg hid ?_ rfl
      simp only [pollResult_eq]
      rw [lookup_update, if_neg (h.ne_id hf hstate hg hid hij)]

/-- A drop purges the slot of the operation, or leaves it alone. -/
lemma operation_dropFuture (h : m.Inv) (hg : (m.dropFuture i).futures[j]? = some g)
    (hid : g.state = .submitted id) :
    ∃ f, m.futures[j]? = some f ∧ f.state = .submitted id ∧
      Operation.Step admitted (m.operation f id) ((m.dropFuture i).operation g id) := by
  rcases h.future_cases i with hnone | ⟨f, hf, hdropped, ⟨kind, hstate, _⟩ | ⟨id', hstate⟩⟩
  · rw [dropFuture_none hnone] at hg ⊢
    exact operation_stutter hg hid rfl rfl
  · rw [dropFuture_pending hf hdropped hstate] at hg ⊢
    rw [List.getElem?_set] at hg
    split_ifs at hg with hij hlt
    · cases hg
      rw [hstate] at hid
      cases hid
    · exact operation_stutter hg hid rfl rfl
  · rw [dropFuture_submitted hf hdropped hstate] at hg ⊢
    rw [List.getElem?_set] at hg
    split_ifs at hg with hij hlt
    · cases hg
      rw [hstate] at hid
      cases hid
      refine ⟨f, hij ▸ hf, hstate, ?_⟩
      rw [operation, operation, lookup_update, if_pos rfl]
      exact .drop
    · refine operation_stutter hg hid ?_ rfl
      rw [lookup_update, if_neg (h.ne_id hf hstate hg hid hij)]

/-- Every step is, for an operation that was submitted before, a step of that operation; an
operation that is submitted by the step starts with an empty slot. -/
theorem operation_step (h : m.Inv) (hfit : m.Fitting e)
    (hg : (m.step willWake e).futures[j]? = some g) (hid : g.state = .submitted id) :
    (∃ waker, (m.step willWake e).operation g id = { slot := some { waker := some waker } }) ∨
      ∃ f, m.futures[j]? = some f ∧ f.state = .submitted id ∧
        Operation.Step (fun c => e = .call id c) (m.operation f id)
          ((m.step willWake e).operation g id) := by
  cases e with
  | create kind =>
    right
    rw [Machine.step, createFuture, List.getElem?_append] at hg
    split_ifs at hg with hlt
    · exact operation_stutter hg hid rfl rfl
    · have hmem := List.mem_of_getElem? hg
      rw [List.mem_singleton.mp hmem] at hid
      cases hid
  | poll i waker => exact operation_pollFuture h hfit hg hid
  | drop i => exact .inr (operation_dropFuture h hg hid)
  | take =>
    right
    rcases lookup_takePending m.chan id with hlookup | hlookup
    · exact operation_stutter hg hid hlookup rfl
    · refine ⟨g, hg, hid, ?_⟩
      have hchan : (m.step willWake .take).chan.lookup id = (m.chan.lookup id).bind purgeSlot :=
        hlookup
      rw [operation, operation, hchan]
      exact .purge
  | call id' c =>
    right
    have hsince := (h.wellFormed g (List.mem_of_getElem? hg)).1
    refine ⟨g, hg, hid, ?_⟩
    rw [Machine.step]
    by_cases hne : id = id'
    · subst hne
      rw [operation_hostCall _ hsince]
      exact .call rfl
    · rw [operation_hostCall_ne hsince hne]
      exact .stutter
  | setTask task => exact .inr (operation_stutter hg hid rfl rfl)

variable {ok : Machine → Event → Prop} {maxPending : Nat}

lemma inv_of_reachable (h : Reachable willWake ok maxPending m)
    (hfit : ∀ m e, ok m e → m.Fitting e) : m.Inv := by
  refine h.invariant (I := Inv) (Inv.new maxPending) ?_
  rintro m e m' hm hok rfl
  exact hm.step (hfit m e hok)

/-- What holds of a fresh operation and is kept by its steps holds of every operation in every
reachable state; `admits` limits the calls under the id of an operation. -/
theorem operation_invariant {P : Operation → Prop} (admits : Operation → HostCall → Prop)
    (h : Reachable willWake ok maxPending m) (hfit : ∀ m e, ok m e → m.Fitting e)
    (hadmits : ∀ m id c, ok m (.call id c) → ∀ f ∈ m.futures, f.state = .submitted id →
      admits (m.operation f id) c)
    (hfresh : ∀ waker, P { slot := some { waker := some waker } })
    (hstep : ∀ o o', P o → Operation.Step (admits o) o o' → P o') :
    ∀ f ∈ m.futures, ∀ id, f.state = .submitted id → P (m.operation f id) := by
  refine h.invariant_of (J := Inv)
    (I := fun m => ∀ f ∈ m.futures, ∀ id, f.state = .submitted id → P (m.operation f id))
    (fun m hm => inv_of_reachable hm hfit) (fun f hf => absurd hf List.not_mem_nil) ?_
  rintro m e m' hinv _ hP hok rfl g hg id hid
  obtain ⟨j, hj⟩ := List.getElem?_of_mem hg
  rcases operation_step hinv (hfit m e hok) hj hid with ⟨waker, hfresh'⟩ | ⟨f, hf, hstate, hop⟩
  · rw [hfresh']
    exact hfresh waker
  · have hmem := List.mem_of_getElem? hf
    apply hstep _ _ (hP f hmem id hstate)
    apply hop.mono
    rintro c rfl
    exact hadmits m id c hok f hmem hstate

end Machine

end AmlaSandbox.Host
