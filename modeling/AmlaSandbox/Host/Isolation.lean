import AmlaSandbox.Host.Exhaustion

/-!
# Isolation of host operations

The host may make calls under any ids. An operation resolves only with what was passed under its own
id, and a call changes the operation of its id only.
-/

namespace AmlaSandbox.Host

open Async Library HostChannelInner

/-- The data that a call passes. -/
def HostCall.payload : HostCall → Option (List UInt8)
  | .complete (.ok data) => some data
  | .chunk data _ => some data
  | _ => none

/-- The bytes are those of some of the calls, in order. -/
def PassedBytes (calls : List HostCall) (bytes : List UInt8) : Prop :=
  ∃ chunks : List (List UInt8), chunks.Sublist (calls.filterMap HostCall.payload) ∧
    bytes = chunks.flatten

/-- The result was passed by the calls, or is the error for chunks that are too long. -/
def Passed (calls : List HostCall) : HostResult → Prop
  | .ok bytes => PassedBytes calls bytes
  | .error e =>
    .complete (.error e) ∈ calls ∨
      ∃ data eof limit, .chunk data eof ∈ calls ∧ e = overflowError limit

namespace Operation

variable {calls : List HostCall} {c : HostCall} {bytes data : List UInt8} {result : HostResult}
  {o o' : Operation} {slot slot' : PendingSlot}

lemma passedBytes_nil : PassedBytes calls [] := ⟨[], List.nil_sublist _, rfl⟩

lemma passedBytes_append (h : PassedBytes calls bytes) : PassedBytes (calls ++ [c]) bytes := by
  obtain ⟨chunks, hsub, hbytes⟩ := h
  refine ⟨chunks, ?_, hbytes⟩
  rw [List.filterMap_append]
  exact hsub.trans (List.sublist_append_left _ _)

/-- A chunk is passed after those before it. -/
lemma passedBytes_chunk (h : PassedBytes calls bytes) (hc : c.payload = some data) :
    PassedBytes (calls ++ [c]) (bytes ++ data) := by
  obtain ⟨chunks, hsub, hbytes⟩ := h
  refine ⟨chunks ++ [data], ?_, by simp [hbytes]⟩
  rw [List.filterMap_append]
  simpa [hc] using hsub

lemma passed_append (h : Passed calls result) : Passed (calls ++ [c]) result := by
  cases result with
  | ok bytes => exact passedBytes_append h
  | error e =>
    rcases h with h | ⟨data, eof, limit, h, he⟩
    · exact .inl (List.mem_append_left _ h)
    · exact .inr ⟨data, eof, limit, List.mem_append_left _ h, he⟩

/-- A slot holds only what was passed by the calls. -/
structure OwnSlot (calls : List HostCall) (slot : PendingSlot) : Prop where
  buffer : PassedBytes calls slot.buffer
  result : ∀ r, slot.result = some r → Passed calls r

lemma OwnSlot.call (h : OwnSlot calls slot) (hslot : c.onSlot slot = some slot') :
    OwnSlot (calls ++ [c]) slot' := by
  obtain ⟨hbuffer, hresult⟩ := h
  have hresult' : ∀ r, slot.result = some r → Passed (calls ++ [c]) r := fun r hr =>
    passed_append (hresult r hr)
  cases c with
  | complete result =>
    rw [HostCall.onSlot] at hslot
    split_ifs at hslot with hcancelled
    cases hslot
    refine ⟨passedBytes_append hbuffer, ?_⟩
    rintro r ⟨⟩
    cases result with
    | ok bytes => exact passedBytes_chunk passedBytes_nil rfl
    | error e => exact .inl (List.mem_append_right _ (List.mem_singleton.mpr rfl))
  | chunk data eof =>
    have hchunk : PassedBytes (calls ++ [.chunk data eof]) (slot.buffer ++ data) :=
      passedBytes_chunk hbuffer rfl
    rw [HostCall.onSlot] at hslot
    split_ifs at hslot with hcancelled hlimit heof
    · cases hslot
      refine ⟨passedBytes_append hbuffer, ?_⟩
      rintro r ⟨⟩
      exact .inr ⟨data, eof, _, List.mem_append_right _ (List.mem_singleton.mpr rfl), rfl⟩
    · cases hslot
      refine ⟨passedBytes_nil, ?_⟩
      rintro r ⟨⟩
      exact hchunk
    · cases hslot
      exact ⟨hchunk, hresult'⟩
  | clearBuffer =>
    cases hslot
    exact ⟨passedBytes_nil, hresult'⟩

/-- A call leaves a slot that is not cancelled in place. -/
lemma onSlot_live (c : HostCall) (h : slot.cancelled = false) :
    ∃ slot', c.onSlot slot = some slot' ∧ slot'.cancelled = false ∧
      slot'.bufferLimit = slot.bufferLimit := by
  cases c with
  | complete result => simp [HostCall.onSlot, h]
  | chunk data eof =>
    simp only [HostCall.onSlot, h, Bool.false_eq_true, if_false]
    split_ifs <;> exact ⟨_, rfl, rfl, rfl⟩
  | clearBuffer => exact ⟨_, rfl, h, rfl⟩

/-- What a poll, a drop or a take leaves of a slot holds no more than before. -/
lemma OwnSlot.of_eq (h : OwnSlot calls slot) (hbuffer : slot'.buffer = slot.buffer)
    (hresult : slot'.result = slot.result) : OwnSlot calls slot' :=
  ⟨hbuffer ▸ h.buffer, hresult ▸ h.result⟩

/-- An operation has only what was passed to it; until its future is dropped or resolved, its slot
is its own. -/
structure Owned (o : Operation) : Prop where
  slot : ∀ slot, o.slot = some slot → OwnSlot o.calls slot
  resolved : ∀ r, o.resolved = some r → Passed o.calls r
  live : o.dropped = false → o.resolved = none → ∃ slot, o.slot = some slot ∧ slot.cancelled = false

lemma owned_fresh (waker : Waker) : Owned { slot := some { waker := some waker } } where
  slot := by
    rintro slot ⟨⟩
    exact ⟨passedBytes_nil, nofun⟩
  resolved := nofun
  live _ _ := ⟨_, rfl, rfl⟩

lemma Owned.step {admitted : HostCall → Prop} (h : o.Owned) (hstep : o.Step admitted o') :
    o'.Owned := by
  obtain ⟨hown, hresolved, hlive⟩ := h
  cases hstep with
  | stutter => exact ⟨hown, hresolved, hlive⟩
  | @call c hc =>
    refine ⟨?_, fun r hr => passed_append (hresolved r hr), fun hdropped hnone => ?_⟩
    · intro slot' hslot'
      obtain ⟨slot, hslot, hcall⟩ := Option.bind_eq_some_iff.mp hslot'
      exact (hown slot hslot).call hcall
    · obtain ⟨slot, hslot, hcancelled⟩ := hlive hdropped hnone
      obtain ⟨slot', hslot', hcancelled', _⟩ := onSlot_live c hcancelled
      exact ⟨slot', slot_called hslot hslot', hcancelled'⟩
  | @poll waker slot hdropped hslot =>
    refine ⟨?_, ?_, ?_⟩
    · intro slot' hslot'
      rw [pollSlot] at hslot'
      split_ifs at hslot' with hresult
      cases hslot'
      exact (hown slot hslot).of_eq rfl rfl
    · intro r hr
      rcases Option.or_eq_some_iff.mp hr with hr | ⟨_, hr⟩
      · exact hresolved r hr
      · exact (hown slot hslot).result r hr
    · intro _ hnone
      obtain ⟨hnone, hresult⟩ := Option.or_eq_none_iff.mp hnone
      obtain ⟨slot', hslot', hcancelled⟩ := hlive hdropped hnone
      rw [hslot] at hslot'
      cases hslot'
      exact ⟨{ slot with waker := register slot.waker waker }, by simp [pollSlot, hresult],
        hcancelled⟩
  | @pollGone e hdropped hslot =>
    have hsome : o.resolved ≠ none := by
      intro hnone
      obtain ⟨slot, hslot', _⟩ := hlive hdropped hnone
      rw [hslot] at hslot'
      cases hslot'
    obtain ⟨r, hr⟩ := Option.ne_none_iff_exists'.mp hsome
    simp only [hr, Option.some_or]
    exact ⟨hown, fun r' hr' => hresolved r' (hr.trans hr'),
      fun _ hnone => absurd hnone (Option.some_ne_none r)⟩
  | drop =>
    refine ⟨?_, hresolved, fun hdropped => ?_⟩
    · intro slot' hslot'
      obtain ⟨slot, hslot, hcancel⟩ := Option.bind_eq_some_iff.mp hslot'
      rw [cancelSlot] at hcancel
      split_ifs at hcancel with hresult
      cases hcancel
      exact (hown slot hslot).of_eq rfl rfl
    · cases hdropped
  | purge =>
    refine ⟨?_, hresolved, fun hdropped hnone => ?_⟩
    · intro slot' hslot'
      obtain ⟨slot, hslot, hpurge⟩ := Option.bind_eq_some_iff.mp hslot'
      rw [purgeSlot] at hpurge
      split_ifs at hpurge with hcancelled
      cases hpurge
      exact hown _ hslot
    · obtain ⟨slot, hslot, hcancelled⟩ := hlive hdropped hnone
      exact ⟨slot, by simp [hslot, purgeSlot, hcancelled], hcancelled⟩

end Operation

/-! ### Isolation -/

namespace Machine

variable {willWake : Waker → Waker → Bool} {m : Machine} {maxPending : Nat}

/-- Host operations do not get at each other: each has an id of its own and resolves with what was
passed under it since its submission; a call under an id that is current for no slot does nothing,
and any other call leaves the operations of other ids alone; the free list is exactly the empty
slots, each once. -/
structure Isolated (m : Machine) : Prop where
  own_id : ∀ i j id, m.Awaits i id → m.Awaits j id → i = j
  own_data : ∀ f ∈ m.futures, ∀ r, f.resolved = some r →
    ∃ id, f.state = .submitted id ∧ Passed (m.callsUnder id f.since) r
  stale : ∀ id c, m.chan.lookup id = none → m.chan.call id c = m.chan
  others : ∀ id c f id', f ∈ m.futures → f.state = .submitted id' → id' ≠ id →
    (m.hostCall id c).operation f id' = m.operation f id'
  free_nodup : m.chan.freeSlots.Nodup
  mem_free : ∀ i, i ∈ m.chan.freeSlots ↔ m.chan.slots[i]? = some none

/-- Two operations that are answered in turn. -/
def twoOperations : List Event :=
  [.create (.print 0 []), .poll 0 7, .create (.print 1 []), .poll 1 8, .take, .take,
    .call (.encode 1 0) (.chunk [1] false), .call (.encode 1 1) (.complete (.ok [9])),
    .call (.encode 1 0) (.chunk [2] true), .poll 0 7]

lemma owned_of_reachable (h : Reachable willWake Fitting maxPending m) :
    ∀ f ∈ m.futures, ∀ id, f.state = .submitted id → (m.operation f id).Owned :=
  operation_invariant (fun _ _ => True) h (fun _ _ hok => hok) (fun _ _ _ _ _ _ _ => trivial)
    Operation.owned_fresh fun _ _ ho hstep => ho.step hstep

/-- In every run in which no slot runs out of generations and there are no more slots than indices,
host operations are isolated. -/
theorem isolated_of_fitting (maxPending : Nat) (m : Machine)
    (h : Reachable willWake Fitting maxPending m) : m.Isolated := by
  have hinv : m.Inv := inv_of_reachable h fun _ _ hok => hok
  have howned := owned_of_reachable h
  refine ⟨hinv.distinct, ?_, ?_, ?_, hinv.wf.table_wf.free_nodup, hinv.wf.table_wf.mem_free⟩
  · intro f hf r hr
    rcases (hinv.wellFormed f hf).2 with ⟨kind, _, hnone⟩ | ⟨id, hid⟩
    · rw [hr] at hnone
      cases hnone
    · exact ⟨id, hid, (howned f hf id hid).resolved r hr⟩
  · exact fun id c hlookup => call_of_none hlookup c
  · intro id c f id' hf _ hne
    exact operation_hostCall_ne (hinv.wellFormed f hf).1 hne c

/-- An operation resolves with the chunks under its id, although another completes in between. -/
theorem isolated_two :
    (run Waker.willWake 2 twoOperations).futures.map (·.resolved) = [some (.ok [1, 2]), none] ∧
      (run Waker.willWake 2 twoOperations).Isolated := by
  refine ⟨by decide, isolated_of_fitting 2 _ (reachable_run Waker.willWake ?_)⟩
  exact ⟨trivial, fun _ _ _ _ _ _ => fits_of_no_free (by decide) (by decide), trivial,
    fun _ _ _ _ _ _ => fits_of_no_free (by decide) (by decide), trivial, trivial, trivial,
    trivial, trivial, fun _ _ _ _ _ _ => fits_of_no_free (by decide) (by decide), trivial⟩

/-- A slot is reused only under a generation that it did not have before. -/
def FewReuses (m : Machine) : Event → Prop
  | .poll i _ =>
    ∀ f kind, m.futures[i]? = some f → f.dropped = false → f.state = .pending kind →
      m.chan.canSubmit = true → ∀ idx ∈ m.chan.freeSlots.head?, m.chan.slotInfo[idx]? ≠ some 0
  | _ => True

/-- With more slots than indices, a slot stays empty that is not free. -/
theorem not_isolated_of_fewReuses :
    ¬ ∀ maxPending m, Reachable Waker.willWake FewReuses maxPending m → m.Isolated := by
  intro h
  obtain ⟨m, hreach, hfilled⟩ := exists_filled Waker.willWake (Nat.le_refl (2 ^ 32))
  have hmono : Reachable Waker.willWake FewReuses 1 (m.oneMore Waker.willWake) := by
    refine (hfilled.reachable_oneMore hreach).mono ?_
    rintro m (_ | ⟨i, waker⟩ | _ | _ | _ | _) hquiet <;> try trivial
    intro f kind _ _ _ _ idx hidx
    have hfree : m.chan.freeSlots = [] := hquiet
    rw [hfree] at hidx
    cases hidx
  have hmem := (h 1 _ hmono).mem_free (2 ^ 32)
  rw [hfilled.oneMore_eq _ (Nat.le_refl _)] at hmem
  have hempty := hmem.mpr ?_
  · simp only [hfilled.free_eq] at hempty
    cases hempty
  · have hindex : m.nextRequest.id.index = 0 := by
      rw [nextRequest, hfilled.length_slots, HostOpId.index_wraps]
    show (List.set _ m.nextRequest.id.index _)[2 ^ 32]? = _
    rw [hindex, List.getElem?_set_ne (by decide),
      List.getElem?_append_right (Nat.le_of_eq hfilled.length_slots), hfilled.length_slots,
      Nat.sub_self]
    rfl

end Machine

end AmlaSandbox.Host
