import AmlaSandbox.Host.Isolation
import Mathlib.Data.List.Induction

/-!
# The result of a host operation

What the calls under an id make up: chunks are gathered until a call completes the operation, and
later calls change nothing. The channel differs where a call comes after a result or completes an
operation beside its chunks.
-/

namespace AmlaSandbox.Host

open Async Library HostChannelInner

/-- What the calls under an id have made up so far. -/
inductive Gathered
  | chunks (buffer : List UInt8)
  | final (result : HostResult)
deriving DecidableEq

namespace Gathered

def next : Gathered → HostCall → Gathered
  | .final result, _ => .final result
  | .chunks buffer, .complete (.ok data) => .final (.ok (buffer ++ data))
  | .chunks _, .complete (.error e) => .final (.error e)
  | .chunks buffer, .chunk data eof =>
    if buffer.length + data.length > defaultChunkBufferLimit then
      .final (.error (overflowError defaultChunkBufferLimit))
    else if eof then .final (.ok (buffer ++ data))
    else .chunks (buffer ++ data)
  | .chunks buffer, .clearBuffer => .chunks buffer

def result? : Gathered → Option HostResult
  | .chunks _ => none
  | .final result => some result

lemma eq_final {g : Gathered} {result : HostResult} (h : g.result? = some result) :
    g = .final result := by
  cases g with
  | chunks buffer => cases h
  | final result' => exact congrArg Gathered.final (Option.some.inj h)

end Gathered

def gathered (calls : List HostCall) : Gathered := calls.foldl Gathered.next (.chunks [])

section

variable {calls : List HostCall} {c : HostCall} {buffer data : List UInt8} {result : HostResult}

lemma gathered_append (calls : List HostCall) (c : HostCall) :
    gathered (calls ++ [c]) = (gathered calls).next c := by
  rw [gathered, List.foldl_append]
  rfl

/-- The first call that completes the operation decides. -/
lemma gathered_final (h : gathered calls = .final result) (more : List HostCall) :
    gathered (calls ++ more) = .final result := by
  rw [gathered, List.foldl_append]
  change more.foldl Gathered.next (gathered calls) = _
  rw [h]
  induction more with
  | nil => rfl
  | cons c more ih => exact ih

end

/-! ### What a slot holds -/

/-- The slot holds what was gathered. -/
def Holds (slot : PendingSlot) : Gathered → Prop
  | .chunks buffer => slot.result = none ∧ slot.buffer = buffer
  | .final result => slot.result = some result

lemma Holds.of_eq {slot slot' : PendingSlot} {g : Gathered} (h : Holds slot g)
    (hbuffer : slot'.buffer = slot.buffer) (hresult : slot'.result = slot.result) :
    Holds slot' g := by
  cases g with
  | chunks buffer => exact ⟨hresult.trans h.1, hbuffer.trans h.2⟩
  | final result => exact hresult.trans h

lemma Holds.result_eq {slot : PendingSlot} {g : Gathered} (h : Holds slot g) :
    slot.result = g.result? := by
  cases g with
  | chunks buffer => exact h.1
  | final result => exact h

/-- A call that does not disturb the slot: it completes an operation that has no result, and with
data only one that has no chunks; or it has the result again that is there. -/
def OrderlyCall (slot : PendingSlot) : HostCall → Prop
  | .complete result =>
    (slot.result = none → result.isOk = true → slot.buffer = []) ∧
      ∀ result' ∈ slot.result, result = result'
  | .chunk data eof =>
    if slot.buffer.length + data.length > slot.bufferLimit then
      ∀ result ∈ slot.result, result = .error (overflowError slot.bufferLimit)
    else eof = true → ∀ result ∈ slot.result, result = .ok (slot.buffer ++ data)
  | .clearBuffer => True

instance (slot : PendingSlot) : (c : HostCall) → Decidable (OrderlyCall slot c)
  | .complete result =>
    inferInstanceAs (Decidable
      ((slot.result = none → result.isOk = true → slot.buffer = []) ∧
        ∀ result' ∈ slot.result, result = result'))
  | .chunk data eof =>
    inferInstanceAs (Decidable
      (if slot.buffer.length + data.length > slot.bufferLimit then
        ∀ result ∈ slot.result, result = .error (overflowError slot.bufferLimit)
      else eof = true → ∀ result ∈ slot.result, result = .ok (slot.buffer ++ data)))
  | .clearBuffer => inferInstanceAs (Decidable True)

section

variable {slot slot' : PendingSlot} {g : Gathered} {c : HostCall}

/-- Exactly the orderly calls keep the result what was gathered. -/
lemma orderlyCall_iff (hlimit : slot.bufferLimit = defaultChunkBufferLimit)
    (hcancelled : slot.cancelled = false) (hholds : Holds slot g) (hc : c ≠ .clearBuffer)
    (hslot : c.onSlot slot = some slot') :
    slot'.result = (g.next c).result? ↔ OrderlyCall slot c := by
  cases c with
  | complete result =>
    simp only [HostCall.onSlot, hcancelled, Bool.false_eq_true, if_false] at hslot
    cases hslot
    cases g with
    | chunks buffer =>
      obtain ⟨hnone, rfl⟩ := hholds
      cases result <;> simp [Gathered.next, Gathered.result?, OrderlyCall, hnone, Except.isOk,
        Except.toBool]
    | final result' =>
      have hsome : slot.result = some result' := hholds
      simp [Gathered.next, Gathered.result?, OrderlyCall, hsome]
  | chunk data eof =>
    simp only [HostCall.onSlot, hcancelled, Bool.false_eq_true, if_false] at hslot
    rw [OrderlyCall]
    cases g with
    | chunks buffer =>
      obtain ⟨hnone, rfl⟩ := hholds
      rw [Gathered.next, ← hlimit]
      split_ifs at hslot ⊢ <;> cases hslot <;> simp [Gathered.result?, hnone]
    | final result' =>
      have hsome : slot.result = some result' := hholds
      rw [Gathered.next, Gathered.result?, hsome]
      split_ifs at hslot ⊢ with hover heof
      · cases hslot
        simp [eq_comm]
      · cases hslot
        simp [heof, eq_comm]
      · cases hslot
        simp [heof, hsome]
  | clearBuffer => exact absurd rfl hc

lemma Holds.call (hlimit : slot.bufferLimit = defaultChunkBufferLimit)
    (hcancelled : slot.cancelled = false) (hholds : Holds slot g) (hc : c ≠ .clearBuffer)
    (horderly : OrderlyCall slot c) (hslot : c.onSlot slot = some slot') :
    Holds slot' (g.next c) := by
  have hresult := (orderlyCall_iff hlimit hcancelled hholds hc hslot).mpr horderly
  cases hnext : g.next c with
  | final result =>
    rw [hnext] at hresult
    exact hresult
  | chunks buffer =>
    rw [hnext] at hresult
    refine ⟨hresult, ?_⟩
    cases g with
    | final result => cases hnext
    | chunks b =>
      obtain ⟨_, rfl⟩ := hholds
      rcases c with ⟨_ | data⟩ | ⟨data, eof⟩ | _
      · cases hnext
      · cases hnext
      · simp only [HostCall.onSlot, hcancelled, Bool.false_eq_true, if_false] at hslot
        rw [Gathered.next, ← hlimit] at hnext
        split_ifs at hslot hnext
        cases hslot
        cases hnext
        rfl
      · exact absurd rfl hc

end

/-! ### Operations -/

namespace Operation

variable {o o' : Operation}

/-- The slot of an operation that can still resolve holds what was gathered, and a resolved
operation has resolved with it. -/
structure Matched (o : Operation) : Prop where
  open_slot : o.dropped = false → o.resolved = none → ∃ slot, o.slot = some slot ∧
    slot.cancelled = false ∧ slot.bufferLimit = defaultChunkBufferLimit ∧
    Holds slot (gathered o.calls)
  resolved : ∀ result, o.resolved = some result → gathered o.calls = .final result

/-- A call to an operation that can still resolve does not disturb its slot. -/
def Orderly (o : Operation) (c : HostCall) : Prop :=
  o.dropped = false → o.resolved = none → ∀ slot ∈ o.slot, OrderlyCall slot c

instance (o : Operation) (c : HostCall) : Decidable (o.Orderly c) :=
  inferInstanceAs (Decidable
    (o.dropped = false → o.resolved = none → ∀ slot ∈ o.slot, OrderlyCall slot c))

lemma matched_fresh (waker : Waker) : Matched { slot := some { waker := some waker } } where
  open_slot _ _ := ⟨_, rfl, rfl, rfl, rfl, rfl⟩
  resolved := nofun

lemma Matched.step (h : o.Matched)
    (hstep : o.Step (fun c => c ≠ .clearBuffer ∧ o.Orderly c) o') : o'.Matched := by
  obtain ⟨hopen, hresolved⟩ := h
  cases hstep with
  | stutter => exact ⟨hopen, hresolved⟩
  | @call c hc =>
    refine ⟨fun hdropped hnone => ?_, fun result hresult => ?_⟩
    · obtain ⟨slot, hslot, hcancelled, hlimit, hholds⟩ := hopen hdropped hnone
      obtain ⟨slot', hcall, hcancelled', hlimit'⟩ := onSlot_live c hcancelled
      refine ⟨slot', slot_called hslot hcall, hcancelled', hlimit'.trans hlimit, ?_⟩
      rw [called, gathered_append]
      exact hholds.call hlimit hcancelled hc.1 (hc.2 hdropped hnone slot hslot) hcall
    · exact gathered_final (hresolved result hresult) [c]
  | @poll waker slot hdropped hslot =>
    refine ⟨fun _ hnone => ?_, fun result hresult => ?_⟩
    · obtain ⟨hnone, hresult⟩ := Option.or_eq_none_iff.mp hnone
      obtain ⟨slot', hslot', hcancelled, hlimit, hholds⟩ := hopen hdropped hnone
      rw [hslot] at hslot'
      cases hslot'
      refine ⟨{ slot with waker := register slot.waker waker }, by simp [pollSlot, hresult],
        hcancelled, hlimit, hholds.of_eq rfl rfl⟩
    · rcases Option.or_eq_some_iff.mp hresult with hresult | ⟨hnone, hresult⟩
      · exact hresolved result hresult
      · obtain ⟨slot', hslot', _, _, hholds⟩ := hopen hdropped hnone
        rw [hslot] at hslot'
        cases hslot'
        rw [hholds.result_eq] at hresult
        exact Gathered.eq_final hresult
  | @pollGone e hdropped hslot =>
    have hsome : o.resolved ≠ none := by
      intro hnone
      obtain ⟨slot, hslot', _⟩ := hopen hdropped hnone
      rw [hslot] at hslot'
      cases hslot'
    obtain ⟨result, hresult⟩ := Option.ne_none_iff_exists'.mp hsome
    simp only [hresult, Option.some_or]
    exact ⟨fun _ hnone => absurd hnone (Option.some_ne_none result),
      fun r hr => hresolved r (hresult.trans hr)⟩
  | drop =>
    refine ⟨fun hdropped => ?_, hresolved⟩
    cases hdropped
  | purge =>
    refine ⟨fun hdropped hnone => ?_, hresolved⟩
    obtain ⟨slot, hslot, hcancelled, hrest⟩ := hopen hdropped hnone
    exact ⟨slot, by simp [hslot, purgeSlot, hcancelled], hcancelled, hrest⟩

end Operation

/-! ### Runs -/

namespace Machine

variable {willWake : Waker → Waker → Bool} {m : Machine} {e : Event} {events : List Event}

/-- The result of every operation is what the calls under its id made up: that is what a poll
returned or, while the operation can still resolve, what a poll would return. -/
def FirstWins (m : Machine) : Prop :=
  ∀ f ∈ m.futures, ∀ id, f.state = .submitted id →
    (∀ result, f.resolved = some result → gathered (m.callsUnder id f.since) = .final result) ∧
    (f.dropped = false → f.resolved = none → ∀ waker,
      readyResult (m.chan.pollResult waker id).1 = (gathered (m.callsUnder id f.since)).result?)

/-- Ids do not run out, and no buffer is cleared. -/
def Serving (m : Machine) : Event → Prop
  | .call _ c => c ≠ .clearBuffer
  | e => m.Fitting e

lemma Serving.fitting (h : m.Serving e) : m.Fitting e := by
  cases e with
  | call => trivial
  | create | poll | drop | take | setTask => exact h

/-- No call disturbs the slot of an operation that can still resolve. -/
def Orderly (m : Machine) : Event → Prop
  | .call id c => ∀ f ∈ m.futures, f.state = .submitted id → (m.operation f id).Orderly c
  | _ => True

instance (m : Machine) : (e : Event) → Decidable (m.Orderly e)
  | .call id c =>
    inferInstanceAs (Decidable (∀ f ∈ m.futures, f.state = .submitted id →
      (m.operation f id).Orderly c))
  | .create _ | .poll _ _ | .drop _ | .take | .setTask _ => inferInstanceAs (Decidable True)

def Matched (m : Machine) : Prop :=
  ∀ f ∈ m.futures, ∀ id, f.state = .submitted id → (m.operation f id).Matched

lemma readyResult_pollResult {c : HostChannelInner} {id : HostOpId} {slot : PendingSlot}
    {waker : Waker} (h : c.lookup id = some slot) :
    readyResult (c.pollResult waker id).1 = slot.result := by
  rw [pollResult_of_some _ h]
  cases slot.result <;> rfl

lemma Matched.firstWins (h : m.Matched) : m.FirstWins := by
  intro f hf id hid
  obtain ⟨hopen, hresolved⟩ := h f hf id hid
  refine ⟨hresolved, fun hdropped hnone waker => ?_⟩
  obtain ⟨slot, hslot, _, _, hholds⟩ := hopen hdropped hnone
  rw [readyResult_pollResult hslot]
  exact hholds.result_eq

lemma Matched.step (h : m.Matched) (hinv : m.Inv) (hserving : m.Serving e)
    (horderly : m.Orderly e) :
    (m.step willWake e).Matched := by
  intro g hg id hid
  obtain ⟨j, hj⟩ := List.getElem?_of_mem hg
  rcases operation_step hinv hserving.fitting hj hid with ⟨waker, hfresh⟩ | ⟨f, hf, hstate, hop⟩
  · rw [hfresh]
    exact Operation.matched_fresh waker
  · have hmem := List.mem_of_getElem? hf
    apply (h f hmem id hstate).step
    apply hop.mono
    rintro c rfl
    exact ⟨hserving, horderly f hmem hstate⟩

/-- A call that disturbs the slot of an operation shows in the result of its next poll. -/
lemma orderly_of_firstWins (h : m.Matched) (hinv : m.Inv) (hserving : m.Serving e)
    (hwins : (m.step willWake e).FirstWins) : m.Orderly e := by
  cases e with
  | call id c =>
    intro f hf hstate hdropped hnone slot hslot
    obtain ⟨slot', hslot', hcancelled, hlimit, hholds⟩ :=
      (h f hf id hstate).open_slot hdropped hnone
    cases hslot.symm.trans hslot'
    obtain ⟨slot', hcall, _⟩ := Operation.onSlot_live c hcancelled
    have hop := operation_hostCall id (hinv.wellFormed f hf).1 c
    have hlookup : (m.hostCall id c).chan.lookup id = some slot' :=
      (congrArg Operation.slot hop).trans (Operation.slot_called hslot hcall)
    have hcalls : (m.hostCall id c).callsUnder id f.since = m.callsUnder id f.since ++ [c] :=
      congrArg Operation.calls hop
    have hresult := (hwins f hf id hstate).2 hdropped hnone 0
    rw [Machine.step, readyResult_pollResult hlookup, hcalls, gathered_append] at hresult
    exact (orderlyCall_iff hlimit hcancelled hholds hserving hcall).mp hresult
  | create | poll | drop | take | setTask => trivial

lemma matched_new (maxPending : Nat) : (new maxPending).Matched :=
  fun _ hf => absurd hf List.not_mem_nil

lemma firstWins_iff (h : m.Matched) (hinv : m.Inv)
    (hserving : Admits Serving (step willWake) m events) :
    (∀ n, ((events.take n).foldl (step willWake) m).FirstWins) ↔
      Admits Orderly (step willWake) m events := by
  induction events generalizing m with
  | nil =>
    refine iff_of_true (fun n => ?_) trivial
    rw [List.take_nil]
    exact h.firstWins
  | cons e events ih =>
    obtain ⟨hserving, hrest⟩ := hserving
    have hinv' : (m.step willWake e).Inv := hinv.step hserving.fitting
    constructor
    · intro hwins
      have horderly := orderly_of_firstWins h hinv hserving (hwins 1)
      exact ⟨horderly, (ih (h.step hinv hserving horderly) hinv' hrest).mp fun n => hwins (n + 1)⟩
    · rintro ⟨horderly, hall⟩ n
      cases n with
      | zero => exact h.firstWins
      | succ n => exact (ih (h.step hinv hserving horderly) hinv' hrest).mpr hall n

/-- In every state of a run, the result of each operation is what the calls under its id made up,
exactly if no call of the run disturbs the slot of an operation that can still resolve. -/
theorem firstWins_iff_orderly (maxPending : Nat) (events : List Event)
    (h : Admits Serving (step willWake) (new maxPending) events) :
    (∀ n, (run willWake maxPending (events.take n)).FirstWins) ↔
      Admits Orderly (step willWake) (new maxPending) events :=
  firstWins_iff (matched_new maxPending) (Inv.new maxPending) h

/-- Two operations whose calls come in turn and are orderly. -/
theorem firstWins_two : (run Waker.willWake 2 (twoOperations.take 11)).FirstWins := by
  refine (firstWins_iff_orderly 2 twoOperations ?_).mpr ?_ 11
  · exact ⟨trivial, fun _ _ _ _ _ _ => fits_of_no_free (by decide) (by decide), trivial,
      fun _ _ _ _ _ _ => fits_of_no_free (by decide) (by decide), trivial, trivial,
      HostCall.noConfusion, HostCall.noConfusion, HostCall.noConfusion,
      fun _ _ _ _ _ _ => fits_of_no_free (by decide) (by decide), trivial⟩
  · exact ⟨trivial, trivial, trivial, trivial, trivial, trivial, by decide, by decide, by decide,
      trivial, trivial⟩

/-- After a chunk was rejected, the next last chunk completes the operation without it. -/
theorem not_firstWins_overflow :
    ¬ ∀ maxPending events, Admits Serving (step Waker.willWake) (new maxPending) events →
      ∀ n, (run Waker.willWake maxPending (events.take n)).FirstWins := by
  intro h
  obtain ⟨data, hover⟩ : ∃ data : List UInt8, data.length > defaultChunkBufferLimit :=
    ⟨List.replicate (defaultChunkBufferLimit + 1) 0, by
      rw [List.length_replicate]
      exact Nat.lt_succ_self _⟩
  let id := HostOpId.encode 1 0
  let f : HostOpFuture := { state := .submitted id }
  let m := run Waker.willWake 1 [.create (.print 0 []), .poll 0 7, .take]
  obtain ⟨_, hwins⟩ := h 1 [.create (.print 0 []), .poll 0 7, .take, .call id (.chunk data false),
    .call id (.chunk [1] true)]
    ⟨trivial, fun _ _ _ _ _ _ => fits_of_no_free (by decide) (by decide), trivial,
      HostCall.noConfusion, HostCall.noConfusion, trivial⟩ 5 f
    (List.mem_singleton.mpr rfl : f ∈ [f]) id rfl
  let m' := (m.hostCall id (.chunk data false)).hostCall id (.chunk [1] true)
  have hlimit : 10485760 < data.length := by simpa [defaultChunkBufferLimit] using hover
  have hbefore : m.operation f id = { slot := some { waker := some 7 } } := by decide
  have hafter : m'.operation f id =
      ⟨some { result := some (.ok [1]) }, none, false, [.chunk data false, .chunk [1] true]⟩ := by
    rw [operation_hostCall _ (Nat.zero_le _), operation_hostCall _ (Nat.zero_le _), hbefore]
    simp [Operation.called, HostCall.onSlot, hlimit, defaultChunkBufferLimit]
  have hresult : readyResult (m'.chan.pollResult 0 id).1 =
      (gathered (m'.callsUnder id f.since)).result? := hwins rfl rfl 0
  clear_value m'
  have hlookup : m'.chan.lookup id = some { result := some (.ok [1]) } :=
    congrArg Operation.slot hafter
  have hcalls : m'.callsUnder id f.since = [.chunk data false, .chunk [1] true] :=
    congrArg Operation.calls hafter
  rw [readyResult_pollResult hlookup, hcalls] at hresult
  simp [gathered, Gathered.next, Gathered.result?, hlimit, defaultChunkBufferLimit] at hresult

end Machine

end AmlaSandbox.Host
