import AmlaSandbox.Pipe.Machine

/-!
# Wakeups of pipes

A parked poll waits in a waker slot until it is woken. There is one slot for all readers and one for
all writers, and closing the pipe wakes readers only; where no user is forgotten in this way, every
parked poll that could go on has been woken.
-/

namespace AmlaSandbox.Pipes

open Async Library

namespace PipeInner

/-- A parked reader: woken, or in the slot of an empty pipe. -/
def ReaderAttended (p : PipeInner) (parked : Parked) : Prop :=
  Waits parked p.woken (p.readWaker = some parked.waker ∧ p.len = 0 ∧ p.closed = false)

/-- A parked writer: woken, or in the slot of a full pipe that will wake it at the next read. -/
def WriterAttended (p : PipeInner) (parked : Parked) : Prop :=
  Waits parked p.woken (p.writeWaker = some parked.waker ∧ p.writerBlocked ∧ p.wasFull ∧ p.isFull ∧
    p.closed = false)

variable {p : PipeInner} {parked : Parked} {waker : Waker} {bufLen pos : Nat} {data : List UInt8}
  {due registered : Bool}

/-! ### Readers -/

lemma ReaderAttended.wakeBlockedWriter (h : p.ReaderAttended parked) :
    (p.wakeBlockedWriter due).ReaderAttended parked := by
  unfold PipeInner.wakeBlockedWriter
  split_ifs
  · exact h.wake fun _ harmed => .inr harmed
  · exact h

/-- The poll of another reader takes over the slot. -/
lemma ReaderAttended.pollRead (h : p.ReaderAttended parked)
    (hslot : p.len = 0 → p.closed = false → ¬ parked.Woken p.woken → parked.waker = waker) :
    (p.pollRead waker bufLen).2.ReaderAttended parked := by
  by_cases hlen : p.len = 0
  · cases hclosed : p.closed with
    | true =>
      rw [pollRead_closed hlen hclosed]
      exact h
    | false =>
      rw [pollRead_empty hlen hclosed]
      apply h.change
      intro hwoken _
      rw [hslot hlen hclosed hwoken]
      exact ⟨rfl, hlen, hclosed⟩
  · obtain ⟨bytes, head, due, _, heq⟩ := pollRead_nonempty waker bufLen hlen
    rw [heq]
    apply ReaderAttended.wakeBlockedWriter
    exact h.change fun _ ⟨_, hempty, _⟩ => absurd hempty hlen

lemma ReaderAttended.pollWrite (h : p.ReaderAttended parked) :
    (p.pollWrite waker data).2.ReaderAttended parked := by
  cases hclosed : p.closed with
  | true =>
    rw [pollWrite_closed hclosed]
    exact h
  | false =>
    cases hfull : p.isFull with
    | true =>
      rw [pollWrite_full hfull hclosed]
      exact h
    | false =>
      obtain ⟨n, buffer, tail, wasFull, readerBlocked, heq⟩ :=
        pollWrite_room waker data hfull hclosed
      rw [heq]
      exact h.wake fun _ ⟨hslot, _⟩ => .inl (by simp [hslot])

lemma ReaderAttended.push (h : p.ReaderAttended parked) :
    (p.push data).2.ReaderAttended parked := by
  obtain ⟨buffer, tail, heq⟩ := push_eq p data
  rw [heq]
  dsimp only
  split_ifs
  · exact h.wake fun _ ⟨hslot, _⟩ => .inl (by simp [hslot])
  · exact h

lemma ReaderAttended.pushAllFrom (h : p.ReaderAttended parked) :
    (p.pushAllFrom data pos).2.2.ReaderAttended parked :=
  pushAllFrom_keeps (P := fun p => p.ReaderAttended parked) h fun _ _ hp => hp.push

lemma ReaderAttended.drain (h : p.ReaderAttended parked) : p.drain.2.ReaderAttended parked := by
  unfold PipeInner.drain
  split_ifs with hlen
  · exact h
  · obtain ⟨bytes, head, heq⟩ := readInto_eq (p := p) (n := p.len)
    rw [heq]
    apply ReaderAttended.wakeBlockedWriter
    exact h.change fun _ ⟨_, hempty, _⟩ => absurd hempty hlen

lemma ReaderAttended.close (h : p.ReaderAttended parked) : p.close.ReaderAttended parked :=
  h.wake fun _ ⟨hslot, _⟩ => .inl (by simp [hslot])

/-- The drop of another reader's future empties the slot. -/
lemma ReaderAttended.dropRead (h : p.ReaderAttended parked)
    (hslot : registered = true → parked.Woken p.woken) :
    (p.dropRead registered).ReaderAttended parked := by
  unfold PipeInner.dropRead
  split_ifs with hregistered
  · exact h.change fun hwoken _ => absurd (hslot hregistered) hwoken
  · exact h

lemma ReaderAttended.dropWrite (h : p.ReaderAttended parked) :
    (p.dropWrite registered).ReaderAttended parked := by
  unfold PipeInner.dropWrite
  split_ifs <;> exact h

/-- A read poll that parks waits in the slot. -/
lemma readerAttended_pollRead
    (h : parkedBy (p.pollRead waker bufLen).1 waker (p.pollRead waker bufLen).2.woken =
      some parked) : (p.pollRead waker bufLen).2.ReaderAttended parked := by
  by_cases hlen : p.len = 0
  · cases hclosed : p.closed with
    | true =>
      rw [pollRead_closed hlen hclosed] at h
      cases h
    | false =>
      rw [pollRead_empty hlen hclosed] at h ⊢
      cases h
      exact waits_now ⟨rfl, hlen, hclosed⟩
  · obtain ⟨bytes, head, due, _, heq⟩ := pollRead_nonempty waker bufLen hlen
    rw [heq] at h
    cases h

/-! ### Writers -/

/-- A blocked writer that is due is woken. -/
lemma writerAttended_wakeBlockedWriter
    (h : Waits parked p.woken (p.writeWaker = some parked.waker ∧ p.writerBlocked = true ∧
      due = true)) : (p.wakeBlockedWriter due).WriterAttended parked := by
  unfold PipeInner.wakeBlockedWriter
  split_ifs with hwake
  · exact h.wake fun _ ⟨hslot, _⟩ => .inl (by simp [hslot])
  · exact h.change fun _ ⟨_, hblocked, hdue⟩ => absurd (by simp [hblocked, hdue]) hwake

lemma WriterAttended.pollRead (h : p.WriterAttended parked) :
    (p.pollRead waker bufLen).2.WriterAttended parked := by
  by_cases hlen : p.len = 0
  · cases hclosed : p.closed with
    | true =>
      rw [pollRead_closed hlen hclosed]
      exact h
    | false =>
      rw [pollRead_empty hlen hclosed]
      exact h
  · obtain ⟨bytes, head, due, hdue, heq⟩ := pollRead_nonempty waker bufLen hlen
    rw [heq]
    apply writerAttended_wakeBlockedWriter
    exact h.change fun _ ⟨hslot, hblocked, hfull, _⟩ => ⟨hslot, hblocked, hdue hfull⟩

/-- The poll of another writer takes over the slot. -/
lemma WriterAttended.pollWrite (h : p.WriterAttended parked)
    (hslot : p.isFull = true → p.closed = false → ¬ parked.Woken p.woken →
      parked.waker = waker) :
    (p.pollWrite waker data).2.WriterAttended parked := by
  cases hclosed : p.closed with
  | true =>
    rw [pollWrite_closed hclosed]
    exact h
  | false =>
    cases hfull : p.isFull with
    | true =>
      rw [pollWrite_full hfull hclosed]
      apply h.change
      intro hwoken _
      rw [hslot hfull hclosed hwoken]
      exact ⟨rfl, rfl, rfl, hfull, hclosed⟩
    | false =>
      obtain ⟨n, buffer, tail, wasFull, readerBlocked, heq⟩ :=
        pollWrite_room waker data hfull hclosed
      rw [heq]
      apply h.wake
      rintro _ ⟨_, _, _, hfull', _⟩
      rw [hfull] at hfull'
      cases hfull'

lemma WriterAttended.push (h : p.WriterAttended parked) :
    (p.push data).2.WriterAttended parked := by
  cases hfull : p.isFull with
  | true =>
    rw [push_full hfull]
    exact h
  | false =>
    have hnot : ∀ {armed : Prop}, p.isFull = true ∧ p.closed = false → armed := by
      rintro _ ⟨hfull', _⟩
      rw [hfull] at hfull'
      cases hfull'
    obtain ⟨buffer, tail, heq⟩ := push_eq p data
    rw [heq]
    dsimp only
    split_ifs
    · exact h.wake fun _ ⟨_, _, _, hrest⟩ => hnot hrest
    · exact h.change fun _ ⟨_, _, _, hrest⟩ => hnot hrest

lemma WriterAttended.pushAllFrom (h : p.WriterAttended parked) :
    (p.pushAllFrom data pos).2.2.WriterAttended parked :=
  pushAllFrom_keeps (P := fun p => p.WriterAttended parked) h fun _ _ hp => hp.push

lemma WriterAttended.drain (h : p.WriterAttended parked) : p.drain.2.WriterAttended parked := by
  unfold PipeInner.drain
  split_ifs with hlen
  · exact h
  · obtain ⟨bytes, head, heq⟩ := readInto_eq (p := p) (n := p.len)
    rw [heq]
    apply writerAttended_wakeBlockedWriter
    exact h.change fun _ ⟨hslot, hblocked, _⟩ => ⟨hslot, hblocked, rfl⟩

/-- Closing does not wake writers. -/
lemma WriterAttended.close (h : p.WriterAttended parked) (hwoken : parked.Woken p.woken) :
    p.close.WriterAttended parked :=
  h.wake fun hnot _ => absurd hwoken hnot

lemma WriterAttended.dropRead (h : p.WriterAttended parked) :
    (p.dropRead registered).WriterAttended parked := by
  unfold PipeInner.dropRead
  split_ifs <;> exact h

/-- The drop of another writer's future empties the slot. -/
lemma WriterAttended.dropWrite (h : p.WriterAttended parked)
    (hslot : registered = true → parked.Woken p.woken) :
    (p.dropWrite registered).WriterAttended parked := by
  unfold PipeInner.dropWrite
  split_ifs with hregistered
  · exact h.change fun hwoken _ => absurd (hslot hregistered) hwoken
  · exact h

/-- A write poll that parks waits in the slot. -/
lemma writerAttended_pollWrite
    (h : parkedBy (p.pollWrite waker data).1 waker (p.pollWrite waker data).2.woken =
      some parked) : (p.pollWrite waker data).2.WriterAttended parked := by
  cases hclosed : p.closed with
  | true =>
    rw [pollWrite_closed hclosed] at h
    cases h
  | false =>
    cases hfull : p.isFull with
    | true =>
      rw [pollWrite_full hfull hclosed] at h ⊢
      cases h
      exact waits_now ⟨rfl, rfl, rfl, hfull, hclosed⟩
    | false =>
      obtain ⟨n, buffer, tail, wasFull, readerBlocked, heq⟩ :=
        pollWrite_room waker data hfull hclosed
      rw [heq] at h
      cases h

end PipeInner

namespace Machine

variable {m : Machine} {capacity : Nat}

/-- A reader whose last poll returned `Pending` and was not woken since. -/
def ReaderWaits (m : Machine) (reader : Nat) (parked : Parked) : Prop :=
  m.readers reader = some parked ∧ ¬ parked.Woken m.pipe.woken

/-- A writer whose last poll returned `Pending` and was not woken since. -/
def WriterWaits (m : Machine) (writer : Nat) (parked : Parked) : Prop :=
  m.writers writer = some parked ∧ ¬ parked.Woken m.pipe.woken

/-- The event takes the slot from nobody who waits in it: a poll that parks shares its waker with
all who wait on its side, a parked future is dropped when nobody else waits there, and the pipe is
closed when no writer waits. -/
def ForgetsNobody (m : Machine) : Event → Prop
  | .pollRead reader waker _ =>
    m.pipe.isEmpty = true → m.pipe.closed = false →
      ∀ r parked, r ≠ reader → m.ReaderWaits r parked → parked.waker = waker
  | .pollWrite writer waker _ =>
    m.pipe.isFull = true → m.pipe.closed = false →
      ∀ w parked, w ≠ writer → m.WriterWaits w parked → parked.waker = waker
  | .dropRead reader =>
    (m.readers reader).isSome = true → ∀ r parked, r ≠ reader → ¬ m.ReaderWaits r parked
  | .dropWrite writer =>
    (m.writers writer).isSome = true → ∀ w parked, w ≠ writer → ¬ m.WriterWaits w parked
  | .close => ∀ w parked, ¬ m.WriterWaits w parked
  | _ => True

/-- Every parked poll whose repetition would return `Ready` has been woken since. -/
structure NoLostWakeup (m : Machine) : Prop where
  reader : ∀ r parked bufLen, m.readers r = some parked →
    (m.pipe.pollRead parked.waker bufLen).1 ≠ .pending → parked.Woken m.pipe.woken
  writer : ∀ w parked data, m.writers w = some parked →
    (m.pipe.pollWrite parked.waker data).1 ≠ .pending → parked.Woken m.pipe.woken

/-- All parked polls are attended. -/
structure Attended (m : Machine) : Prop where
  reader : ∀ r parked, m.readers r = some parked → m.pipe.ReaderAttended parked
  writer : ∀ w parked, m.writers w = some parked → m.pipe.WriterAttended parked

lemma Attended.noLostWakeup (h : m.Attended) : m.NoLostWakeup where
  reader r parked bufLen hr hready := by
    apply (h.reader r parked hr).woken_or_armed.resolve_right
    rintro ⟨_, hlen, hclosed⟩
    rw [PipeInner.pollRead_empty hlen hclosed] at hready
    exact hready rfl
  writer w parked data hw hready := by
    apply (h.writer w parked hw).woken_or_armed.resolve_right
    rintro ⟨_, _, _, hfull, hclosed⟩
    rw [PipeInner.pollWrite_full hfull hclosed] at hready
    exact hready rfl

/-- Every event that forgets nobody keeps the parked polls attended. -/
lemma Attended.step (h : m.Attended) {e : Event} (hok : m.ForgetsNobody e) :
    (m.step e).Attended := by
  obtain ⟨hreader, hwriter⟩ := h
  cases e with
  | pollRead reader waker bufLen =>
    refine ⟨fun r parked hr => ?_, fun w parked hw => (hwriter w parked hw).pollRead⟩
    simp only [Machine.step, Function.update_apply] at hr
    split_ifs at hr with hself
    · exact PipeInner.readerAttended_pollRead hr
    · apply (hreader r parked hr).pollRead
      intro hlen hclosed hwoken
      exact hok (by simp [PipeInner.isEmpty, hlen]) hclosed r parked hself ⟨hr, hwoken⟩
  | pollWrite writer waker data =>
    refine ⟨fun r parked hr => (hreader r parked hr).pollWrite, fun w parked hw => ?_⟩
    simp only [Machine.step, Function.update_apply] at hw
    split_ifs at hw with hself
    · exact PipeInner.writerAttended_pollWrite hw
    · apply (hwriter w parked hw).pollWrite
      intro hfull hclosed hwoken
      exact hok hfull hclosed w parked hself ⟨hw, hwoken⟩
  | dropRead reader =>
    refine ⟨fun r parked hr => ?_, fun w parked hw => (hwriter w parked hw).dropRead⟩
    simp only [Machine.step, Function.update_apply] at hr
    split_ifs at hr with hself
    apply (hreader r parked hr).dropRead
    intro hregistered
    by_contra hwoken
    exact hok hregistered r parked hself ⟨hr, hwoken⟩
  | dropWrite writer =>
    refine ⟨fun r parked hr => (hreader r parked hr).dropWrite, fun w parked hw => ?_⟩
    simp only [Machine.step, Function.update_apply] at hw
    split_ifs at hw with hself
    apply (hwriter w parked hw).dropWrite
    intro hregistered
    by_contra hwoken
    exact hok hregistered w parked hself ⟨hw, hwoken⟩
  | push data =>
    exact ⟨fun r parked hr => (hreader r parked hr).push,
      fun w parked hw => (hwriter w parked hw).push⟩
  | pushAll data =>
    exact ⟨fun r parked hr => (hreader r parked hr).pushAllFrom,
      fun w parked hw => (hwriter w parked hw).pushAllFrom⟩
  | drain =>
    exact ⟨fun r parked hr => (hreader r parked hr).drain,
      fun w parked hw => (hwriter w parked hw).drain⟩
  | close =>
    refine ⟨fun r parked hr => (hreader r parked hr).close, fun w parked hw => ?_⟩
    apply (hwriter w parked hw).close
    by_contra hwoken
    exact hok w parked ⟨hw, hwoken⟩

/-- In every run that forgets nobody no wakeup is lost. -/
theorem noLostWakeup_of_forgetsNobody (capacity : Nat) (m : Machine)
    (h : Reachable ForgetsNobody capacity m) : m.NoLostWakeup := by
  apply Attended.noLostWakeup
  refine h.invariant (I := Attended) ⟨nofun, nofun⟩ ?_
  rintro m e m' hm hok rfl
  exact hm.step hok

/-- A parked reader is woken by the push that lets it go on. -/
theorem noLostWakeup_after_push :
    (run 4 [.pollRead 0 7 4, .push [1]]).readers 0 = some ⟨7, 0⟩ ∧
      Parked.Woken ⟨7, 0⟩ (run 4 [.pollRead 0 7 4, .push [1]]).pipe.woken := by
  refine ⟨by decide, ?_⟩
  have hreach : Reachable ForgetsNobody 4 (run 4 [.pollRead 0 7 4, .push [1]]) :=
    reachable_run ⟨fun _ _ _ _ _ hwaits => (by cases hwaits.1), trivial, trivial⟩
  exact (noLostWakeup_of_forgetsNobody 4 _ hreach).reader 0 ⟨7, 0⟩ 4 (by decide) (by decide)

/-- A writer parked at a full pipe is not woken when the pipe is closed. -/
theorem lostWakeup_close :
    ¬ ∀ capacity m, Reachable anyEvent capacity m → m.NoLostWakeup := by
  intro h
  have hwoken := (h 1 _ (reachable_any 1 [.push [1], .pollWrite 0 7 [2], .close])).writer
    0 ⟨7, 0⟩ [2] (by decide) (by decide)
  revert hwoken
  decide

end Machine

end AmlaSandbox.Pipes
