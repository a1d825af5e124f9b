import AmlaSandbox.Pipe.Fifo

/-!
# The end of file of pipes

A closed pipe refuses write polls, but `push` and `push_all` do not look at the closed flag while
there is room. The end of file is final exactly in the runs without such a push.
-/

namespace AmlaSandbox.Pipes

open Async Library

namespace PipeInner

variable {p : PipeInner} {waker : Waker} {bufLen n pos : Nat} {data : List UInt8}

/-- A read poll returns end of file. -/
def ReadsEof (p : PipeInner) (waker : Waker) (bufLen : Nat) : Prop :=
  (p.pollRead waker bufLen).1 = .ready (.ok [])

instance : Decidable (p.ReadsEof waker bufLen) := inferInstanceAs (Decidable (_ = _))

lemma readsEof_of_empty (hlen : p.len = 0) (hclosed : p.closed = true) :
    p.ReadsEof waker bufLen := by
  rw [ReadsEof, pollRead_closed hlen hclosed]

/-- Into a buffer that is not empty, only a closed pipe without data reads end of file. -/
lemma Wf.of_readsEof (h : p.Wf) (hbuf : 0 < bufLen) (heof : p.ReadsEof waker bufLen) :
    p.len = 0 ∧ p.closed = true := by
  by_cases hlen : p.len = 0
  · cases hclosed : p.closed with
    | true => exact ⟨hlen, rfl⟩
    | false =>
      rw [ReadsEof, pollRead_empty hlen hclosed] at heof
      cases heof
  · have hpos : 0 < p.buffer.length := Nat.lt_of_lt_of_le (Nat.pos_of_ne_zero hlen) h.len_le
    have hbytes : (p.pollRead waker bufLen).1 =
        .ready (.ok (Ring.slice p.buffer p.head (min bufLen p.len))) := by
      simp [pollRead, isEmpty, hlen, h.readInto_eq]
    rw [ReadsEof, hbytes] at heof
    have hnil : Ring.slice p.buffer p.head (min bufLen p.len) = [] := by
      simpa using heof
    have hcount : (Ring.slice p.buffer p.head (min bufLen p.len)).length = min bufLen p.len :=
      Ring.length_slice hpos
    rw [hnil] at hcount
    simp only [List.length_nil] at hcount
    omega

/-! ### The closed flag -/

lemma closed_pollRead : (p.pollRead waker bufLen).2.closed = p.closed := by
  by_cases hlen : p.len = 0
  · cases hclosed : p.closed with
    | true =>
      rw [pollRead_closed hlen hclosed]
      exact hclosed
    | false =>
      rw [pollRead_empty hlen hclosed]
      exact hclosed
  · obtain ⟨bytes, head, due, _, heq⟩ := pollRead_nonempty waker bufLen hlen
    rw [heq]
    simp only [wakeBlockedWriter]
    split_ifs <;> rfl

lemma closed_push : (p.push data).2.closed = p.closed := by
  obtain ⟨buffer, tail, heq⟩ := push_eq p data
  rw [heq]
  dsimp only
  split_ifs <;> rfl

lemma closed_pushAllFrom : (p.pushAllFrom data pos).2.2.closed = p.closed :=
  pushAllFrom_keeps (P := fun p' => p'.closed = p.closed) rfl fun _ _ hp => closed_push.trans hp

lemma closed_drain : p.drain.2.closed = p.closed := by
  unfold drain
  split_ifs
  · rfl
  · obtain ⟨bytes, head, heq⟩ := readInto_eq (p := p) (n := p.len)
    rw [heq]
    simp only [wakeBlockedWriter]
    split_ifs <;> rfl

/-! ### Pushing -/

lemma Wf.push_eq_zero (h : p.Wf) (data : List UInt8) :
    (p.push data).1 = 0 ↔ data = [] ∨ p.isFull = true := by
  obtain ⟨buffer, tail, heq⟩ := push_eq p data
  have hlen := h.len_le
  rw [heq, ← List.length_eq_zero_iff, isFull, beq_iff_eq]
  simp only [availableWrite]
  omega

lemma Wf.pushAllFrom_eq_self (h : p.Wf) :
    (p.pushAllFrom data 0).1 = 0 ↔ data = [] ∨ p.isFull = true := by
  have hzero := h.push_eq_zero data
  rw [pushAllFrom]
  split_ifs with hlt
  · rw [List.drop_zero]
    dsimp only
    split_ifs with hn hclosed
    · simp [hzero.mp hn]
    · simp [hzero.mp hn]
    · obtain ⟨k, hstop, _⟩ := moves_pushAllFrom (p.push data).2 data
        (0 + (p.push data).1)
      rw [hstop, ← hzero]
      omega
  · have hnil : data = [] := List.length_eq_zero_iff.mp (by omega)
    simp [hnil]

end PipeInner

namespace Machine

variable {m : Machine} {capacity : Nat}

/-- The event does not push bytes into a closed pipe that has room. -/
def RespectsClose (m : Machine) : Event → Prop
  | .push data | .pushAll data => m.pipe.closed = true → data = [] ∨ m.pipe.isFull = true
  | _ => True

/-- Once the pipe of `m` is closed, the events accept no byte, and once a read of `m` into a buffer
has returned end of file, so does every read after some of the events. -/
def EofFinal (m : Machine) (events : List Event) : Prop :=
  ∀ n, (m.pipe.closed = true → ((events.take n).foldl step m).accepted = m.accepted) ∧
    ∀ waker bufLen, 0 < bufLen → m.pipe.ReadsEof waker bufLen →
      ∀ waker' bufLen', ((events.take n).foldl step m).pipe.ReadsEof waker' bufLen'

lemma closed_step (h : m.pipe.closed = true) (e : Event) : (m.step e).pipe.closed = true := by
  cases e with
  | pollRead reader waker bufLen => exact PipeInner.closed_pollRead.trans h
  | pollWrite writer waker data =>
    simp only [step]
    rw [PipeInner.pollWrite_closed h]
    exact h
  | dropRead reader =>
    simp only [step, PipeInner.dropRead]
    split_ifs <;> exact h
  | dropWrite writer =>
    simp only [step, PipeInner.dropWrite]
    split_ifs <;> exact h
  | push data => exact PipeInner.closed_push.trans h
  | pushAll data => exact PipeInner.closed_pushAllFrom.trans h
  | drain => exact PipeInner.closed_drain.trans h
  | close => rfl

lemma delivered_prefix_step (m : Machine) (e : Event) : m.delivered <+: (m.step e).delivered := by
  cases e with
  | pollWrite | dropRead | dropWrite | push | pushAll | close => exact List.prefix_refl _
  | pollRead reader waker bufLen => exact List.prefix_append _ _
  | drain => exact List.prefix_append _ _

/-- On a closed pipe, exactly the events that respect the flag accept nothing. -/
lemma accepted_step_eq_iff (hwf : m.pipe.Wf) (h : m.pipe.closed = true) (e : Event) :
    (m.step e).accepted = m.accepted ↔ m.RespectsClose e := by
  cases e with
  | pollRead | dropRead | dropWrite | drain | close => exact iff_of_true rfl trivial
  | pollWrite writer waker data =>
    simp only [step, RespectsClose, iff_true]
    rw [PipeInner.pollWrite_closed h]
    exact List.append_nil _
  | push data =>
    simp only [step, RespectsClose, h, true_imp_iff]
    rw [← hwf.push_eq_zero, List.append_right_eq_self, List.take_eq_nil_iff,
      or_iff_left_of_imp (fun hnil => ?_)]
    rw [hwf.push_eq_zero]
    exact .inl hnil
  | pushAll data =>
    simp only [step, RespectsClose, h, true_imp_iff]
    rw [← hwf.pushAllFrom_eq_self, List.append_right_eq_self, List.take_eq_nil_iff,
      or_iff_left_of_imp (fun hnil => ?_)]
    rw [hwf.pushAllFrom_eq_self]
    exact .inl hnil

lemma Queued.foldl (h : m.Queued capacity) (events : List Event) :
    (events.foldl Machine.step m).Queued capacity := by
  induction events generalizing m with
  | nil => exact h
  | cons e events ih => exact ih (h.step e)

lemma closed_foldl (h : m.pipe.closed = true) (events : List Event) :
    (events.foldl step m).pipe.closed = true := by
  induction events generalizing m with
  | nil => exact h
  | cons e events ih => exact ih (closed_step h e)

lemma delivered_prefix_foldl (m : Machine) (events : List Event) :
    m.delivered <+: (events.foldl step m).delivered := by
  induction events generalizing m with
  | nil => exact List.prefix_refl _
  | cons e events ih => exact (delivered_prefix_step m e).trans (ih (m.step e))

/-- After a pipe is closed, nothing is accepted at any later time exactly if every event respects
the flag. -/
lemma accepted_foldl_iff (hqueued : m.Queued capacity) (h : m.pipe.closed = true)
    (events : List Event) :
    (∀ n, ((events.take n).foldl step m).accepted = m.accepted) ↔
      Admits RespectsClose step m events := by
  induction events generalizing m with
  | nil => simp [Admits]
  | cons e events ih =>
    rw [Admits, ← accepted_step_eq_iff hqueued.wf h e, ← ih (hqueued.step e) (closed_step h e)]
    constructor
    · intro hall
      have hfirst : (m.step e).accepted = m.accepted := hall 1
      exact ⟨hfirst, fun n => (hall (n + 1)).trans hfirst.symm⟩
    · rintro ⟨hfirst, hrest⟩ n
      cases n with
      | zero => rfl
      | succ n => exact (hrest n).trans hfirst

/-- What is read from a closed pipe that accepts nothing more stays at its end. -/
lemma len_foldl_eq_zero (hqueued : m.Queued capacity) (hlen : m.pipe.len = 0)
    {events : List Event} (haccepted : (events.foldl step m).accepted = m.accepted) :
    (events.foldl step m).pipe.len = 0 := by
  have hbefore := hqueued.len_add
  have hafter := (hqueued.foldl events).len_add
  have hdelivered := (delivered_prefix_foldl m events).length_le
  rw [haccepted] at hafter
  omega

lemma eofFinal_iff (hqueued : m.Queued capacity) (events : List Event) :
    m.EofFinal events ↔ (m.pipe.closed = true → Admits RespectsClose step m events) := by
  constructor
  · intro h hclosed
    exact (accepted_foldl_iff hqueued hclosed events).mp fun n => (h n).1 hclosed
  · intro h n
    refine ⟨fun hclosed => (accepted_foldl_iff hqueued hclosed events).mpr (h hclosed) n, ?_⟩
    intro waker bufLen hbuf heof waker' bufLen'
    obtain ⟨hlen, hclosed⟩ := hqueued.wf.of_readsEof hbuf heof
    have haccepted := (accepted_foldl_iff hqueued hclosed events).mpr (h hclosed) n
    exact PipeInner.readsEof_of_empty (len_foldl_eq_zero hqueued hlen haccepted)
      (closed_foldl hclosed _)

lemma eofFinal_all_iff (hqueued : m.Queued capacity) (events : List Event) :
    (∀ n, ((events.take n).foldl step m).EofFinal (events.drop n)) ↔
      Admits RespectsClose step m events := by
  simp only [eofFinal_iff (hqueued.foldl _)]
  constructor
  · intro h
    induction events generalizing m with
    | nil => trivial
    | cons e events ih =>
      refine ⟨?_, ih (hqueued.step e) fun n => h (n + 1)⟩
      cases e with
      | push data => exact fun hclosed => (h 0 hclosed).1 hclosed
      | pushAll data => exact fun hclosed => (h 0 hclosed).1 hclosed
      | pollRead | pollWrite | dropRead | dropWrite | drain | close => trivial
  · intro h n _
    exact admits_drop h n

/-- The end of file is final from every moment of a run on, for the bytes accepted and for the
reads, exactly if no event of the run pushes bytes into a closed pipe that has room. -/
theorem eofFinal_iff_respectsClose (capacity : Nat) (events : List Event) :
    (∀ n, (run capacity (events.take n)).EofFinal (events.drop n)) ↔
      Admits RespectsClose step (new capacity) events :=
  eofFinal_all_iff ⟨_, .idle _, PipeInner.represents_new capacity⟩ events

/-- A push after the pipe was closed is accepted, and read after the end of file. -/
theorem not_eofFinal_push :
    ¬ ∀ (capacity : Nat) (events : List Event) (n : Nat),
      (run capacity (events.take n)).EofFinal (events.drop n) := by
  intro h
  have hread := ((h 4 [.close, .push [1]] 1 1).2 0 1 (by decide) (by decide)) 0 1
  revert hread
  decide

end Machine

end AmlaSandbox.Pipes
