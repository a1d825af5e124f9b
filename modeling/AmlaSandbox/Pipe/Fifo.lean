import AmlaSandbox.Library.Queues
import AmlaSandbox.Pipe.Basic
import AmlaSandbox.Pipe.Machine

/-!
# Pipes are bounded queues of bytes

The stored bytes form a bounded queue: both segments of a read give out its first bytes, both
segments of a write append what fits. Every operation of a pipe is a move of the queue it
represents, and so is every run.
-/

namespace AmlaSandbox.Pipes

open Async Library

/-! ## The bytes of a pipe -/

namespace PipeInner

/-- The stored bytes, in the order in which they will be read. -/
def contents (p : PipeInner) : List UInt8 := Ring.slice p.buffer p.head p.len

/-- The positions describe a run of cells of the buffer. -/
structure Wf (p : PipeInner) : Prop where
  head_eq : p.head % p.capacity = p.head
  tail_eq : p.tail = (p.head + p.len) % p.capacity
  len_le : p.len ≤ p.capacity

variable {p p' : PipeInner} {q : BoundedQueue UInt8} {n : Nat} {data : List UInt8}

lemma wf_new (capacity : Nat) : (new capacity).Wf := by
  constructor <;> simp [new]

lemma Wf.length_contents (h : p.Wf) : p.contents.length = p.len := by
  rcases Nat.eq_zero_or_pos p.buffer.length with hzero | hpos
  · have hlen : p.len = 0 := Nat.le_zero.mp (hzero ▸ h.len_le)
    rw [contents, hlen]
    rfl
  · exact Ring.length_slice hpos

lemma Wf.head_lt (h : p.Wf) (hpos : 0 < p.capacity) : p.head < p.capacity := by
  rw [← h.head_eq]
  exact Nat.mod_lt _ hpos

/-- Both segments of a read, as one slice. -/
lemma Wf.readInto_eq (h : p.Wf) :
    p.readInto n = (Ring.slice p.buffer p.head (min n p.len),
      { p with head := (p.head + min n p.len) % p.capacity, len := p.len - min n p.len }) := by
  have hlen := h.len_le
  simp only [readInto]
  split_ifs with hzero hseg
  · simp only [hzero, Ring.slice_zero, Nat.add_zero, h.head_eq, Nat.sub_zero]
  · rw [Ring.slice_eq_take_drop hseg]
  · have hhead := h.head_lt (by omega)
    unfold capacity at *
    rw [Ring.slice_eq_append (by omega) (by omega) (by omega)]

/-- Both segments of a write, as one write behind the stored bytes. -/
lemma Wf.writeFrom_eq (h : p.Wf) (data : List UInt8) : ∃ buffer,
    Ring.Written p.buffer (p.head + p.len) (data.take p.availableWrite) buffer ∧
    p.writeFrom data = (min data.length p.availableWrite,
      { p with
        buffer
        tail := (p.head + p.len + min data.length p.availableWrite) % p.capacity
        len := p.len + min data.length p.availableWrite }) := by
  have hlen := h.len_le
  have htail : ∀ {buffer}, Ring.Written p.buffer p.tail (data.take p.availableWrite) buffer →
      Ring.Written p.buffer (p.head + p.len) (data.take p.availableWrite) buffer := by
    intro buffer hwritten
    rw [h.tail_eq] at hwritten
    exact Ring.written_mod.mp hwritten
  have htake : data.take (min data.length p.availableWrite) = data.take p.availableWrite := by
    rw [Nat.min_comm, ← List.take_eq_take_min]
  have hlength : (data.take p.availableWrite).length = min data.length p.availableWrite := by
    rw [List.length_take, Nat.min_comm]
  have hend : (p.tail + min data.length p.availableWrite) % p.capacity =
      (p.head + p.len + min data.length p.availableWrite) % p.capacity := by
    rw [h.tail_eq, Nat.mod_add_mod]
  simp only [writeFrom, htake, hend]
  split_ifs with hzero hseg
  · have hnil : data.take p.availableWrite = [] := List.length_eq_zero_iff.mp (by omega)
    refine ⟨p.buffer, hnil ▸ Ring.written_nil, ?_⟩
    simp only [hzero, Nat.add_zero, ← h.tail_eq]
  · exact ⟨_, htail (Ring.written_splice (by rw [hlength]; exact hseg)), rfl⟩
  · have hfit : min data.length p.availableWrite ≤ p.capacity := by
      unfold availableWrite
      omega
    have hpos : p.tail < p.capacity := by
      rw [h.tail_eq]
      exact Nat.mod_lt _ (by omega)
    have hfirst : data.take (p.capacity - p.tail) =
        (data.take p.availableWrite).take (p.capacity - p.tail) := by
      rw [List.take_take, Nat.min_eq_left (by omega)]
    rw [hfirst]
    refine ⟨_, htail (Ring.written_around hpos ?_ ?_), rfl⟩
    · exact Nat.le_of_not_le (by rw [hlength]; exact hseg)
    · rw [hlength]
      exact hfit

/-! ### The stored bytes as a bounded queue -/

/-- A pipe whose stored bytes are those of a queue. -/
structure Represents (p : PipeInner) (q : BoundedQueue UInt8) : Prop where
  wf : p.Wf
  capacity_eq : p.capacity = q.capacity
  contents_eq : p.contents = q.queue

/-- Two pipes that differ in flags and wakers only. -/
structure SameBytes (p p' : PipeInner) : Prop where
  buffer_eq : p'.buffer = p.buffer
  head_eq : p'.head = p.head
  tail_eq : p'.tail = p.tail
  len_eq : p'.len = p.len

lemma SameBytes.trans {p'' : PipeInner} (h : p.SameBytes p') (h' : p'.SameBytes p'') :
    p.SameBytes p'' :=
  ⟨h'.buffer_eq.trans h.buffer_eq, h'.head_eq.trans h.head_eq, h'.tail_eq.trans h.tail_eq,
    h'.len_eq.trans h.len_eq⟩

lemma represents_new (capacity : Nat) : (new capacity).Represents (.empty capacity) where
  wf := wf_new capacity
  capacity_eq := List.length_replicate
  contents_eq := rfl

lemma Represents.congr (h : p.Represents q) (hsame : p.SameBytes p') : p'.Represents q := by
  obtain ⟨hbuffer, hhead, htail, hlen⟩ := hsame
  obtain ⟨⟨hwhead, hwtail, hwlen⟩, hcap, hcontents⟩ := h
  refine ⟨⟨?_, ?_, ?_⟩, ?_, ?_⟩
  all_goals simp only [capacity, contents, hbuffer, hhead, htail, hlen] at *
  all_goals assumption

lemma sameBytes_wakeBlockedWriter (due : Bool) : p.SameBytes (p.wakeBlockedWriter due) := by
  unfold wakeBlockedWriter
  split_ifs <;> exact ⟨rfl, rfl, rfl, rfl⟩

lemma Represents.len_eq (h : p.Represents q) : p.len = q.queue.length := by
  rw [← h.contents_eq, h.wf.length_contents]

lemma Represents.availableWrite_eq (h : p.Represents q) : p.availableWrite = q.room := by
  rw [availableWrite, BoundedQueue.room, h.capacity_eq, h.len_eq]

/-- A read gives out the first bytes. -/
lemma Represents.readInto (h : p.Represents q) (n : Nat) :
    (p.readInto n).1 = q.queue.take n ∧ (p.readInto n).2.Represents (q.get n) := by
  have hlen := h.wf.len_le
  rw [h.wf.readInto_eq]
  have hmin : q.queue.take (min n p.len) = q.queue.take n := by
    rw [h.len_eq, ← List.take_eq_take_min]
  refine ⟨?_, ⟨Nat.mod_mod _ _, ?_, ?_⟩, h.capacity_eq, ?_⟩
  · rw [← hmin, ← h.contents_eq, contents, Ring.take_slice (Nat.min_le_right _ _)]
  · show p.tail = ((p.head + min n p.len) % p.capacity + (p.len - min n p.len)) % p.capacity
    rw [Nat.mod_add_mod, h.wf.tail_eq]
    congr 1
    omega
  · show p.len - min n p.len ≤ p.capacity
    omega
  · show Ring.slice p.buffer ((p.head + min n p.len) % p.capacity) _ = q.queue.drop n
    rw [capacity, Ring.slice_mod, ← Ring.drop_slice (Nat.min_le_right _ _)]
    change p.contents.drop _ = _
    rw [h.contents_eq, h.len_eq]
    rcases Nat.le_total n q.queue.length with hle | hle
    · rw [Nat.min_eq_left hle]
    · rw [Nat.min_eq_right hle, List.drop_length, List.drop_of_length_le hle]

/-- A write takes in what fits. -/
lemma Represents.writeFrom (h : p.Represents q) (data : List UInt8) :
    (p.writeFrom data).1 = min data.length q.room ∧
      (p.writeFrom data).2.Represents (q.put data) := by
  have hlen := h.wf.len_le
  obtain ⟨buffer, hwritten, heq⟩ := h.wf.writeFrom_eq data
  rw [heq]
  have hroom := h.availableWrite_eq
  have hfit : p.len + min data.length p.availableWrite ≤ p.capacity := by
    unfold availableWrite
    omega
  have hcap : buffer.length = p.capacity := hwritten.length_eq
  refine ⟨by rw [hroom], ⟨?_, ?_, ?_⟩, hcap.trans h.capacity_eq, ?_⟩
  · show p.head % buffer.length = p.head
    rw [hcap, h.wf.head_eq]
  · show _ % p.capacity = (p.head + (p.len + _)) % buffer.length
    rw [hcap, Nat.add_assoc]
  · show _ ≤ buffer.length
    rw [hcap]
    exact hfit
  · have hlength : (data.take p.availableWrite).length = min data.length p.availableWrite := by
      rw [List.length_take, Nat.min_comm]
    have hold : Ring.slice buffer p.head p.len = p.contents :=
      hwritten.slice_before (by rw [hlength]; exact hfit)
    have hnew : Ring.slice buffer (p.head + p.len) (min data.length p.availableWrite) =
        data.take p.availableWrite := by
      rw [← hlength]
      exact hwritten.slice_new (by rw [hlength]; exact Nat.le_trans (Nat.le_add_left _ _) hfit)
    show Ring.slice buffer p.head _ = _
    rw [Ring.slice_add, hold, hnew, h.contents_eq, hroom]
    rfl

end PipeInner

/-! ## Moves of the queue -/

namespace PipeInner

/-- The operation that leads from `p` to `p'` takes in `inp` and gives out `out`. -/
def Moves (p : PipeInner) (inp out : List UInt8) (p' : PipeInner) : Prop :=
  ∀ q, p.Represents q → ∃ q', q.Move inp out q' ∧ p'.Represents q'

variable {p p' p'' : PipeInner} {inp inp' out out' data : List UInt8} {n pos : Nat}

lemma Moves.trans (h : p.Moves inp out p') (h' : p'.Moves inp' out' p'') :
    p.Moves (inp ++ inp') (out ++ out') p'' := by
  intro q hq
  obtain ⟨q', hmove, hq'⟩ := h q hq
  obtain ⟨q'', hmove', hq''⟩ := h' q' hq'
  exact ⟨q'', hmove.trans hmove', hq''⟩

lemma SameBytes.moves (h : p.SameBytes p') : p.Moves [] [] p' :=
  fun q hq => ⟨q, .idle q, hq.congr h⟩

/-- Flags and wakers may change before and after an operation. -/
lemma Moves.congr {r r' : PipeInner} (h : p.Moves inp out p') (hbefore : r.SameBytes p)
    (hafter : p'.SameBytes r') : r.Moves inp out r' := by
  have hall := hbefore.moves.trans (h.trans hafter.moves)
  rwa [List.append_nil, List.append_nil, List.nil_append, List.nil_append] at hall

lemma moves_readInto : p.Moves [] (p.readInto n).1 (p.readInto n).2 := by
  intro q hq
  obtain ⟨hbytes, hq'⟩ := hq.readInto n
  refine ⟨_, ?_, hq'⟩
  rw [hbytes]
  exact .get q n

lemma moves_writeFrom : p.Moves (data.take (p.writeFrom data).1) [] (p.writeFrom data).2 := by
  intro q hq
  obtain ⟨hn, hq'⟩ := hq.writeFrom data
  refine ⟨_, ?_, hq'⟩
  rw [hn, Nat.min_comm, ← List.take_eq_take_min]
  exact .put q data

lemma moves_push (p : PipeInner) (data : List UInt8) :
    p.Moves (data.take (p.push data).1) [] (p.push data).2 := by
  refine moves_writeFrom.congr ⟨rfl, rfl, rfl, rfl⟩ ?_
  simp only [push]
  split_ifs
  · exact ⟨rfl, rfl, rfl, rfl⟩
  · exact ⟨rfl, rfl, rfl, rfl⟩

/-- The loop of `push_all` takes in the bytes between the positions where it starts and stops. -/
lemma moves_pushAllFrom (p : PipeInner) (data : List UInt8) (pos : Nat) :
    ∃ n, (p.pushAllFrom data pos).1 = pos + n ∧
      p.Moves ((data.drop pos).take n) [] (p.pushAllFrom data pos).2.2 := by
  fun_induction pushAllFrom p data pos with
  | case1 p pos hlt p' hclosed hpush | case2 p pos hlt p' hclosed hpush =>
    have hmoves := moves_push p (data.drop pos)
    rw [hpush] at hmoves
    exact ⟨0, rfl, hmoves⟩
  | case3 p pos hlt n p' hpush hn ih =>
    obtain ⟨k, hstop, hrest⟩ := ih
    have hmoves := moves_push p (data.drop pos)
    rw [hpush] at hmoves
    refine ⟨n + k, by omega, ?_⟩
    rw [List.take_add, List.drop_drop]
    exact hmoves.trans hrest
  | case4 p pos hstop => exact ⟨0, rfl, fun q hq => ⟨q, .idle q, hq⟩⟩

lemma moves_drain : p.Moves [] p.drain.1 p.drain.2 := by
  unfold drain
  split_ifs
  · exact SameBytes.moves ⟨rfl, rfl, rfl, rfl⟩
  · exact moves_readInto.congr ⟨rfl, rfl, rfl, rfl⟩ (sameBytes_wakeBlockedWriter true)

lemma moves_pollRead {waker : Waker} {bufLen : Nat} :
    p.Moves [] (bytesRead (p.pollRead waker bufLen).1) (p.pollRead waker bufLen).2 := by
  unfold pollRead
  split_ifs
  · apply moves_readInto.congr ⟨rfl, rfl, rfl, rfl⟩
    refine SameBytes.trans ?_ (sameBytes_wakeBlockedWriter _)
    exact ⟨rfl, rfl, rfl, rfl⟩
  · exact SameBytes.moves ⟨rfl, rfl, rfl, rfl⟩
  · exact SameBytes.moves ⟨rfl, rfl, rfl, rfl⟩

lemma moves_pollWrite {waker : Waker} :
    p.Moves (data.take (bytesWritten (p.pollWrite waker data).1)) []
      (p.pollWrite waker data).2 := by
  unfold pollWrite
  split_ifs
  · exact SameBytes.moves ⟨rfl, rfl, rfl, rfl⟩
  · refine (moves_writeFrom (p := { p with writerBlocked := false })).congr
      ⟨rfl, rfl, rfl, rfl⟩ ?_
    dsimp only
    split_ifs <;> exact ⟨rfl, rfl, rfl, rfl⟩
  · exact SameBytes.moves ⟨rfl, rfl, rfl, rfl⟩

lemma moves_dropRead (registered : Bool) : p.Moves [] [] (p.dropRead registered) := by
  apply SameBytes.moves
  unfold dropRead
  split_ifs <;> exact ⟨rfl, rfl, rfl, rfl⟩

lemma moves_dropWrite (registered : Bool) : p.Moves [] [] (p.dropWrite registered) := by
  apply SameBytes.moves
  unfold dropWrite
  split_ifs <;> exact ⟨rfl, rfl, rfl, rfl⟩

end PipeInner

namespace Machine

variable {m : Machine} {capacity : Nat}

/-- The pipe represents a queue that moves from empty by what was accepted and delivered. -/
def Queued (capacity : Nat) (m : Machine) : Prop :=
  ∃ q, (BoundedQueue.empty capacity).Move m.accepted m.delivered q ∧ m.pipe.Represents q

lemma Queued.moves (h : m.Queued capacity) {m' : Machine} {inp out : List UInt8}
    (hmoves : m.pipe.Moves inp out m'.pipe) (haccepted : m'.accepted = m.accepted ++ inp)
    (hdelivered : m'.delivered = m.delivered ++ out) : m'.Queued capacity := by
  obtain ⟨q, hmove, hq⟩ := h
  obtain ⟨q', hmove', hq'⟩ := hmoves q hq
  refine ⟨q', ?_, hq'⟩
  rw [haccepted, hdelivered]
  exact hmove.trans hmove'

/-- Every event is a move. -/
lemma Queued.step (h : m.Queued capacity) (e : Event) : (m.step e).Queued capacity := by
  cases e with
  | pollRead reader waker bufLen =>
    exact h.moves PipeInner.moves_pollRead (List.append_nil _).symm rfl
  | pollWrite writer waker data =>
    exact h.moves PipeInner.moves_pollWrite rfl (List.append_nil _).symm
  | dropRead reader =>
    exact h.moves (PipeInner.moves_dropRead _) (List.append_nil _).symm (List.append_nil _).symm
  | dropWrite writer =>
    exact h.moves (PipeInner.moves_dropWrite _) (List.append_nil _).symm (List.append_nil _).symm
  | push data => exact h.moves (PipeInner.moves_push _ _) rfl (List.append_nil _).symm
  | pushAll data =>
    obtain ⟨n, hstop, hmoves⟩ := PipeInner.moves_pushAllFrom m.pipe data 0
    refine h.moves hmoves ?_ (List.append_nil _).symm
    rw [Nat.zero_add] at hstop
    rw [List.drop_zero, ← hstop]
    rfl
  | drain => exact h.moves PipeInner.moves_drain (List.append_nil _).symm rfl
  | close =>
    exact h.moves (PipeInner.SameBytes.moves ⟨rfl, rfl, rfl, rfl⟩) (List.append_nil _).symm
      (List.append_nil _).symm

lemma Reachable.queued (h : Reachable anyEvent capacity m) : m.Queued capacity := by
  refine h.invariant ⟨_, .idle _, PipeInner.represents_new capacity⟩ ?_
  rintro m e m' hm _ rfl
  exact hm.step e

lemma Queued.len_add (h : m.Queued capacity) :
    m.delivered.length + m.pipe.len = m.accepted.length := by
  obtain ⟨q, hmove, hq⟩ := h
  have hconserve : m.accepted = m.delivered ++ q.queue := hmove.conserve
  rw [hconserve, List.length_append, hq.len_eq]

lemma Queued.wf (h : m.Queued capacity) : m.pipe.Wf := by
  obtain ⟨q, _, hq⟩ := h
  exact hq.wf

/-- A pipe is a bounded queue: whatever its users do, the bytes delivered are a prefix of the bytes
accepted and the stored bytes are the rest, within the capacity. -/
theorem pipe_refines_boundedQueue (capacity : Nat) (m : Machine)
    (h : Reachable anyEvent capacity m) :
    (∃ q, (BoundedQueue.empty capacity).Move m.accepted m.delivered q ∧ m.pipe.Represents q) ∧
      m.delivered <+: m.accepted ∧
      m.accepted.drop m.delivered.length = m.pipe.contents ∧
      m.pipe.contents.length = m.pipe.len ∧
      m.pipe.len ≤ m.pipe.capacity ∧ m.pipe.capacity = capacity := by
  obtain ⟨q, hmove, hq⟩ := h.queued
  obtain ⟨hpre, hrest⟩ := hmove.prefix_of_empty
  refine ⟨⟨q, hmove, hq⟩, hpre, ?_, hq.wf.length_contents, hq.wf.len_le, ?_⟩
  · rw [hrest, hq.contents_eq]
  · rw [hq.capacity_eq, hmove.capacity_eq]
    rfl

/-- A pipe whose stored bytes go around the end of the buffer. -/
theorem pipe_refines_boundedQueue_around :
    (run 3 [.push [1, 2], .drain, .push [3, 4, 5]]).accepted.drop
        (run 3 [.push [1, 2], .drain, .push [3, 4, 5]]).delivered.length =
      (run 3 [.push [1, 2], .drain, .push [3, 4, 5]]).pipe.contents ∧
    (run 3 [.push [1, 2], .drain, .push [3, 4, 5]]).pipe.contents = [3, 4, 5] :=
  ⟨(pipe_refines_boundedQueue 3 _ (reachable_any 3 _)).2.2.1, by decide⟩

end Machine

end AmlaSandbox.Pipes
