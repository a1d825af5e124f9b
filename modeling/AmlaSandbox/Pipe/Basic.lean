import AmlaSandbox.Async.Basic
import AmlaSandbox.Library.Ring

/-!
# Pipe state and operations

A bounded ring buffer with one waker slot for the readers and one for the writers. The bytes that a
call copies into the buffer of its caller are part of its result.
-/

namespace AmlaSandbox.Pipes

open Async Library

/-- Writers wake when the buffer drops below this. -/
def lowWatermarkPercent : Nat := 25

/-- Shared pipe state. `woken` lists the wake-ups made so far; the code does not keep it. -/
structure PipeInner where
  buffer : List UInt8
  head : Nat := 0
  tail : Nat := 0
  len : Nat := 0
  closed : Bool := false
  readWaker : Option Waker := none
  writeWaker : Option Waker := none
  writerBlocked : Bool := false
  wasFull : Bool := false
  readerBlocked : Bool := false
  woken : List Waker := []
deriving DecidableEq

namespace PipeInner

def new (capacity : Nat) : PipeInner := { buffer := List.replicate capacity 0 }

variable (p : PipeInner)

def capacity : Nat := p.buffer.length

def isEmpty : Bool := p.len == 0

def isFull : Bool := p.len == p.capacity

def availableWrite : Nat := p.capacity - p.len

/-- Buffer is below low watermark, so that a writer should be woken. -/
def isBelowLowWatermark : Bool := p.len ≤ p.capacity * lowWatermarkPercent / 100

/-- Read up to `bufLen` bytes. -/
def readInto (bufLen : Nat) : List UInt8 × PipeInner :=
  let toRead := min bufLen p.len
  if toRead = 0 then ([], p)
  else
    let cap := p.capacity
    let bytes :=
      if p.head + toRead ≤ cap then (p.buffer.drop p.head).take toRead
      else
        let first := cap - p.head
        p.buffer.drop p.head ++ p.buffer.take (toRead - first)
    (bytes, { p with head := (p.head + toRead) % cap, len := p.len - toRead })

/-- Write up to `data.length` bytes. -/
def writeFrom (data : List UInt8) : Nat × PipeInner :=
  let toWrite := min data.length p.availableWrite
  if toWrite = 0 then (0, p)
  else
    let cap := p.capacity
    let buffer :=
      if p.tail + toWrite ≤ cap then Ring.splice p.buffer p.tail (data.take toWrite)
      else
        let first := cap - p.tail
        Ring.splice (Ring.splice p.buffer p.tail (data.take first)) 0
          ((data.take toWrite).drop first)
    (toWrite, { p with buffer, tail := (p.tail + toWrite) % cap, len := p.len + toWrite })

/-- Take the waker of the readers and wake it. -/
def wakeReader : PipeInner :=
  { p with readWaker := none, woken := p.woken ++ p.readWaker.toList }

/-- Take the waker of the writers and wake it. -/
def wakeWriter : PipeInner :=
  { p with writeWaker := none, woken := p.woken ++ p.writeWaker.toList }

/-- Wake a blocked writer when it is due. -/
def wakeBlockedWriter (due : Bool) : PipeInner :=
  if p.writerBlocked && due then { p with writerBlocked := false }.wakeWriter else p

/-- Close the write end. -/
def close : PipeInner := { p with closed := true, readerBlocked := false }.wakeReader

/-- Drain all available data. -/
def drain : List UInt8 × PipeInner :=
  if p.len = 0 then ([], p)
  else
    let (bytes, p) := p.readInto p.len
    (bytes, p.wakeBlockedWriter true)

/-- Push data; the result is the number of bytes written. The closed flag is not consulted. -/
def push (data : List UInt8) : Nat × PipeInner :=
  let (n, p) := p.writeFrom data
  (n, if n > 0 then { p with readerBlocked := false }.wakeReader else p)

/-- The loop of `push_all` from position `pos` on; besides the result it tells where it stopped. -/
def pushAllFrom (p : PipeInner) (data : List UInt8) (pos : Nat) :
    Nat × IoResult Unit × PipeInner :=
  if pos < data.length then
    let (n, p) := p.push (data.drop pos)
    if n = 0 then
      if p.closed then (pos, .error ⟨.brokenPipe, "pipe closed"⟩, p)
      else (pos, .error ⟨.wouldBlock, "pipe full"⟩, p)
    else p.pushAllFrom data (pos + n)
  else (pos, .ok (), p)
termination_by data.length - pos

/-- Push all data, with an error when the pipe fills up. -/
def pushAll (data : List UInt8) : IoResult Unit × PipeInner := (p.pushAllFrom data 0).2

/-- Poll for a read into a buffer of `bufLen` bytes. -/
def pollRead (waker : Waker) (bufLen : Nat) : Poll (IoResult (List UInt8)) × PipeInner :=
  if !p.isEmpty then
    let wasFull := p.wasFull
    let (bytes, p) := p.readInto bufLen
    let p := { p with wasFull := false, readerBlocked := false }
    -- a full buffer wakes its writer at the first read, whatever the watermark
    (.ready (.ok bytes), p.wakeBlockedWriter (p.isBelowLowWatermark || wasFull))
  else if p.closed then (.ready (.ok []), { p with readerBlocked := false })
  else (.pending, { p with readerBlocked := true, readWaker := register p.readWaker waker })

/-- Poll for a write; the result is the number of bytes written. -/
def pollWrite (waker : Waker) (data : List UInt8) : Poll (IoResult Nat) × PipeInner :=
  if p.closed then (.ready (.error ⟨.brokenPipe, "pipe closed"⟩), p)
  else if !p.isFull then
    let (n, p) := { p with writerBlocked := false }.writeFrom data
    (.ready (.ok n),
      { p with
        wasFull := if p.isFull then true else p.wasFull
        readerBlocked := if n > 0 then false else p.readerBlocked }.wakeReader)
  else
    (.pending,
      { p with
        writerBlocked := true
        wasFull := true
        writeWaker := register p.writeWaker waker })

/-- Drop of a read future; `registered` if its last poll returned `Pending`. -/
def dropRead (registered : Bool) : PipeInner :=
  if registered then { p with readWaker := none } else p

/-- Drop of a write future. -/
def dropWrite (registered : Bool) : PipeInner :=
  if registered then { p with writeWaker := none, writerBlocked := false } else p

/-! ### What reading and writing leave alone -/

variable {p} {n : Nat} {data : List UInt8}

lemma readInto_eq : ∃ bytes head,
    p.readInto n = (bytes, { p with head, len := p.len - min n p.len }) := by
  simp only [readInto]
  split_ifs with hzero
  · exact ⟨[], p.head, by rw [hzero, Nat.sub_zero]⟩
  · exact ⟨_, _, rfl⟩
  · exact ⟨_, _, rfl⟩

lemma writeFrom_eq (p : PipeInner) (data : List UInt8) : ∃ buffer tail,
    p.writeFrom data = (min data.length p.availableWrite,
      { p with buffer, tail, len := p.len + min data.length p.availableWrite }) := by
  simp only [writeFrom]
  split_ifs with hzero
  · exact ⟨p.buffer, p.tail, by rw [hzero, Nat.add_zero]⟩
  · exact ⟨_, _, rfl⟩
  · exact ⟨_, _, rfl⟩

/-- Nothing is written into a full buffer. -/
lemma push_full (h : p.isFull) : p.push data = (0, p) := by
  have hroom : p.availableWrite = 0 := by
    simp only [isFull, beq_iff_eq] at h
    rw [availableWrite, h, Nat.sub_self]
  simp [push, writeFrom, hroom]

lemma push_eq (p : PipeInner) (data : List UInt8) : ∃ buffer tail,
    p.push data = (min data.length p.availableWrite,
      if min data.length p.availableWrite > 0 then
        { p with
          buffer
          tail
          len := p.len + min data.length p.availableWrite
          readerBlocked := false }.wakeReader
      else { p with buffer, tail }) := by
  obtain ⟨buffer, tail, heq⟩ := writeFrom_eq p data
  refine ⟨buffer, tail, ?_⟩
  simp only [push, heq]
  split_ifs with hpos
  · rfl
  · simp [Nat.le_zero.mp (Nat.le_of_not_lt hpos)]

/-- What every push keeps, the loop of `push_all` keeps. -/
lemma pushAllFrom_keeps {P : PipeInner → Prop} {pos : Nat} (h : P p)
    (hpush : ∀ p data, P p → P (push p data).2) : P (p.pushAllFrom data pos).2.2 := by
  fun_induction pushAllFrom p data pos with
  | case1 p pos hlt p' hclosed heq | case2 p pos hlt p' hclosed heq =>
    have hnext := hpush p (data.drop pos) h
    rwa [heq] at hnext
  | case3 p pos hlt n p' heq hn ih =>
    apply ih
    have hnext := hpush p (data.drop pos) h
    rwa [heq] at hnext
  | case4 p pos hstop => exact h

/-! ### The outcomes of a poll -/

variable {waker : Waker}

/-- A read poll of a pipe with data is ready; `due` holds at the first read of a full pipe. -/
lemma pollRead_nonempty (waker : Waker) (n : Nat) (h : p.len ≠ 0) :
    ∃ bytes head due, (p.wasFull → due = true) ∧ p.pollRead waker n = (.ready (.ok bytes),
      { p with
        head
        len := p.len - min n p.len
        wasFull := false
        readerBlocked := false }.wakeBlockedWriter due) := by
  obtain ⟨bytes, head, heq⟩ := readInto_eq (p := p) (n := n)
  refine ⟨bytes, head, _, ?_, by simp only [pollRead, isEmpty, beq_eq_false_iff_ne.mpr h, heq]; rfl⟩
  intro hfull
  simp [hfull]

lemma pollRead_closed (h : p.len = 0) (hclosed : p.closed = true) :
    p.pollRead waker n = (.ready (.ok []), { p with readerBlocked := false }) := by
  simp [pollRead, isEmpty, h, hclosed]

lemma pollRead_empty (h : p.len = 0) (hclosed : p.closed = false) :
    p.pollRead waker n =
      (.pending, { p with readerBlocked := true, readWaker := some waker }) := by
  simp [pollRead, isEmpty, h, hclosed]

lemma pollWrite_closed (hclosed : p.closed = true) :
    p.pollWrite waker data = (.ready (.error ⟨.brokenPipe, "pipe closed"⟩), p) := by
  simp [pollWrite, hclosed]

/-- A write poll of a pipe with room is ready and wakes the readers. -/
lemma pollWrite_room (waker : Waker) (data : List UInt8) (h : p.isFull = false)
    (hclosed : p.closed = false) :
    ∃ n buffer tail wasFull readerBlocked, p.pollWrite waker data = (.ready (.ok n),
      { p with
        buffer
        tail
        len := p.len + n
        wasFull
        readerBlocked
        writerBlocked := false }.wakeReader) := by
  obtain ⟨buffer, tail, heq⟩ := writeFrom_eq { p with writerBlocked := false } data
  rw [pollWrite, if_neg (by simp [hclosed]), if_pos (by simp [h]), heq]
  exact ⟨_, buffer, tail, _, _, rfl⟩

lemma pollWrite_full (h : p.isFull = true) (hclosed : p.closed = false) :
    p.pollWrite waker data = (.pending,
      { p with writerBlocked := true, wasFull := true, writeWaker := some waker }) := by
  simp [pollWrite, h, hclosed]

end PipeInner

end AmlaSandbox.Pipes
