import AmlaSandbox.Library.Reachability
import AmlaSandbox.Pipe.Basic
import Mathlib.Logic.Function.Basic

/-!
# A pipe and its users

Any number of readers and writers poll one pipe, which is pushed to, drained and closed at any time.
A reader or writer is a future, or a caller that polls the pipe itself; a future may be dropped.
-/

namespace AmlaSandbox.Pipes

open Async Library

/-- `readers` and `writers` tell the polls that returned `Pending` and were not repeated since;
`accepted` and `delivered` are all bytes that went in and out. The code does not keep these. -/
structure Machine where
  pipe : PipeInner
  readers : Nat → Option Parked := fun _ => none
  writers : Nat → Option Parked := fun _ => none
  accepted : List UInt8 := []
  delivered : List UInt8 := []

inductive Event
  | pollRead (reader : Nat) (waker : Waker) (bufLen : Nat)
  | pollWrite (writer : Nat) (waker : Waker) (data : List UInt8)
  | dropRead (reader : Nat)
  | dropWrite (writer : Nat)
  | push (data : List UInt8)
  | pushAll (data : List UInt8)
  | drain
  | close

/-- The bytes that a read poll delivered. -/
def bytesRead : Poll (IoResult (List UInt8)) → List UInt8
  | .ready (.ok bytes) => bytes
  | _ => []

/-- The number of bytes that a write poll accepted. -/
def bytesWritten : Poll (IoResult Nat) → Nat
  | .ready (.ok n) => n
  | _ => 0

/-- What a poll leaves behind: a parked poll if it returned `Pending`. -/
def parkedBy {α : Type*} (result : Poll α) (waker : Waker) (woken : List Waker) : Option Parked :=
  match result with
  | .pending => some ⟨waker, woken.length⟩
  | .ready _ => none

namespace Machine

def new (capacity : Nat) : Machine := { pipe := .new capacity }

variable (m : Machine)

def step : Event → Machine
  | .pollRead reader waker bufLen =>
    let (result, pipe) := m.pipe.pollRead waker bufLen
    { m with
      pipe
      readers := Function.update m.readers reader (parkedBy result waker pipe.woken)
      delivered := m.delivered ++ bytesRead result }
  | .pollWrite writer waker data =>
    let (result, pipe) := m.pipe.pollWrite waker data
    { m with
      pipe
      writers := Function.update m.writers writer (parkedBy result waker pipe.woken)
      accepted := m.accepted ++ data.take (bytesWritten result) }
  | .dropRead reader =>
    { m with
      pipe := m.pipe.dropRead (m.readers reader).isSome
      readers := Function.update m.readers reader none }
  | .dropWrite writer =>
    { m with
      pipe := m.pipe.dropWrite (m.writers writer).isSome
      writers := Function.update m.writers writer none }
  | .push data =>
    let (n, pipe) := m.pipe.push data
    { m with pipe, accepted := m.accepted ++ data.take n }
  | .pushAll data =>
    let (pos, _, pipe) := m.pipe.pushAllFrom data 0
    { m with pipe, accepted := m.accepted ++ data.take pos }
  | .drain =>
    let (bytes, pipe) := m.pipe.drain
    { m with pipe, delivered := m.delivered ++ bytes }
  | .close => { m with pipe := m.pipe.close }

/-- One event. -/
def Step (m : Machine) (e : Event) (m' : Machine) : Prop := m' = m.step e

lemma step_step (e : Event) : m.Step e (m.step e) := rfl

/-- The states of all runs of a new pipe whose events meet a condition. -/
abbrev Reachable (ok : Machine → Event → Prop) (capacity : Nat) (m : Machine) : Prop :=
  Reach Step ok (new capacity) m

/-- Any event is admitted. -/
def anyEvent (_ : Machine) (_ : Event) : Prop := True

/-- The state after a list of events. -/
def run (capacity : Nat) (events : List Event) : Machine := events.foldl step (new capacity)

lemma reachable_run {ok : Machine → Event → Prop} {capacity : Nat} {events : List Event}
    (h : Admits ok step (new capacity) events) : Reachable ok capacity (run capacity events) :=
  reach_foldl (fun m e => .inr (step_step m e)) events h

lemma reachable_any (capacity : Nat) (events : List Event) :
    Reachable anyEvent capacity (run capacity events) :=
  reachable_run (admits_of_forall (fun _ _ => trivial) events)

end Machine

end AmlaSandbox.Pipes
