import AmlaSandbox.Host.Table
import AmlaSandbox.Library.Reachability

/-!
# A host channel and its users

Any number of host operations are awaited and dropped at any time, while the runtime takes requests
and the host makes calls under ids of its choice.
-/

namespace AmlaSandbox.Host

open Async Library HostChannelInner

/-- A request that went into the queue; it is withdrawn when its future is dropped before it is
taken. -/
structure Submission where
  request : HostOpRequest
  withdrawn : Bool := false
deriving DecidableEq

def Submission.withdraw (s : Submission) : Submission := { s with withdrawn := true }

/-- A host operation future. Beyond its state it tells the last poll that waits for room in the
queue, the first result that a poll returned, the position of its submission, and the number of
calls that the host had made by then; the code does not keep these. -/
structure HostOpFuture where
  state : HostOpState
  dropped : Bool := false
  parked : Option Parked := none
  resolved : Option HostResult := none
  ticket : Nat := 0
  since : Nat := 0
deriving DecidableEq

/-- `submitted`, `taken` and `calls` list the requests that went in, those that were taken and the
calls of the host. The code does not keep these. -/
structure Machine where
  chan : HostChannelInner
  futures : List HostOpFuture := []
  submitted : List Submission := []
  taken : List HostOpRequest := []
  calls : List (HostOpId × HostCall) := []
deriving DecidableEq

inductive Event
  | create (kind : HostOpKind)
  | poll (i : Nat) (waker : Waker)
  | drop (i : Nat)
  | take
  | call (id : HostOpId) (call : HostCall)
  | setTask (task : Option TaskIdRepr)

/-- The result that a poll returned. -/
def readyResult : Poll HostResult → Option HostResult
  | .ready result => some result
  | .pending => none

/-- The poll left the operation waiting for room in the queue. -/
def waitsForRoom (state : HostOpState) (waker : Waker) (woken : List Waker) : Option Parked :=
  match state with
  | .pending _ => some ⟨waker, woken.length⟩
  | _ => none

namespace Machine

def new (maxPending : Nat) : Machine := { chan := { maxPending } }

variable (willWake : Waker → Waker → Bool) (m : Machine)

/-- `HostChannel::custom` and its like: a future, which is submitted when it is polled. -/
def createFuture (kind : HostOpKind) : Machine :=
  { m with futures := m.futures ++ [{ state := .pending kind }] }

/-- Poll of a future that was not dropped. -/
def pollFuture (i : Nat) (waker : Waker) : Poll HostResult × Machine :=
  match m.futures[i]? with
  | none => (.pending, m)
  | some f =>
    if f.dropped then (.pending, m)
    else
      let (result, state, chan) := m.chan.pollFuture willWake waker f.state
      let pushed := chan.pendingRequests.drop m.chan.pendingRequests.length
      let f' : HostOpFuture :=
        { state
          parked := waitsForRoom state waker chan.woken
          resolved := f.resolved.or (readyResult result)
          ticket := if pushed.isEmpty then f.ticket else m.submitted.length
          since := if pushed.isEmpty then f.since else m.calls.length }
      (result,
        { m with
          chan
          futures := m.futures.set i f'
          submitted := m.submitted ++ pushed.map fun request => { request } })

/-- The requests that are no longer in the queue. -/
def popped : Nat := m.submitted.length - m.chan.pendingRequests.length

/-- Drop of a future. -/
def dropFuture (i : Nat) : Machine :=
  match m.futures[i]? with
  | none => m
  | some f =>
    if f.dropped then m
    else
      { m with
        chan := m.chan.dropFuture f.state
        futures := m.futures.set i { f with dropped := true, parked := none }
        submitted :=
          match f.state with
          | .submitted _ =>
            if m.popped ≤ f.ticket then
              m.submitted.modify f.ticket .withdraw
            else m.submitted
          | _ => m.submitted }

def take : Option HostOpRequest × Machine :=
  let (request, chan) := m.chan.takePending
  (request, { m with chan, taken := m.taken ++ request.toList })

/-- A call of the host. -/
def hostCall (id : HostOpId) (call : HostCall) : Machine :=
  { m with chan := m.chan.call id call, calls := m.calls ++ [(id, call)] }

def setTask (task : Option TaskIdRepr) : Machine :=
  { m with chan := { m.chan with currentTask := task } }

def step (m : Machine) : Event → Machine
  | .create kind => m.createFuture kind
  | .poll i waker => (m.pollFuture willWake i waker).2
  | .drop i => m.dropFuture i
  | .take => m.take.2
  | .call id call => m.hostCall id call
  | .setTask task => m.setTask task

/-- One event. -/
def Step (m : Machine) (e : Event) (m' : Machine) : Prop := m' = m.step willWake e

lemma step_step (e : Event) : Step willWake m e (m.step willWake e) := rfl

/-- The states of all runs of a new channel whose events meet a condition. -/
abbrev Reachable (ok : Machine → Event → Prop) (maxPending : Nat) (m : Machine) : Prop :=
  Reach (Step willWake) ok (new maxPending) m

/-- Any event is admitted. -/
def anyEvent (_ : Machine) (_ : Event) : Prop := True

/-- The state after a list of events. -/
def run (maxPending : Nat) (events : List Event) : Machine :=
  events.foldl (step willWake) (new maxPending)

lemma reachable_run {ok : Machine → Event → Prop} {maxPending : Nat} {events : List Event}
    (h : Admits ok (step willWake) (new maxPending) events) :
    Reachable willWake ok maxPending (run willWake maxPending events) :=
  reach_foldl (fun m e => .inr (step_step willWake m e)) events h

/-! ### Polls -/

variable {willWake m} {i : Nat} {waker : Waker} {f : HostOpFuture} {kind : HostOpKind}
  {id : HostOpId}

lemma pollFuture_none (h : ∀ f, m.futures[i]? = some f → f.dropped = true) :
    m.pollFuture willWake i waker = (.pending, m) := by
  cases hf : m.futures[i]? with
  | none => simp [pollFuture, hf]
  | some f => simp [pollFuture, hf, h f hf]

/-- A future that finds the queue full waits for room. -/
lemma pollFuture_full (hf : m.futures[i]? = some f) (hdropped : f.dropped = false)
    (hstate : f.state = .pending kind) (hroom : m.chan.canSubmit = false) :
    m.pollFuture willWake i waker =
      (.pending,
        { m with
          chan := m.chan.registerSubmitWaker willWake waker
          futures := m.futures.set i { f with parked := some ⟨waker, m.chan.woken.length⟩ } }) := by
  obtain ⟨hpending, _, hwoken⟩ := register_frame m.chan willWake waker
  simp [pollFuture, hf, hdropped, hstate, HostChannelInner.pollFuture, hroom, waitsForRoom,
    readyResult, hpending, hwoken]

/-- A future that finds room is submitted, and polled for its result. -/
lemma pollFuture_room (hf : m.futures[i]? = some f) (hdropped : f.dropped = false)
    (hstate : f.state = .pending kind) (hroom : m.chan.canSubmit = true) :
    m.pollFuture willWake i waker =
      let id := (m.chan.submit kind).1
      let polled := (m.chan.submit kind).2.pollResult waker id
      (polled.1,
        { m with
          chan := polled.2
          futures := m.futures.set i
            { state := .submitted id
              resolved := f.resolved.or (readyResult polled.1)
              ticket := m.submitted.length
              since := m.calls.length }
          submitted := m.submitted ++ [{ request := ⟨id, kind, m.chan.currentTask⟩ }] }) := by
  have hsubmit := (submit_frame m.chan kind).1
  have hpoll := (pollResult_frame (m.chan.submit kind).2 waker (m.chan.submit kind).1).1
  simp [pollFuture, hf, hdropped, hstate, HostChannelInner.pollFuture, hroom, waitsForRoom, hpoll,
    hsubmit]

/-- A submitted future is polled for its result. -/
lemma pollFuture_submitted (hf : m.futures[i]? = some f) (hdropped : f.dropped = false)
    (hstate : f.state = .submitted id) :
    m.pollFuture willWake i waker =
      ((m.chan.pollResult waker id).1,
        { m with
          chan := (m.chan.pollResult waker id).2
          futures := m.futures.set i
            { f with
              parked := none
              resolved := f.resolved.or (readyResult (m.chan.pollResult waker id).1) } }) := by
  have hpoll := (pollResult_frame m.chan waker id).1
  simp [pollFuture, hf, hdropped, hstate, HostChannelInner.pollFuture, waitsForRoom, hpoll]

/-- A future that can be polled or dropped, if there is one, waits for room or for its result. -/
lemma future_cases (h : ∀ f ∈ m.futures, f.state ≠ .done) (i : Nat) :
    (∀ f, m.futures[i]? = some f → f.dropped = true) ∨
      ∃ f, m.futures[i]? = some f ∧ f.dropped = false ∧
        ((∃ kind, f.state = .pending kind) ∨ ∃ id, f.state = .submitted id) := by
  cases hf : m.futures[i]? with
  | none =>
    left
    rintro _ ⟨⟩
  | some f =>
    cases hdropped : f.dropped with
    | true =>
      left
      rintro _ ⟨⟩
      exact hdropped
    | false =>
      refine .inr ⟨f, rfl, hdropped, ?_⟩
      cases hstate : f.state with
      | pending kind => exact .inl ⟨kind, rfl⟩
      | submitted id => exact .inr ⟨id, rfl⟩
      | done => exact absurd hstate (h f (List.mem_of_getElem? hf))

/-! ### Drops -/

lemma dropFuture_none (h : ∀ f, m.futures[i]? = some f → f.dropped = true) :
    m.dropFuture i = m := by
  cases hf : m.futures[i]? with
  | none => simp [dropFuture, hf]
  | some f => simp [dropFuture, hf, h f hf]

lemma dropFuture_pending (hf : m.futures[i]? = some f) (hdropped : f.dropped = false)
    (hstate : f.state = .pending kind) :
    m.dropFuture i =
      { m with futures := m.futures.set i { f with dropped := true, parked := none } } := by
  simp [dropFuture, hf, hdropped, hstate, HostChannelInner.dropFuture]

/-- The drop of a submitted future cancels its operation. -/
lemma dropFuture_submitted (hf : m.futures[i]? = some f) (hdropped : f.dropped = false)
    (hstate : f.state = .submitted id) :
    m.dropFuture i =
      { m with
        chan := m.chan.update id cancelSlot
        futures := m.futures.set i { f with dropped := true, parked := none }
        submitted :=
          if m.popped ≤ f.ticket then
            m.submitted.modify f.ticket .withdraw
          else m.submitted } := by
  simp [dropFuture, hf, hdropped, hstate, HostChannelInner.dropFuture, cancel_eq]

end Machine

end AmlaSandbox.Host
