import AmlaSandbox.Host.Channel
import AmlaSandbox.Library.Reachability
import Mathlib.Data.List.Perm.Basic
import Mathlib.Order.Nat

/-!
# Output streams to the host

The tasks that share a stream share its buffer. A write appends to it and drains a chunk at a time,
and awaits a print of each chunk; in between, any other task runs.
-/

namespace AmlaSandbox.Shell.HostStreams

open Async Host Library

/-! ### The stream -/

/-- A byte with the task that wrote it. The code keeps the byte alone. -/
structure Cell where
  task : ℕ
  byte : UInt8
deriving DecidableEq

/-- What a round of the loop drains: up to the first line break, or else `max_size` bytes. -/
def nextChunk (maxSize : ℕ) (buffer : List Cell) : Option (List Cell × List Cell) :=
  match buffer.findIdx? (·.byte = 10) with
  | some pos => some (buffer.take (pos + 1), buffer.drop (pos + 1))
  | none =>
    if maxSize ≤ buffer.length then some (buffer.take maxSize, buffer.drop maxSize) else none

/-- Where a task stands. -/
inductive Phase
  | idle
  -- in the loop of a write, before a round
  | looping
  -- a drained chunk is printed, in a flush or in a write
  | printing (flushing : Bool) (chunk : List Cell) (future : HostOpState)

/-- What follows a poll of a print. -/
def Phase.after (flushing : Bool) (chunk : List Cell) (future : HostOpState) :
    Poll HostResult → Phase
  | .pending => .printing flushing chunk future
  | .ready (.ok _) => if flushing then .idle else .looping
  | .ready (.error _) => .idle

/-- The poll submits the print. -/
def sends (chan : HostChannelInner) : HostOpState → Bool
  | .pending _ => chan.canSubmit
  | _ => false

/-- The buffer and the channel that the tasks share. `accepted` is what the writes appended,
`submitted` are the chunks that went into the queue of the host, and `rounds` counts the chunks that
the loops drained; the code does not keep these. -/
structure HostStream where
  buffer : List Cell := []
  chan : HostChannelInner
  tasks : ℕ → Phase := fun _ => .idle
  accepted : List Cell := []
  submitted : List (List Cell) := []
  rounds : ℕ := 0

/-- A step of a task, or whatever the host and the other users of the channel do to it. -/
inductive Event
  | write (task : ℕ) (buf : List UInt8)
  | flush (task : ℕ) (waker : Waker)
  | round (task : ℕ) (waker : Waker)
  | poll (task : ℕ) (waker : Waker)
  | others (f : HostChannelInner → HostChannelInner)

namespace HostStream

def new (maxPending : ℕ) : HostStream := { chan := { maxPending } }

variable (willWake : Waker → Waker → Bool) (stream : UInt8) (maxSize : ℕ) (s : HostStream)

def pollPrint (t : ℕ) (waker : Waker) (flushing : Bool) (chunk : List Cell)
    (future : HostOpState) : HostStream :=
  let (result, future', chan) := s.chan.pollFuture willWake waker future
  { s with
    chan
    submitted := if sends s.chan future then s.submitted ++ [chunk] else s.submitted
    tasks := Function.update s.tasks t (Phase.after flushing chunk future' result) }

/-- `host().print(..)` of a drained chunk, polled for the first time. -/
def print (t : ℕ) (waker : Waker) (flushing : Bool) (chunk rest : List Cell) : HostStream :=
  { s with buffer := rest }.pollPrint willWake t waker flushing chunk
    (.pending (.print stream (chunk.map Cell.byte)))

def step (s : HostStream) : Event → HostStream
  | .write t buf =>
    match s.tasks t with
    | .idle =>
      { s with
        buffer := s.buffer ++ buf.map (Cell.mk t)
        accepted := s.accepted ++ buf.map (Cell.mk t)
        tasks := Function.update s.tasks t .looping }
    | _ => s
  | .flush t waker =>
    match s.tasks t with
    | .idle => if s.buffer = [] then s else s.print willWake stream t waker true s.buffer []
    | _ => s
  | .round t waker =>
    match s.tasks t with
    | .looping =>
      match nextChunk maxSize s.buffer with
      | some (chunk, rest) =>
        { s with rounds := s.rounds + 1 }.print willWake stream t waker false chunk rest
      | none => { s with tasks := Function.update s.tasks t .idle }
    | _ => s
  | .poll t waker =>
    match s.tasks t with
    | .printing flushing chunk future => s.pollPrint willWake t waker flushing chunk future
    | _ => s
  | .others f => { s with chan := f s.chan }

def Step (s : HostStream) (e : Event) (s' : HostStream) : Prop :=
  s' = s.step willWake stream maxSize e

/-- The state after a list of events. -/
def run (s : HostStream) (events : List Event) : HostStream :=
  events.foldl (step willWake stream maxSize) s

/-! ### What a stream should keep -/

/-- What is with the host and in the buffer is what each task wrote, once and in its order. -/
def Conserves : Prop :=
  ∀ t, (s.submitted.flatten ++ s.buffer).filter (·.task = t) = s.accepted.filter (·.task = t)

/-- Nothing more is written. -/
def Quiet (_ : HostStream) : Event → Prop
  | .write _ _ => False
  | _ => True

/-- While nothing more is written, the loops of the writes end: they drain no more chunks than
there are bytes. -/
def WritesEnd : Prop :=
  ∀ s', Reach (Step willWake stream maxSize) Quiet s s' →
    s'.rounds ≤ s.rounds + s.buffer.length

/-- Nothing is lost or reordered, and every write ends. -/
structure Preserves : Prop where
  conserves : s.Conserves
  writesEnd : s.WritesEnd willWake stream maxSize

/-- The event drains a chunk. -/
def drains (s : HostStream) : Event → Bool
  | .flush t _ =>
    match s.tasks t with
    | .idle => s.buffer ≠ []
    | _ => false
  | .round t _ =>
    match s.tasks t with
    | .looping => (nextChunk maxSize s.buffer).isSome
    | _ => false
  | _ => false

/-- A chunk is drained only while the queue of the host has room. -/
def Fitting (s : HostStream) (e : Event) : Prop :=
  s.drains maxSize e = true → s.chan.canSubmit = true

end HostStream

/-! ### Chunks -/

section

variable {maxSize : ℕ} {buffer chunk rest : List Cell}

lemma nextChunk_append (h : nextChunk maxSize buffer = some (chunk, rest)) :
    chunk ++ rest = buffer := by
  rw [nextChunk] at h
  cases hpos : buffer.findIdx? (·.byte = 10) with
  | some pos =>
    rw [hpos] at h
    obtain ⟨rfl, rfl⟩ := Prod.mk.inj (Option.some.inj h)
    exact List.take_append_drop ..
  | none =>
    rw [hpos] at h
    dsimp only at h
    split_ifs at h
    obtain ⟨rfl, rfl⟩ := Prod.mk.inj (Option.some.inj h)
    exact List.take_append_drop ..

lemma nextChunk_ne_nil (hmax : 0 < maxSize) (h : nextChunk maxSize buffer = some (chunk, rest)) :
    chunk ≠ [] := by
  rw [nextChunk] at h
  cases hpos : buffer.findIdx? (·.byte = 10) with
  | some pos =>
    have hlt := (List.findIdx?_eq_some_iff_findIdx_eq.mp hpos).1
    rw [hpos] at h
    obtain ⟨rfl, -⟩ := Prod.mk.inj (Option.some.inj h)
    rw [ne_eq, List.take_eq_nil_iff]
    rintro (hzero | rfl)
    · exact Nat.succ_ne_zero pos hzero
    · exact Nat.not_lt_zero pos hlt
  | none =>
    rw [hpos] at h
    dsimp only at h
    split_ifs at h with hlong
    obtain ⟨rfl, -⟩ := Prod.mk.inj (Option.some.inj h)
    rw [ne_eq, List.take_eq_nil_iff]
    rintro (rfl | rfl)
    · exact Nat.not_lt_zero 0 hmax
    · exact Nat.not_lt_zero 0 (hmax.trans_le hlong)

end

namespace HostStream

variable {willWake : Waker → Waker → Bool} {stream : UInt8} {maxSize : ℕ} {s s' : HostStream}
  {e : Event}

/-! ### Steps -/

/-- What a step can do: it drains a chunk and prints it, polls a print that is under way, begins a
write, or ends an operation. -/
inductive Steps (willWake : Waker → Waker → Bool) (stream : UInt8) (maxSize : ℕ) (s : HostStream)
    (e : Event) : HostStream → Prop
  | drain {chunk rest : List Cell} {rounds t : ℕ} {waker : Waker} {flushing : Bool} :
      s.drains maxSize e = true → chunk ++ rest = s.buffer → (0 < maxSize → chunk ≠ []) →
      rounds ≤ s.rounds + 1 →
      Steps willWake stream maxSize s e
        ({ s with rounds }.print willWake stream t waker flushing chunk rest)
  | poll {t : ℕ} {waker : Waker} {flushing : Bool} {chunk : List Cell} {future : HostOpState} :
      s.drains maxSize e = false → s.tasks t = .printing flushing chunk future →
      Steps willWake stream maxSize s e (s.pollPrint willWake t waker flushing chunk future)
  | write {t : ℕ} {cells : List Cell} : s.drains maxSize e = false → ¬ Quiet s e →
      Steps willWake stream maxSize s e
        { s with
          buffer := s.buffer ++ cells
          accepted := s.accepted ++ cells
          tasks := Function.update s.tasks t .looping }
  | rest {chan : HostChannelInner} {tasks : ℕ → Phase} : s.drains maxSize e = false →
      (∀ t, tasks t = s.tasks t ∨ tasks t = .idle) →
      Steps willWake stream maxSize s e { s with chan, tasks }

lemma Steps.same (h : s.drains maxSize e = false) : Steps willWake stream maxSize s e s :=
  .rest h fun _ => .inl rfl

lemma steps_step (s : HostStream) (e : Event) :
    Steps willWake stream maxSize s e (s.step willWake stream maxSize e) := by
  cases e with
  | write t buf =>
    rw [step]
    cases htask : s.tasks t with
    | idle => exact .write rfl not_false
    | looping => exact .same rfl
    | printing flushing chunk future => exact .same rfl
  | flush t waker =>
    rw [step]
    cases htask : s.tasks t with
    | idle =>
      dsimp only
      split_ifs with hbuffer
      · exact .same (by simp [drains, htask, hbuffer])
      · exact .drain (by simp [drains, htask, hbuffer]) (List.append_nil _) (fun _ => hbuffer)
          (Nat.le_succ _)
    | looping => exact .same (by rw [drains, htask])
    | printing flushing chunk future => exact .same (by rw [drains, htask])
  | round t waker =>
    rw [step]
    cases htask : s.tasks t with
    | idle => exact .same (by rw [drains, htask])
    | looping =>
      dsimp only
      cases hchunk : nextChunk maxSize s.buffer with
      | none =>
        refine .rest (by rw [drains, htask, hchunk]; rfl) fun t' => ?_
        by_cases heq : t' = t
        · subst heq
          exact .inr (Function.update_self ..)
        · exact .inl (Function.update_of_ne heq ..)
      | some drained =>
        exact .drain (by rw [drains, htask, hchunk]; rfl) (nextChunk_append hchunk)
          (fun hmax => nextChunk_ne_nil hmax hchunk) le_rfl
    | printing flushing chunk future => exact .same (by rw [drains, htask])
  | poll t waker =>
    rw [step]
    cases htask : s.tasks t with
    | idle => exact .same rfl
    | looping => exact .same rfl
    | printing flushing chunk future => exact .poll rfl htask
  | others f => exact .rest rfl fun _ => .inl rfl

/-- No loop drains an empty chunk, so each chunk brings the end nearer. -/
lemma Steps.rounds_le (h : Steps willWake stream maxSize s e s') (hmax : 0 < maxSize)
    (hquiet : Quiet s e) : s'.rounds + s'.buffer.length ≤ s.rounds + s.buffer.length := by
  cases h with
  | @drain chunk rest rounds t waker flushing _ happend hne hrounds =>
    have hlength := List.length_pos_iff.mpr (hne hmax)
    rw [← happend, List.length_append]
    change rounds + rest.length ≤ _
    omega
  | poll _ _ => exact le_rfl
  | write _ hwrite => exact absurd hquiet hwrite
  | rest _ _ => exact le_rfl

lemma writesEnd (hmax : 0 < maxSize) (s : HostStream) : s.WritesEnd willWake stream maxSize := by
  intro s' hreach
  have hle : s'.rounds + s'.buffer.length ≤ s.rounds + s.buffer.length := by
    refine hreach.invariant (I := fun s' => s'.rounds + s'.buffer.length ≤
      s.rounds + s.buffer.length) le_rfl fun s₁ e s₂ hle hquiet hstep => ?_
    rw [hstep]
    exact ((steps_step s₁ e).rounds_le hmax hquiet).trans hle
  exact (Nat.le_add_right ..).trans hle

/-! ### Every drained chunk is submitted -/

/-- All bytes are with the host or in the buffer, as they were written, and no task waits for
room. -/
structure InOrder (s : HostStream) : Prop where
  accepted : s.submitted.flatten ++ s.buffer = s.accepted
  submitted : ∀ t flushing chunk kind, s.tasks t ≠ .printing flushing chunk (.pending kind)

lemma InOrder.conserves (h : s.InOrder) : s.Conserves := by
  intro t
  rw [h.accepted]

lemma inOrder_new (maxPending : ℕ) : (new maxPending).InOrder where
  accepted := rfl
  submitted _ _ _ _ h := by cases h

/-- A poll leaves an operation to be submitted only if there is no room. -/
lemma pollFuture_ne_pending {chan : HostChannelInner} {waker : Waker} {future : HostOpState}
    {kind : HostOpKind} (h : (chan.pollFuture willWake waker future).2.1 = .pending kind) :
    future = .pending kind ∧ chan.canSubmit = false := by
  cases future with
  | pending kind' =>
    rw [HostChannelInner.pollFuture] at h
    cases hroom : chan.canSubmit with
    | false =>
      rw [hroom] at h
      cases h
      exact ⟨rfl, rfl⟩
    | true =>
      rw [hroom] at h
      cases h
  | submitted id => cases h
  | done => cases h

/-- After the poll of a print no task waits for room that did not wait before, unless the print
does. -/
lemma pollPrint_waits {t : ℕ} {waker : Waker} {flushing : Bool} {chunk : List Cell}
    {future : HostOpState} (hbefore : ∀ t f c k, s.tasks t ≠ .printing f c (.pending k))
    (hroom : ∀ kind, future = .pending kind → s.chan.canSubmit = true) :
    ∀ t' f c k, (s.pollPrint willWake t waker flushing chunk future).tasks t' ≠
      .printing f c (.pending k) := by
  intro t' f c k heq
  change Function.update s.tasks t (Phase.after flushing chunk
    (s.chan.pollFuture willWake waker future).2.1 (s.chan.pollFuture willWake waker future).1) t' =
      _ at heq
  by_cases ht : t' = t
  · subst ht
    rw [Function.update_self] at heq
    cases hresult : (s.chan.pollFuture willWake waker future).1 with
    | pending =>
      rw [hresult, Phase.after] at heq
      obtain ⟨-, -, hstate⟩ := Phase.printing.inj heq
      obtain ⟨hfuture, hfull⟩ := pollFuture_ne_pending hstate
      rw [hroom _ hfuture] at hfull
      cases hfull
    | ready result =>
      rw [hresult] at heq
      cases result with
      | error e => cases heq
      | ok data =>
        rw [Phase.after] at heq
        split_ifs at heq
  · rw [Function.update_of_ne ht] at heq
    exact hbefore t' f c k heq

/-- A chunk that finds room is submitted at once. -/
lemma InOrder.steps (h : s.InOrder) (hstep : Steps willWake stream maxSize s e s')
    (hfit : Fitting maxSize s e) : s'.InOrder := by
  cases hstep with
  | @drain chunk rest rounds t waker flushing hdrains happend _ _ =>
    have hroom := hfit hdrains
    refine ⟨?_, pollPrint_waits h.submitted fun _ _ => hroom⟩
    change (if s.chan.canSubmit = true then s.submitted ++ [chunk] else s.submitted).flatten ++ rest
      = s.accepted
    rw [if_pos hroom, List.flatten_concat, List.append_assoc, happend, h.accepted]
  | @poll t waker flushing chunk future _ htask =>
    have hfuture : ∀ kind, future ≠ .pending kind := by
      rintro kind rfl
      exact h.submitted _ _ _ _ htask
    refine ⟨?_, pollPrint_waits h.submitted fun kind heq => absurd heq (hfuture kind)⟩
    have hsends : sends s.chan future = false := by
      cases future with
      | pending kind => exact absurd rfl (hfuture kind)
      | submitted id => rfl
      | done => rfl
    change (if sends s.chan future = true then s.submitted ++ [chunk] else s.submitted).flatten ++
      s.buffer = s.accepted
    rw [hsends, if_neg Bool.false_ne_true, h.accepted]
  | @write t cells _ _ =>
    refine ⟨by rw [← List.append_assoc, h.accepted], fun t' f c k heq => ?_⟩
    change Function.update s.tasks t .looping t' = _ at heq
    by_cases ht : t' = t
    · subst ht
      rw [Function.update_self] at heq
      cases heq
    · rw [Function.update_of_ne ht] at heq
      exact h.submitted _ _ _ _ heq
  | rest _ htasks =>
    refine ⟨h.accepted, fun t f c k heq => ?_⟩
    obtain hsame | hidle := htasks t
    · exact h.submitted _ _ _ _ (hsame.symm.trans heq)
    · cases hidle.symm.trans heq

/-! ### A chunk that finds no room -/

lemma Conserves.length_eq (h : s.Conserves) :
    s.submitted.flatten.length + s.buffer.length = s.accepted.length := by
  have hperm : (s.submitted.flatten ++ s.buffer).Perm s.accepted := by
    rw [List.perm_iff_count]
    intro cell
    have hcount := congrArg (List.count cell) (h cell.task)
    rwa [List.count_filter (by simp), List.count_filter (by simp)] at hcount
  rw [← List.length_append, hperm.length_eq]

/-- A chunk that is drained while the queue is full is neither with the host nor in the buffer. -/
lemma InOrder.not_conserves (h : s.InOrder) (hmax : 0 < maxSize)
    (hstep : Steps willWake stream maxSize s e s') (hfit : ¬ Fitting maxSize s e) :
    ¬ s'.Conserves := by
  intro hconserves
  obtain ⟨hdrains, hfull⟩ := Classical.not_imp.mp hfit
  cases hstep with
  | @drain chunk rest rounds t waker flushing _ happend hne _ =>
    have hlength : (if s.chan.canSubmit = true then s.submitted ++ [chunk]
        else s.submitted).flatten.length + rest.length = s.accepted.length := hconserves.length_eq
    rw [if_neg hfull, ← h.accepted, ← happend, List.length_append, List.length_append] at hlength
    have hpos := List.length_pos_iff.mpr (hne hmax)
    omega
  | poll hnot _ => exact absurd (hdrains.symm.trans hnot) (by decide)
  | write hnot _ => exact absurd (hdrains.symm.trans hnot) (by decide)
  | rest hnot _ => exact absurd (hdrains.symm.trans hnot) (by decide)

/-! ### Runs -/

lemma InOrder.forall_conserves_iff (h : s.InOrder) (hmax : 0 < maxSize) (events : List Event) :
    (∀ n, (s.run willWake stream maxSize (events.take n)).Conserves) ↔
      Admits (Fitting maxSize) (step willWake stream maxSize) s events := by
  induction events generalizing s with
  | nil =>
    refine iff_of_true (fun n => ?_) trivial
    rw [List.take_nil]
    exact h.conserves
  | cons e events ih =>
    have hsteps : Steps willWake stream maxSize s e (s.step willWake stream maxSize e) :=
      steps_step s e
    constructor
    · intro hall
      have hfit : Fitting maxSize s e := by
        by_contra hnot
        exact h.not_conserves hmax hsteps hnot (hall 1)
      exact ⟨hfit, (ih (h.steps hsteps hfit)).mp fun n => hall (n + 1)⟩
    · rintro ⟨hfit, hrest⟩ n
      cases n with
      | zero => exact h.conserves
      | succ n => exact (ih (h.steps hsteps hfit)).mpr hrest n

/-- In a run from a new stream, all is preserved as long as every chunk that is drained finds room
in the queue of the host. -/
theorem preserves_iff_fitting (willWake : Waker → Waker → Bool) (stream : UInt8)
    (hmax : 0 < maxSize) (maxPending : ℕ) (events : List Event) :
    (∀ n, ((new maxPending).run willWake stream maxSize (events.take n)).Preserves
        willWake stream maxSize) ↔
      Admits (Fitting maxSize) (step willWake stream maxSize) (new maxPending) events := by
  rw [← (inOrder_new maxPending).forall_conserves_iff hmax]
  exact forall_congr' fun n => ⟨fun h => h.conserves, fun h => ⟨h, writesEnd hmax _⟩⟩

/-- Two tasks write, and the host takes each request before the next chunk is drained. -/
def takingTurns : List Event :=
  [.write 0 [97, 10, 98], .write 1 [99, 10], .round 0 0, .others fun chan => chan.takePending.2,
    .round 1 1]

/-- The host gets all that the two tasks wrote. -/
theorem preserves_iff_fitting_takingTurns :
    (∀ n, ((new 1).run Waker.willWake 1 256 (takingTurns.take n)).Preserves Waker.willWake 1 256) ∧
      ((new 1).run Waker.willWake 1 256 takingTurns).submitted.map (·.map Cell.byte) =
        [[97, 10], [98, 99, 10]] := by
  refine ⟨(preserves_iff_fitting Waker.willWake 1 (by decide) 1 takingTurns).mpr ?_,
    by decide +kernel⟩
  refine ⟨?_, ?_, ?_, ?_, ?_, trivial⟩
  all_goals
    unfold Fitting
    decide +kernel

/-- Two tasks write while the queue of the host has one place: the first one drains its line `a`
while another request is in the queue, and the second one drains the rest of the first one's bytes
with its own line when there is room. -/
def twoWriters : List Event :=
  [.others fun chan => (chan.submit (.commandExit 0)).2, .write 0 [97, 10, 98], .round 0 0,
    .others fun chan => chan.takePending.2, .write 1 [99, 10], .round 1 1,
    .others fun chan => chan.takePending.2, .poll 0 0]

/-- The host gets the bytes of the first task in another order, though it takes every request. -/
theorem not_preserves : ¬ ∀ (willWake : Waker → Waker → Bool) (stream : UInt8)
    (maxSize maxPending : ℕ) (events : List Event),
    ((new maxPending).run willWake stream maxSize events).Preserves willWake stream maxSize := by
  intro h
  have hconserves := (h Waker.willWake 1 256 1 twoWriters).conserves 0
  exact absurd hconserves (by decide +kernel)

end HostStream

end AmlaSandbox.Shell.HostStreams
