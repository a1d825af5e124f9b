import AmlaSandbox.Async.Basic
import AmlaSandbox.Library.GenTable
import Mathlib.Algebra.Group.Nat.Defs
import Mathlib.Tactic.Common

/-!
# The host channel

A bounded queue of requests to the host, and slots in which their results are collected. A slot is
named by an operation id; what comes in under an id that is not the current one of its slot is
ignored.

An id holds a slot index in its low 32 bits and a generation in its high 32 bits. The generations of
a slot start at 1, so the rank of a generation is how often its slot has been reused.
-/

namespace AmlaSandbox.Host

open Library

/-! ## Operation ids -/

/-- Unique identifier for a host operation. -/
structure HostOpId where
  id : UInt64
deriving DecidableEq

namespace HostOpId

/-- The slot index, in the low 32 bits. -/
def index (id : HostOpId) : Nat := (id.id &&& 0xFFFFFFFF).toNat

/-- The generation, in the high 32 bits. -/
def generation (id : HostOpId) : UInt32 := (id.id >>> 32).toUInt32

/-- `(u64::from(generation) << 32) | (slot_idx as u64)` -/
def encode (generation : UInt32) (slotIdx : Nat) : HostOpId :=
  ⟨(generation.toUInt64 <<< 32) ||| UInt64.ofNat slotIdx⟩

/-- How often a slot was reused when it has a generation. -/
def rank (generation : UInt32) : Nat := (generation - 1).toNat

/-- The id as a key of the slot table. -/
def key (id : HostOpId) : Key := ⟨id.index, rank id.generation⟩

lemma index_eq (id : HostOpId) : id.index = id.id.toNat % 2 ^ 32 := by
  rw [index, UInt64.toNat_and]
  exact Nat.and_two_pow_sub_one_eq_mod _ 32

lemma generation_eq (id : HostOpId) : id.generation.toNat = id.id.toNat / 2 ^ 32 := by
  have hlt := id.id.toNat_lt
  simp only [generation, UInt64.toNat_toUInt32, UInt64.toNat_shiftRight,
    Nat.shiftRight_eq_div_pow]
  simp
  omega

lemma toNat_encode {generation : UInt32} {slotIdx : Nat} (h : slotIdx < 2 ^ 32) :
    (encode generation slotIdx).id.toNat = generation.toNat * 2 ^ 32 + slotIdx := by
  have hlt := generation.toNat_lt
  have hslot : (UInt64.ofNat slotIdx).toNat = slotIdx :=
    UInt64.toNat_ofNat_of_lt' (Nat.lt_of_lt_of_le h (by decide))
  have hshift : (generation.toUInt64 <<< 32).toNat = generation.toNat * 2 ^ 32 := by
    rw [UInt64.toNat_shiftLeft]
    simp [Nat.shiftLeft_eq]
    omega
  rw [encode, UInt64.toNat_or, hshift, hslot, Nat.mul_comm, Nat.two_pow_add_eq_or_of_lt h]

lemma index_encode {generation : UInt32} {slotIdx : Nat} (h : slotIdx < 2 ^ 32) :
    (encode generation slotIdx).index = slotIdx := by
  rw [index_eq, toNat_encode h]
  omega

lemma generation_encode {generation : UInt32} {slotIdx : Nat} (h : slotIdx < 2 ^ 32) :
    (encode generation slotIdx).generation = generation := by
  apply UInt32.toNat_inj.mp
  rw [generation_eq, toNat_encode h]
  omega

lemma rank_injective {g g' : UInt32} (h : rank g = rank g') : g = g' := by
  have hsub : g - 1 = g' - 1 := UInt32.toNat_inj.mp h
  grind

/-- The rank goes up by one with every reuse, until the generation has gone around. -/
lemma rank_succ {g : UInt32} (h : g ≠ 0) : rank (g + 1) = rank g + 1 := by
  have hne : g.toNat ≠ 0 := fun hzero => h (UInt32.toNat_inj.mp hzero)
  have hle : (1 : UInt32) ≤ g := by
    rw [UInt32.le_iff_toNat_le]
    exact Nat.pos_of_ne_zero hne
  have hsub : (g - 1).toNat = g.toNat - 1 := UInt32.toNat_sub_of_le _ _ hle
  have hadd : g + 1 - 1 = g := by grind
  rw [rank, rank, hadd, hsub]
  omega

lemma ext_index {id id' : HostOpId} (hindex : id.index = id'.index)
    (hgeneration : id.generation = id'.generation) : id = id' := by
  have hnat : id.id.toNat = id'.id.toNat := by
    have hdiv := congrArg UInt32.toNat hgeneration
    rw [generation_eq, generation_eq] at hdiv
    rw [index_eq, index_eq] at hindex
    omega
  obtain ⟨bits⟩ := id
  obtain ⟨bits'⟩ := id'
  exact congrArg HostOpId.mk (UInt64.toNat_inj.mp hnat)

lemma key_injective {id id' : HostOpId} (h : id.key = id'.key) : id = id' := by
  obtain ⟨hindex, hrank⟩ := Key.mk.inj h
  exact ext_index hindex (rank_injective hrank)

end HostOpId

/-! ## The channel -/

open Async

/-- Task identifier of the scheduler. -/
structure TaskIdRepr where
  slot : Nat
  generation : Nat
deriving DecidableEq

inductive HostOpKind
  | fileRead (path : String)
  | fileReadRange (path : String) (offset length : UInt64)
  | custom (name : String) (data : List UInt8)
  | wakeAt (deadline : UInt64)
  | print (stream : UInt8) (data : List UInt8)
  | commandExit (code : Int32)
  | readStdin (maxBytes : Nat)
deriving DecidableEq

/-- A pending host operation request. -/
structure HostOpRequest where
  id : HostOpId
  kind : HostOpKind
  taskId : Option TaskIdRepr
deriving DecidableEq

/-- Default maximum size for chunked result accumulation. -/
def defaultChunkBufferLimit : Nat := 10 * 1024 * 1024

abbrev HostResult := IoResult (List UInt8)

/-- Slot for tracking a pending operation's result. -/
structure PendingSlot where
  result : Option HostResult := none
  buffer : List UInt8 := []
  bufferLimit : Nat := defaultChunkBufferLimit
  waker : Option Waker := none
  cancelled : Bool := false
deriving DecidableEq

/-- State of a host operation future. -/
inductive HostOpState
  | pending (kind : HostOpKind)
  | submitted (id : HostOpId)
  | done
deriving DecidableEq

/-- Shared state of the host channel. The last free slot is the head of `freeSlots`; `slotInfo`
holds the generations; `woken` lists the wake-ups made so far, which the code does not keep. -/
structure HostChannelInner where
  pendingRequests : List HostOpRequest := []
  maxPending : Nat
  slots : List (Option PendingSlot) := []
  slotInfo : List UInt32 := []
  freeSlots : List Nat := []
  submitWakers : List Waker := []
  currentTask : Option TaskIdRepr := none
  woken : List Waker := []
deriving DecidableEq

namespace HostChannelInner

variable (c : HostChannelInner)

def slot? (i : Nat) : Option PendingSlot := c.slots[i]?.join

/-- The id names the current generation of its slot. -/
def isValidId (id : HostOpId) : Bool := c.slotInfo[id.index]? == some id.generation

/-- Put a changed slot back. -/
def setSlot (i : Nat) (slot : PendingSlot) : HostChannelInner :=
  { c with slots := c.slots.set i (some slot) }

def wakeAll (wakers : List Waker) : HostChannelInner := { c with woken := c.woken ++ wakers }

/-- Allocate a slot and return its id. A reused slot gets its next generation, a new one the
first. -/
def allocateId : HostOpId × HostChannelInner :=
  match c.freeSlots with
  | idx :: free =>
    let slotInfo := c.slotInfo.modify idx (· + 1)
    (.encode (slotInfo[idx]?.getD 1) idx, { c with slotInfo, freeSlots := free })
  | [] =>
    let idx := c.slots.length
    (.encode 1 idx, { c with slots := c.slots ++ [none], slotInfo := c.slotInfo ++ [1] })

/-- Free a slot for reuse; its generation stays until then. -/
def freeSlot (id : HostOpId) : HostChannelInner :=
  if id.index < c.slots.length ∧ c.isValidId id then
    { c with slots := c.slots.set id.index none, freeSlots := id.index :: c.freeSlots }
  else c

/-- Wake one blocked submitter. -/
def wakeSubmitter : HostChannelInner :=
  { c with submitWakers := c.submitWakers.tail }.wakeAll c.submitWakers.head?.toList

/-- The loop of `take_pending` over the queue. -/
def takeLoop (c : HostChannelInner) :
    List HostOpRequest → Option HostOpRequest × HostChannelInner
  | [] => (none, { c with pendingRequests := [] })
  | req :: rest =>
    let c := { c with pendingRequests := rest }.wakeSubmitter
    if (c.slot? req.id.index).any (·.cancelled) then (c.freeSlot req.id).takeLoop rest
    else (some req, c)

/-- Take the next pending request, skipping cancelled ones. -/
def takePending : Option HostOpRequest × HostChannelInner := c.takeLoop c.pendingRequests

/-- The request is not of a cancelled operation. -/
def isLive (req : HostOpRequest) : Bool := (c.slot? req.id.index).any (!·.cancelled)

/-- There are pending non-cancelled requests. -/
def hasPending : Bool := c.pendingRequests.any c.isLive

/-- The number of pending non-cancelled requests. -/
def pendingCount : Nat := (c.pendingRequests.filter c.isLive).length

/-- Complete a host operation with a result. -/
def completeResult (id : HostOpId) (result : HostResult) : HostChannelInner :=
  if !c.isValidId id then c
  else
    match c.slot? id.index with
    | none => c
    | some slot =>
      if slot.cancelled then c.freeSlot id
      else
        (c.setSlot id.index { slot with result := some result, waker := none }).wakeAll
          slot.waker.toList

/-- The error with which an operation completes whose chunks are too long. -/
def overflowError (limit : Nat) : IoError :=
  ⟨.other, s!"chunked result exceeded maximum size ({limit} bytes)"⟩

/-- Append a chunk to a pending operation's buffer; the last chunk completes the operation. -/
def appendChunk (id : HostOpId) (data : List UInt8) (eof : Bool) :
    IoResult Bool × HostChannelInner :=
  if !c.isValidId id then (.error ⟨.invalidInput, "stale operation ID"⟩, c)
  else
    match c.slot? id.index with
    | none => (.error ⟨.notFound, "operation slot not found"⟩, c)
    | some slot =>
      if slot.cancelled then
        (.error ⟨.connectionAborted, "operation was cancelled"⟩, c.freeSlot id)
      else if slot.buffer.length + data.length > slot.bufferLimit then
        (.error ⟨.other, "buffer overflow"⟩,
          (c.setSlot id.index
            { slot with
              result := some (.error (overflowError slot.bufferLimit))
              waker := none }).wakeAll slot.waker.toList)
      else if eof then
        (.ok true,
          (c.setSlot id.index
            { slot with
              result := some (.ok (slot.buffer ++ data))
              buffer := []
              waker := none }).wakeAll slot.waker.toList)
      else (.ok false, c.setSlot id.index { slot with buffer := slot.buffer ++ data })

/-- Clear the buffer of a pending operation. -/
def clearBuffer (id : HostOpId) : HostChannelInner :=
  if !c.isValidId id then c
  else
    match c.slot? id.index with
    | none => c
    | some slot => c.setSlot id.index { slot with buffer := [] }

/-- There is room to submit an operation. -/
def canSubmit : Bool := c.pendingRequests.length < c.maxPending

/-- Submit an operation to the queue, which has room. -/
def submit (kind : HostOpKind) : HostOpId × HostChannelInner :=
  let (id, c) := c.allocateId
  (id,
    { c with
      pendingRequests := c.pendingRequests ++ [⟨id, kind, c.currentTask⟩]
      slots := c.slots.set id.index (some {}) })

/-- Register a waker for when the queue has room, unless a registered one is known to wake the same
task. `willWake` is `Waker::will_wake`. -/
def registerSubmitWaker (willWake : Waker → Waker → Bool) (waker : Waker) : HostChannelInner :=
  if !c.submitWakers.any (willWake · waker) then
    { c with submitWakers := c.submitWakers ++ [waker] }
  else c

/-- Poll for a specific operation's result. -/
def pollResult (waker : Waker) (id : HostOpId) : Poll HostResult × HostChannelInner :=
  if !c.isValidId id then
    (.ready (.error ⟨.other, "operation ID is stale (slot reused)"⟩), c)
  else
    match c.slot? id.index with
    | none => (.ready (.error ⟨.other, "operation slot not found"⟩), c)
    | some slot =>
      match slot.result with
      | some result =>
        (.ready result, (c.setSlot id.index { slot with result := none }).freeSlot id)
      | none =>
        (.pending, c.setSlot id.index { slot with waker := register slot.waker waker })

/-- Cancel an operation: its result is dropped, or will be discarded. -/
def cancel (id : HostOpId) : HostChannelInner :=
  if !c.isValidId id then c
  else
    match c.slot? id.index with
    | none => c
    | some slot =>
      if slot.result.isSome then c.freeSlot id
      else c.setSlot id.index { slot with cancelled := true }

/-- Poll of a host operation future: it is submitted as soon as the queue has room. -/
def pollFuture (willWake : Waker → Waker → Bool) (waker : Waker) :
    HostOpState → Poll HostResult × HostOpState × HostChannelInner
  | .pending kind =>
    if !c.canSubmit then (.pending, .pending kind, c.registerSubmitWaker willWake waker)
    else
      let (id, c) := c.submit kind
      let (result, c) := c.pollResult waker id
      (result, .submitted id, c)
  | .submitted id =>
    let (result, c) := c.pollResult waker id
    (result, .submitted id, c)
  | .done => (.ready (.error ⟨.other, "future polled after completion"⟩), .done, c)

/-- Drop of a host operation future. -/
def dropFuture : HostOpState → HostChannelInner
  | .submitted id => c.cancel id
  | _ => c

end HostChannelInner

end AmlaSandbox.Host
