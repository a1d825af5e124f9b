import AmlaSandbox.Host.Table
import AmlaSandbox.Library.Reachability
import AmlaSandbox.Vfs.PageCache
import AmlaSandbox.Vfs.Path
import Mathlib.Logic.Function.Basic

/-!
# Lazily fetched files

Stores that fetch the blocks of a file from the host when they are read, and share a cache. The
cache knows which blocks are being fetched and which readers wait for them, so that a block is
fetched once; the fetch itself is kept by the store that started it.
-/

namespace AmlaSandbox.Vfs

open Host Async Library

/-! ### The host operation of a fetch -/

/-- A host operation future with the slot of its operation, which no other operation shares. -/
inductive FetchFuture
  | pending (kind : HostOpKind)
  | submitted (slot : Option PendingSlot)
deriving DecidableEq

namespace FetchFuture

/-- Poll for the operation's result. -/
def pollSubmitted (waker : Waker) (slot : Option PendingSlot) : Poll HostResult × FetchFuture :=
  match slot with
  | none => (.ready (.error ⟨.other, "operation slot not found"⟩), .submitted none)
  | some slot =>
    match slot.result with
    | some result => (.ready result, .submitted none)
    | none => (.pending, .submitted (some { slot with waker := register slot.waker waker }))

/-- Poll of the future; `room` says that the queue of the channel has room. -/
def poll (room : Bool) (waker : Waker) : FetchFuture → Poll HostResult × FetchFuture
  | .pending kind => if !room then (.pending, .pending kind) else pollSubmitted waker (some {})
  | .submitted slot => pollSubmitted waker slot

/-- What the host does under the id of the operation, with the wakers that are woken. -/
def call (call : HostCall) : FetchFuture → FetchFuture × List Waker
  | .pending kind => (.pending kind, [])
  | .submitted none => (.submitted none, [])
  | .submitted (some slot) =>
    let slot' := call.onSlot slot
    (.submitted slot', if slot'.any (·.waker.isNone) then slot.waker.toList else [])

end FetchFuture

/-! ### Fetch coordination in the cache -/

/-- Result of `try_start_fetch`. -/
inductive FetchAction
  | cached
  | fetch
  | wait
deriving DecidableEq

/-- A fetch in progress: the wakers that wait for it, and its number, which the code does not
keep. -/
structure FetchEntry where
  fetch : ℕ
  wakers : List Waker := []
deriving DecidableEq

/-- The cache with its fetches in progress. `woken` lists the wake-ups made so far, `started` counts
the fetches and `ended` lists those that are over. The code does not keep these three. -/
structure SharedCache where
  cache : PageCache
  pendingFetches : AList fun _ : ℕ => FetchEntry := ∅
  woken : List Waker := []
  started : ℕ := 0
  ended : List ℕ := []

namespace SharedCache

variable (c : SharedCache)

/-- Try to start fetching a block. -/
def tryStartFetch (blockNum : ℕ) : FetchAction × SharedCache :=
  if (c.cache.lookup blockNum).isSome then (.cached, c)
  else if (c.pendingFetches.lookup blockNum).isSome then (.wait, c)
  else
    (.fetch,
      { c with
        pendingFetches := c.pendingFetches.insert blockNum { fetch := c.started }
        started := c.started + 1 })

/-- Register a waker to be called when a fetch is over, unless it is registered already. -/
def registerFetchWaker (blockNum : ℕ) (waker : Waker) : SharedCache :=
  match c.pendingFetches.lookup blockNum with
  | some entry =>
    if !entry.wakers.any (·.willWake waker) then
      { c with
        pendingFetches := c.pendingFetches.insert blockNum
          { entry with wakers := entry.wakers ++ [waker] } }
    else c
  | none => c

/-- Cancel a fetch: wake the waiters so that they can retry or fail. -/
def cancelFetch (blockNum : ℕ) : SharedCache :=
  match c.pendingFetches.lookup blockNum with
  | some entry =>
    { c with
      pendingFetches := c.pendingFetches.erase blockNum
      woken := c.woken ++ entry.wakers
      ended := entry.fetch :: c.ended }
  | none => c

/-- Complete a fetch: insert the block and wake all waiters. -/
def completeFetch (blockNum : ℕ) (data : List UInt8) : SharedCache :=
  { c with cache := c.cache.insert blockNum data }.cancelFetch blockNum

end SharedCache

/-! ### The store -/

/-- State of a pending block fetch; its number is not kept by the code. -/
structure PendingFetch where
  blockNum : ℕ
  future : FetchFuture
  fetch : ℕ
deriving DecidableEq

/-- Lazy block store for on-demand fetching. Sizes and offsets are `u64`. -/
structure LazyBlockStore where
  path : String
  fileSize : UInt64
  blockSize : UInt64
  pending : Option PendingFetch := none
  error : Option String := none
  fetches : ℕ := 0
deriving DecidableEq

namespace LazyBlockStore

variable (store : LazyBlockStore)

/-- Byte offset of a block. -/
def blockOffset (blockNum : ℕ) : UInt64 := UInt64.ofNat blockNum * store.blockSize

/-- Bytes to read for a block. -/
def blockLength (blockNum : ℕ) : UInt64 :=
  if store.fileSize ≤ store.blockOffset blockNum then 0
  else min (store.fileSize - store.blockOffset blockNum) store.blockSize

def readError (blockNum : ℕ) (e : IoError) : String :=
  s!"Failed to read block {blockNum}: {e.message}"

/-- Poll the pending fetch to completion. -/
def pollPendingFetch (room : Bool) (waker : Waker) (c : SharedCache) :
    Poll (Except VfsError Unit) × LazyBlockStore × SharedCache :=
  match store.pending with
  | none => (.ready (.ok ()), store, c)
  | some fetch =>
    match fetch.future.poll room waker with
    | (.pending, future) => (.pending, { store with pending := some { fetch with future } }, c)
    | (.ready (.ok data), _) =>
      (.ready (.ok ()), { store with pending := none, fetches := store.fetches + 1 },
        c.completeFetch fetch.blockNum data)
    | (.ready (.error e), _) =>
      let msg := readError fetch.blockNum e
      (.ready (.error (.notFound msg.toList)), { store with pending := none, error := some msg },
        c.cancelFetch fetch.blockNum)

/-- What a reader does for a block that the store has no pending fetch for. -/
def startFetch (blockNum : ℕ) (room : Bool) (waker : Waker) (c : SharedCache) :
    Poll (Except VfsError Unit) × LazyBlockStore × SharedCache :=
  match c.tryStartFetch blockNum with
  | (.cached, c) => (.ready (.ok ()), store, c)
  | (.wait, c) => (.pending, store, c.registerFetchWaker blockNum waker)
  | (.fetch, c') =>
    let length := store.blockLength blockNum
    if length = 0 then (.ready (.ok ()), store, c'.completeFetch blockNum [])
    else
      let future := .pending (.fileReadRange store.path (store.blockOffset blockNum) length)
      { store with pending := some { blockNum, future, fetch := c.started } }.pollPendingFetch
        room waker c'

def pollReadBlock (blockNum : ℕ) (room : Bool) (waker : Waker) (c : SharedCache) :
    Poll (Except VfsError Unit) × LazyBlockStore × SharedCache :=
  match store.error with
  | some error => (.ready (.error (.notFound error.toList)), store, c)
  | none =>
    match store.pending with
    | none => store.startFetch blockNum room waker c
    | some fetch =>
      if fetch.blockNum = blockNum then store.pollPendingFetch room waker c
      else
        match store.pollPendingFetch room waker c with
        | (.pending, store, c) => (.pending, store, c)
        | (.ready (.error e), store, c) => (.ready (.error e), store, c)
        | (.ready (.ok ()), store, c) => store.startFetch blockNum room waker c

end LazyBlockStore

/-! ### Stores and readers -/

namespace Fetching

/-- What a parked reader depends on: the number of a fetch, which its store keeps (`direct`) or the
cache lists. -/
structure FetchWait where
  parked : Parked
  fetch : ℕ
  direct : Bool

/-- The live stores, and the reads whose last poll returned `Pending`. -/
structure Machine where
  shared : SharedCache
  stores : ℕ → Option LazyBlockStore := fun _ => none
  readers : ℕ → Option FetchWait := fun _ => none

/-- `wake` is a wake-up that has nothing to do with a fetch. -/
inductive Event
  | openStore (i : ℕ) (path : String) (fileSize blockSize : UInt64)
  | poll (reader store blockNum : ℕ) (room : Bool) (waker : Waker)
  | host (store : ℕ) (call : HostCall)
  | wake (waker : Waker)
  | dropStore (i : ℕ)
  | dropRead (reader : ℕ)

/-- What a poll of a block leaves its reader waiting for. -/
def waitAfter (result : Poll (Except VfsError Unit)) (store : LazyBlockStore) (blockNum : ℕ)
    (waker : Waker) (c : SharedCache) : Option FetchWait :=
  match result with
  | .ready _ => none
  | .pending =>
    match store.pending with
    | some fetch => some ⟨⟨waker, c.woken.length⟩, fetch.fetch, true⟩
    | none =>
      (c.pendingFetches.lookup blockNum).map fun entry =>
        ⟨⟨waker, c.woken.length⟩, entry.fetch, false⟩

namespace Machine

variable (m : Machine)

def new (cache : PageCache) : Machine := { shared := { cache } }

/-- A store with the cache it leaves behind. -/
def put (i : ℕ) (store : LazyBlockStore) (shared : SharedCache) : Machine :=
  { m with stores := Function.update m.stores i (some store), shared }

def step : Event → Machine
  | .openStore i path fileSize blockSize =>
    match m.stores i with
    | none => m.put i { path, fileSize, blockSize } m.shared
    | some _ => m
  | .poll reader i blockNum room waker =>
    match m.stores i with
    | none => m
    | some store =>
      let (result, store, shared) := store.pollReadBlock blockNum room waker m.shared
      { m.put i store shared with
        readers := Function.update m.readers reader (waitAfter result store blockNum waker shared) }
  | .host i call =>
    match m.stores i with
    | none => m
    | some store =>
      match store.pending with
      | none => m
      | some fetch =>
        let (future, woken) := fetch.future.call call
        m.put i { store with pending := some { fetch with future } }
          { m.shared with woken := m.shared.woken ++ woken }
  | .wake waker => { m with shared := { m.shared with woken := m.shared.woken ++ [waker] } }
  | .dropStore i =>
    { m with
      stores := Function.update m.stores i none
      shared := { m.shared with
        ended := (((m.stores i).bind (·.pending)).map (·.fetch)).toList ++ m.shared.ended } }
  | .dropRead reader => { m with readers := Function.update m.readers reader none }

/-- One event. -/
def Step (m : Machine) (e : Event) (m' : Machine) : Prop := m' = m.step e

/-- The states of all runs over an empty set of stores whose events meet a condition. -/
abbrev Reachable (ok : Machine → Event → Prop) (cache : PageCache) (m : Machine) : Prop :=
  Reach Step ok (new cache) m

/-- Every block that is listed as being fetched has its fetch in a live store, and every parked
reader whose fetch is over has been woken since it parked. -/
structure Sound : Prop where
  listed : ∀ b, (m.shared.pendingFetches.lookup b).isSome →
    ∃ i store fetch, m.stores i = some store ∧ store.pending = some fetch ∧ fetch.blockNum = b
  woken : ∀ r w, m.readers r = some w → w.fetch ∈ m.shared.ended →
    w.parked.Woken m.shared.woken

end Machine

end Fetching

end AmlaSandbox.Vfs
