import AmlaSandbox.Vfs.Coherence
import AmlaSandbox.Vfs.FileHandle
import AmlaSandbox.Vfs.LazyStore

/-!
# The two interfaces of a file handle

A handle is read and written through the futures of `read` and `write`, or as a stream. Both move
bytes between the caller's buffer and one block, and both are written over any block store.
-/

namespace AmlaSandbox.Vfs.Streams

open Async Host Library

/-! ### Block stores -/

/-- What a poll is given: the waker, and whether the queue of the host channel has room. -/
structure Context where
  room : Bool
  waker : Waker

/-- `none` is a panic. A block that has been read is in the cache. -/
class BlockStore (S : Type) where
  pollReadBlock : S → Context → ℕ → SharedCache →
    Option (Poll (Except VfsError Unit) × S × SharedCache)
  pollWriteBlock : S → Context → ℕ → List UInt8 → SharedCache →
    Option (Poll (Except VfsError Unit) × S × SharedCache)
  cached {s s' : S} {cx : Context} {n : ℕ} {c c' : SharedCache} :
    pollReadBlock s cx n c = some (.ready (.ok ()), s', c') → (c'.cache.lookup n).isSome

def lazyReadOnly : VfsError := .permissionDenied "LazyBlockStore is read-only".toList

lemma isSome_lookup_pollReadBlock64 {store : MemoryBlockStore} {n : ℕ} {cache cache' : PageCache}
    (h : store.pollReadBlock64 n cache = some cache') : (cache'.lookup n).isSome := by
  simp only [MemoryBlockStore.pollReadBlock64] at h
  cases hn : cache.lookup n with
  | some block =>
    simp only [PageCache.get_of_some hn, Option.some.injEq] at h
    simp [← h, hn]
  | none =>
    simp only [PageCache.get_of_none hn] at h
    split_ifs at h
    · simp [← Option.some.inj h]
    · simp [← Option.some.inj h]

instance : BlockStore MemoryBlockStore where
  pollReadBlock store _ n c :=
    (store.pollReadBlock64 n c.cache).map fun cache => (.ready (.ok ()), store, { c with cache })
  pollWriteBlock store _ n data c :=
    (store.pollWriteBlock64 n data c.cache).map fun (store, cache) =>
      (.ready (.ok ()), store, { c with cache })
  cached h := by
    obtain ⟨cache', hread, heq⟩ := Option.map_eq_some_iff.mp h
    cases heq
    exact isSome_lookup_pollReadBlock64 hread

section LazyBlockStore

variable {store store' : LazyBlockStore} {n : ℕ} {room : Bool} {waker : Waker}
variable {c c' : SharedCache} {data : List UInt8}

@[simp] lemma cache_cancelFetch : (c.cancelFetch n).cache = c.cache := by
  unfold SharedCache.cancelFetch
  split <;> rfl

lemma isSome_lookup_completeFetch : ((c.completeFetch n data).cache.lookup n).isSome := by
  simp [SharedCache.completeFetch]

lemma isSome_lookup_pollPendingFetch {fetch : PendingFetch} (hpending : store.pending = some fetch)
    (h : store.pollPendingFetch room waker c = (.ready (.ok ()), store', c')) :
    (c'.cache.lookup fetch.blockNum).isSome := by
  simp only [LazyBlockStore.pollPendingFetch, hpending] at h
  split at h
  · cases h
  · cases h
    exact isSome_lookup_completeFetch
  · cases h

lemma isSome_lookup_startFetch
    (h : store.startFetch n room waker c = (.ready (.ok ()), store', c')) :
    (c'.cache.lookup n).isSome := by
  unfold LazyBlockStore.startFetch at h
  split at h
  · rename_i heq
    cases h
    unfold SharedCache.tryStartFetch at heq
    split_ifs at heq with hcached hlisted
    · cases heq
      exact hcached
    · cases heq
    · cases heq
  · cases h
  · simp only at h
    split_ifs at h with hlength
    · cases h
      exact isSome_lookup_completeFetch
    · exact isSome_lookup_pollPendingFetch rfl h

lemma isSome_lookup_pollReadBlock
    (h : store.pollReadBlock n room waker c = (.ready (.ok ()), store', c')) :
    (c'.cache.lookup n).isSome := by
  unfold LazyBlockStore.pollReadBlock at h
  split at h
  · cases h
  · split at h
    · exact isSome_lookup_startFetch h
    · rename_i fetch hpending
      split_ifs at h with hsame
      · exact hsame ▸ isSome_lookup_pollPendingFetch hpending h
      · split at h
        · cases h
        · cases h
        · exact isSome_lookup_startFetch h

end LazyBlockStore

instance : BlockStore LazyBlockStore where
  pollReadBlock store cx n c := some (store.pollReadBlock n cx.room cx.waker c)
  pollWriteBlock store _ _ _ c := some (.ready (.error lazyReadOnly), store, c)
  cached h := isSome_lookup_pollReadBlock (Option.some.inj h)

/-- A file in memory or a mounted one. -/
abbrev Store := MemoryBlockStore ⊕ LazyBlockStore

instance : BlockStore Store where
  pollReadBlock
    | .inl store, cx, n, c =>
      (BlockStore.pollReadBlock store cx n c).map fun (r, store, c) => (r, .inl store, c)
    | .inr store, cx, n, c =>
      (BlockStore.pollReadBlock store cx n c).map fun (r, store, c) => (r, .inr store, c)
  pollWriteBlock
    | .inl store, cx, n, data, c =>
      (BlockStore.pollWriteBlock store cx n data c).map fun (r, store, c) => (r, .inl store, c)
    | .inr store, cx, n, data, c =>
      (BlockStore.pollWriteBlock store cx n data c).map fun (r, store, c) => (r, .inr store, c)
  cached {s _ _ _ _ _} h := by
    cases s with
    | inl store =>
      obtain ⟨⟨r, store', c'⟩, hread, heq⟩ := Option.map_eq_some_iff.mp h
      cases heq
      exact BlockStore.cached hread
    | inr store =>
      obtain ⟨⟨r, store', c'⟩, hread, heq⟩ := Option.map_eq_some_iff.mp h
      cases heq
      exact BlockStore.cached hread

/-! ### Handles -/

/-- A handle with the cache that it shares. -/
structure FileHandle (S : Type) where
  store : S
  cache : SharedCache
  pos : ℕ
  mode : OpenMode

/-- A range of a slice; `none` is the panic of a range that the slice does not have. -/
def slice {α : Type} (data : List α) (start stop : ℕ) : Option (List α) :=
  if start ≤ stop ∧ stop ≤ data.length then some ((data.take stop).drop start) else none

/-- `VfsError::to_string`. -/
def errorText : VfsError → Text
  | .notFound path => "File not found: ".toList ++ path
  | .permissionDenied message => "Permission denied: ".toList ++ message
  | .notADirectory path => "Not a directory: ".toList ++ path
  | .notAFile path => "Not a file: ".toList ++ path
  | .alreadyExists path => "Path exists: ".toList ++ path
  | .invalidPath message => "Invalid path: ".toList ++ message

/-- The error of a stream: a command error with its text. -/
structure SchedulerError where
  command : Text
deriving DecidableEq

namespace FileHandle

variable {S : Type} [BlockStore S] (handle : FileHandle S) (cx : Context)

def fileSize : ℕ := handle.cache.cache.fileSize

def blockSize : ℕ := handle.cache.cache.blockSize

/-- The block at the cursor. -/
def blockNum : ℕ := handle.pos / handle.blockSize

def offsetInBlock : ℕ := handle.pos % handle.blockSize

/-- `ReadFuture::poll`; the bytes are what it puts into a buffer of length `len`. -/
def pollReadFuture (len : ℕ) : Option (Poll (Except VfsError (List UInt8)) × FileHandle S) :=
  if ¬ handle.mode.canRead then
    some (.ready (.error (.permissionDenied "file not opened for reading".toList)), handle)
  else if handle.fileSize ≤ handle.pos then some (.ready (.ok []), handle)
  else if handle.blockSize = 0 then none
  else do
    let (result, store, cache) ←
      BlockStore.pollReadBlock handle.store cx handle.blockNum handle.cache
    match result with
    | .pending => some (.pending, { handle with store, cache })
    | .ready (.error e) => some (.ready (.error e), { handle with store, cache })
    | .ready (.ok ()) =>
      let (block, pages) := cache.cache.get handle.blockNum
      let handle' := { handle with store, cache := { cache with cache := pages } }
      let blockData ← block
      let remainingInBlock := blockData.length - handle.offsetInBlock
      let remainingInFile := handle.fileSize - handle.pos
      let toRead := min (min len remainingInBlock) remainingInFile
      if 0 < toRead then
        let bytes ← slice blockData handle.offsetInBlock (handle.offsetInBlock + toRead)
        some (.ready (.ok bytes), { handle' with pos := handle.pos + toRead })
      else some (.ready (.ok []), handle')

/-- `AsyncRead::poll_read`. -/
def pollRead (len : ℕ) : Option (Poll (Except SchedulerError (List UInt8)) × FileHandle S) :=
  if ¬ handle.mode.canRead then
    some (.ready (.error ⟨"file not opened for reading".toList⟩), handle)
  else if handle.fileSize ≤ handle.pos then some (.ready (.ok []), handle)
  else if handle.blockSize = 0 then none
  else do
    let (result, store, cache) ←
      BlockStore.pollReadBlock handle.store cx handle.blockNum handle.cache
    match result with
    | .pending => some (.pending, { handle with store, cache })
    | .ready (.error e) => some (.ready (.error ⟨errorText e⟩), { handle with store, cache })
    | .ready (.ok ()) =>
      let (block, pages) := cache.cache.get handle.blockNum
      let handle' := { handle with store, cache := { cache with cache := pages } }
      let blockData ← block
      let remainingInBlock := blockData.length - handle.offsetInBlock
      let remainingInFile := handle.fileSize - handle.pos
      let toRead := min (min len remainingInBlock) remainingInFile
      let bytes ← slice blockData handle.offsetInBlock (handle.offsetInBlock + toRead)
      some (.ready (.ok bytes), { handle' with pos := handle.pos + toRead })

/-- The number of bytes that go into the block at the cursor. -/
def toWrite (buf : List UInt8) : ℕ := min buf.length (handle.blockSize - handle.offsetInBlock)

/-- The block to write, with the cache after it: the bytes, merged with what is cached unless they
fill the block. `fresh` is the length of the block that stands for one that is not cached. A buffer
that gets too long is a panic. -/
def blockData (fresh : ℕ) (bytes : List UInt8) : Option (List UInt8 × SharedCache) :=
  let (block, cache) :=
    if handle.offsetInBlock = 0 ∧ bytes.length = handle.blockSize then (bytes, handle.cache.cache)
    else
      match handle.cache.cache.get handle.blockNum with
      | (some existing, cache) => (resizeAndCopy 0 existing handle.offsetInBlock bytes, cache)
      | (none, cache) =>
        (resizeAndCopy 0 (List.replicate fresh 0) handle.offsetInBlock bytes, cache)
  if isizeMax < block.length then none else some (block, { handle.cache with cache })

/-- `WriteFuture::poll`. -/
def pollWriteFuture (buf : List UInt8) : Option (Poll (Except VfsError ℕ) × FileHandle S) :=
  if ¬ handle.mode.canWrite then
    some (.ready (.error (.permissionDenied "file not opened for writing".toList)), handle)
  else if buf = [] then some (.ready (.ok 0), handle)
  else if handle.blockSize = 0 then none
  else do
    let toWrite := handle.toWrite buf
    let (block, cache) ← handle.blockData (handle.offsetInBlock + toWrite) (buf.take toWrite)
    let (result, store, cache) ←
      BlockStore.pollWriteBlock handle.store cx handle.blockNum block cache
    match result with
    | .pending => some (.pending, { handle with store, cache })
    | .ready (.error e) => some (.ready (.error e), { handle with store, cache })
    | .ready (.ok ()) =>
      let newPos := (handle.pos + toWrite) % 2 ^ 64
      let pages := cache.cache
      let pages := if pages.fileSize < newPos then pages.setFileSize newPos else pages
      some (.ready (.ok toWrite),
        { handle with store, cache := { cache with cache := pages }, pos := newPos })

/-- `AsyncWrite::poll_write`. -/
def pollWrite (buf : List UInt8) : Option (Poll (Except SchedulerError ℕ) × FileHandle S) :=
  if ¬ handle.mode.canWrite then
    some (.ready (.error ⟨"file not opened for writing".toList⟩), handle)
  else if buf = [] then some (.ready (.ok 0), handle)
  else if handle.blockSize = 0 then none
  else do
    let toWrite := handle.toWrite buf
    let (block, cache) ← handle.blockData handle.blockSize (buf.take toWrite)
    let (result, store, cache) ←
      BlockStore.pollWriteBlock handle.store cx handle.blockNum block cache
    match result with
    | .pending => some (.pending, { handle with store, cache })
    | .ready (.error e) => some (.ready (.error ⟨errorText e⟩), { handle with store, cache })
    | .ready (.ok ()) =>
      some (.ready (.ok toWrite),
        { handle with store, cache, pos := (handle.pos + toWrite) % 2 ^ 64 })

end FileHandle

/-! ### Where the interfaces agree -/

section Agreement

variable {S α ε : Type}

/-- What a poll gives to the caller, whatever its error. -/
def delivered : Poll (Except ε α) → Poll (Option α)
  | .pending => .pending
  | .ready result => .ready result.toOption

/-- Neither poll panics, and both deliver the same and leave the same handle. -/
def Agree (stream : Option (Poll (Except SchedulerError α) × FileHandle S))
    (future : Option (Poll (Except VfsError α) × FileHandle S)) : Prop :=
  ∃ r r' handle', stream = some (r, handle') ∧ future = some (r', handle') ∧
    delivered r = delivered r'

lemma not_agree_none {future : Option (Poll (Except VfsError α) × FileHandle S)} :
    ¬ Agree none future := by
  rintro ⟨r, r', handle', hstream, _⟩
  cases hstream

lemma agree_some_iff {r : Poll (Except SchedulerError α)} {r' : Poll (Except VfsError α)}
    {handle handle' : FileHandle S} (h : delivered r = delivered r') :
    Agree (some (r, handle)) (some (r', handle')) ↔ handle = handle' := by
  constructor
  · rintro ⟨r₁, r₂, handle₁, hstream, hfuture, _⟩
    cases hstream
    cases hfuture
    rfl
  · rintro rfl
    exact ⟨r, r', handle, rfl, rfl, h⟩

lemma agree_self {r : Poll (Except SchedulerError α)} {r' : Poll (Except VfsError α)}
    {handle : FileHandle S} (h : delivered r = delivered r') :
    Agree (some (r, handle)) (some (r', handle)) :=
  (agree_some_iff h).mpr rfl

namespace FileHandle

variable [BlockStore S] (handle : FileHandle S) (cx : Context)

/-- A read before the end of the file finds a block, and a block that is there reaches the
cursor. -/
def ReadsAlike : Prop :=
  handle.mode.canRead → handle.pos < handle.fileSize →
    0 < handle.blockSize ∧ ∃ result store cache,
      BlockStore.pollReadBlock handle.store cx handle.blockNum handle.cache =
        some (result, store, cache) ∧
      (result = .ready (.ok ()) → ∀ block, cache.cache.lookup handle.blockNum = some block →
        handle.offsetInBlock ≤ block.length)

lemma slice_add {data : List UInt8} {start n : ℕ} (h : start + n ≤ data.length) :
    slice data start (start + n) = some ((data.drop start).take n) := by
  rw [slice, if_pos ⟨Nat.le_add_right start n, h⟩, List.drop_take, Nat.add_sub_cancel_left]

lemma slice_eq_none {data : List UInt8} {start n : ℕ} (h : data.length < start) :
    slice data start (start + n) = none := by
  rw [slice, if_neg]
  omega

/-- A read takes from the block what the buffer and the file have room for. -/
lemma pollReadFuture_of_block {len toRead : ℕ} {store : S} {cache : SharedCache}
    {block : List UInt8} (hmode : handle.mode.canRead) (hpos : handle.pos < handle.fileSize)
    (hsize : 0 < handle.blockSize)
    (hpoll : BlockStore.pollReadBlock handle.store cx handle.blockNum handle.cache =
      some (.ready (.ok ()), store, cache))
    (hblock : cache.cache.lookup handle.blockNum = some block)
    (hread : min (min len (block.length - handle.offsetInBlock)) (handle.fileSize - handle.pos) =
      toRead) :
    handle.pollReadFuture cx len =
      some (.ready (.ok ((block.drop handle.offsetInBlock).take toRead)),
        { handle with
          store
          cache := { cache with cache := cache.cache.touch handle.blockNum }
          pos := handle.pos + toRead }) := by
  rw [pollReadFuture, if_neg (not_not.mpr hmode), if_neg (Nat.not_le.mpr hpos), if_neg hsize.ne']
  simp only [hpoll, PageCache.get_of_some hblock, Option.bind_eq_bind, Option.bind_some, hread]
  split_ifs with hsome
  · rw [slice_add (by omega), Option.bind_some]
  · obtain rfl := Nat.eq_zero_of_not_pos hsome
    rfl

/-- The two ways to read agree on a block that reaches the cursor, and on no other. -/
lemma agree_pollRead_of_block {len : ℕ} {store : S} {cache : SharedCache} {block : List UInt8}
    (hmode : handle.mode.canRead) (hpos : handle.pos < handle.fileSize)
    (hsize : 0 < handle.blockSize)
    (hpoll : BlockStore.pollReadBlock handle.store cx handle.blockNum handle.cache =
      some (.ready (.ok ()), store, cache))
    (hblock : cache.cache.lookup handle.blockNum = some block) :
    Agree (handle.pollRead cx len) (handle.pollReadFuture cx len) ↔
      handle.offsetInBlock ≤ block.length := by
  rw [handle.pollReadFuture_of_block cx hmode hpos hsize hpoll hblock rfl, pollRead,
    if_neg (not_not.mpr hmode), if_neg (Nat.not_le.mpr hpos), if_neg hsize.ne']
  simp only [hpoll, PageCache.get_of_some hblock, Option.bind_eq_bind, Option.bind_some]
  rcases Nat.lt_or_ge block.length handle.offsetInBlock with hshort | hreach
  · rw [slice_eq_none hshort]
    exact iff_of_false not_agree_none (Nat.not_le.mpr hshort)
  · refine iff_of_true ?_ hreach
    rw [slice_add (by omega), Option.bind_some]
    exact agree_self rfl

lemma agree_pollRead_iff {len : ℕ} :
    Agree (handle.pollRead cx len) (handle.pollReadFuture cx len) ↔ handle.ReadsAlike cx := by
  by_cases hmode : handle.mode.canRead
  swap
  · refine iff_of_true ?_ fun h => absurd h hmode
    rw [pollRead, pollReadFuture, if_pos hmode, if_pos hmode]
    exact agree_self rfl
  rcases Nat.lt_or_ge handle.pos handle.fileSize with hpos | hend
  swap
  · refine iff_of_true ?_ fun _ h => absurd h (Nat.not_lt.mpr hend)
    rw [pollRead, pollReadFuture, if_neg (not_not.mpr hmode), if_neg (not_not.mpr hmode),
      if_pos hend, if_pos hend]
    exact agree_self rfl
  have halike : handle.ReadsAlike cx ↔ 0 < handle.blockSize ∧ ∃ result store cache,
      BlockStore.pollReadBlock handle.store cx handle.blockNum handle.cache =
        some (result, store, cache) ∧
      (result = .ready (.ok ()) → ∀ block, cache.cache.lookup handle.blockNum = some block →
        handle.offsetInBlock ≤ block.length) :=
    ⟨fun h => h hmode hpos, fun h _ _ => h⟩
  rw [halike]
  rcases Nat.eq_zero_or_pos handle.blockSize with hzero | hsize
  · rw [pollRead, if_neg (not_not.mpr hmode), if_neg (Nat.not_le.mpr hpos), if_pos hzero]
    exact iff_of_false not_agree_none fun h => absurd hzero h.1.ne'
  cases hpoll : BlockStore.pollReadBlock handle.store cx handle.blockNum handle.cache with
  | none =>
    have hstream : handle.pollRead cx len = none := by
      rw [pollRead, if_neg (not_not.mpr hmode), if_neg (Nat.not_le.mpr hpos), if_neg hsize.ne']
      simp [hpoll]
    rw [hstream]
    exact iff_of_false not_agree_none (by simp)
  | some polled =>
    obtain ⟨result, store, cache⟩ := polled
    match result, hpoll with
    | .ready (.ok ()), hpoll =>
      obtain ⟨block, hblock⟩ := Option.isSome_iff_exists.mp (BlockStore.cached hpoll)
      rw [handle.agree_pollRead_of_block cx hmode hpos hsize hpoll hblock]
      simp [hsize, hblock]
    | .ready (.error e), hpoll =>
      refine iff_of_true ?_ ⟨hsize, _, _, _, rfl, by simp⟩
      rw [pollRead, pollReadFuture, if_neg (not_not.mpr hmode), if_neg (not_not.mpr hmode),
        if_neg (Nat.not_le.mpr hpos), if_neg (Nat.not_le.mpr hpos), if_neg hsize.ne',
        if_neg hsize.ne']
      simp only [hpoll, Option.bind_eq_bind, Option.bind_some]
      exact agree_self rfl
    | .pending, hpoll =>
      refine iff_of_true ?_ ⟨hsize, _, _, _, rfl, by simp⟩
      rw [pollRead, pollReadFuture, if_neg (not_not.mpr hmode), if_neg (not_not.mpr hmode),
        if_neg (Nat.not_le.mpr hpos), if_neg (Nat.not_le.mpr hpos), if_neg hsize.ne',
        if_neg hsize.ne']
      simp only [hpoll, Option.bind_eq_bind, Option.bind_some]
      exact agree_self rfl

end FileHandle

end Agreement

/-! ### The block to write -/

namespace FileHandle

variable {S : Type} (handle : FileHandle S) (buf : List UInt8)

/-- The bytes fill the block. -/
def Fills : Prop := handle.offsetInBlock = 0 ∧ handle.toWrite buf = handle.blockSize

instance : Decidable (handle.Fills buf) := inferInstanceAs (Decidable (_ ∧ _))

/-- The bytes go into a block that is not cached, and end before the block does. -/
def Pads : Prop :=
  ¬ handle.Fills buf ∧ handle.cache.cache.lookup handle.blockNum = none ∧
    handle.offsetInBlock + handle.toWrite buf < handle.blockSize

/-- The length of the block to write. -/
def blockLength (fresh : ℕ) : ℕ :=
  if handle.Fills buf then handle.blockSize
  else
    max (((handle.cache.cache.lookup handle.blockNum).map List.length).getD fresh)
      (handle.offsetInBlock + handle.toWrite buf)

variable {handle buf}

lemma length_take_toWrite : (buf.take (handle.toWrite buf)).length = handle.toWrite buf := by
  rw [List.length_take, toWrite]
  omega

lemma offset_add_toWrite_le (hsize : 0 < handle.blockSize) :
    handle.offsetInBlock + handle.toWrite buf ≤ handle.blockSize := by
  have hlt : handle.offsetInBlock < handle.blockSize := Nat.mod_lt _ hsize
  rw [toWrite]
  omega

/-- What is prepared has the length that it should have, and the cache does not depend on how a
block that is not cached is stood for. -/
lemma blockData_spec (handle : FileHandle S) (buf : List UInt8) :
    ∃ pages, ∀ fresh, ∃ block, block.length = handle.blockLength buf fresh ∧
      handle.blockData fresh (buf.take (handle.toWrite buf)) =
        if isizeMax < block.length then none
        else some (block, { handle.cache with cache := pages }) := by
  by_cases hfills : handle.offsetInBlock = 0 ∧ handle.toWrite buf = handle.blockSize
  · refine ⟨handle.cache.cache, fun fresh => ⟨buf.take (handle.toWrite buf), ?_, ?_⟩⟩
    · rw [length_take_toWrite, blockLength, if_pos (show handle.Fills buf from hfills)]
      exact hfills.2
    · simp only [blockData, length_take_toWrite]
      rw [if_pos hfills, length_take_toWrite]
  · refine ⟨(handle.cache.cache.get handle.blockNum).2, fun fresh =>
      ⟨resizeAndCopy 0 ((handle.cache.cache.lookup handle.blockNum).getD (List.replicate fresh 0))
        handle.offsetInBlock (buf.take (handle.toWrite buf)), ?_, ?_⟩⟩
    · rw [resizeAndCopy_eq_writeAt, length_writeAt, length_take_toWrite, blockLength,
        if_neg (show ¬ handle.Fills buf from hfills)]
      cases handle.cache.cache.lookup handle.blockNum <;> simp
    · simp only [blockData, length_take_toWrite]
      rw [if_neg hfills, PageCache.get]
      cases handle.cache.cache.lookup handle.blockNum <;> rfl

lemma blockData_eq_of_not_pads (hsize : 0 < handle.blockSize) (h : ¬ handle.Pads buf) :
    handle.blockData handle.blockSize (buf.take (handle.toWrite buf)) =
      handle.blockData (handle.offsetInBlock + handle.toWrite buf)
        (buf.take (handle.toWrite buf)) := by
  simp only [blockData, length_take_toWrite]
  by_cases hfills : handle.offsetInBlock = 0 ∧ handle.toWrite buf = handle.blockSize
  · rw [if_pos hfills, if_pos hfills]
  rw [if_neg hfills, if_neg hfills, PageCache.get]
  cases hblock : handle.cache.cache.lookup handle.blockNum with
  | some block => rfl
  | none =>
    have hle : handle.offsetInBlock + handle.toWrite buf ≤ handle.blockSize :=
      offset_add_toWrite_le hsize
    have hge : handle.blockSize ≤ handle.offsetInBlock + handle.toWrite buf := by
      by_contra hlt
      exact h ⟨hfills, hblock, by omega⟩
    rw [Nat.le_antisymm hle hge]

lemma blockLength_mono {fresh fresh' : ℕ} (h : fresh ≤ fresh') :
    handle.blockLength buf fresh ≤ handle.blockLength buf fresh' := by
  unfold blockLength
  split_ifs
  · exact Nat.le_refl _
  · cases handle.cache.cache.lookup handle.blockNum with
    | none =>
      simp only [Option.map_none, Option.getD_none]
      omega
    | some block => exact Nat.le_refl _

lemma blockLength_of_pads (h : handle.Pads buf) :
    handle.blockLength buf handle.blockSize = handle.blockSize ∧
      handle.blockLength buf (handle.offsetInBlock + handle.toWrite buf) =
        handle.offsetInBlock + handle.toWrite buf := by
  obtain ⟨hfills, hnone, hlt⟩ := h
  simp only [blockLength, if_neg hfills, hnone, Option.map_none, Option.getD_none]
  omega

end FileHandle

/-! ### Writes to a file in memory -/

section Memory

variable {store : MemoryBlockStore} {n : ℕ} {cache : PageCache} {block : List UInt8}

/-- A block that starts and ends within 64 bits, in a buffer that does not get too long. -/
def Fits (store : MemoryBlockStore) (n length : ℕ) : Prop :=
  length ≤ isizeMax ∧ store.startOf n + length < 2 ^ 64 ∧
    store.startOf n + length ≤ max store.data.length isizeMax

lemma Fits.mono {length length' : ℕ} (h : Fits store n length) (hle : length' ≤ length) :
    Fits store n length' := by
  obtain ⟨hblock, hend, hlong⟩ := h
  exact ⟨by omega, by omega, by omega⟩

lemma pollWriteBlock64_of_fits (h : Fits store n block.length) :
    store.pollWriteBlock64 n block cache =
      some ({ store with data := writeAt 0 store.data (store.startOf n) block },
        (cache.insert n block).setFileSize
          (max store.data.length (store.startOf n + block.length))) := by
  obtain ⟨_, hend, hlong⟩ := h
  simp only [MemoryBlockStore.pollWriteBlock64, Nat.mod_eq_of_lt hend, resizeAndCopy_eq_writeAt]
  rw [if_neg (by omega), length_writeAt]

lemma pollWriteBlock64_of_not_fits (hblock : block.length ≤ isizeMax)
    (h : ¬ Fits store n block.length) : store.pollWriteBlock64 n block cache = none := by
  have hstart : store.startOf n < 2 ^ 64 := Nat.mod_lt _ (by decide)
  have hmax : isizeMax < 2 ^ 63 := by decide
  simp only [MemoryBlockStore.pollWriteBlock64]
  rw [if_pos]
  rcases Nat.lt_or_ge (store.startOf n + block.length) (2 ^ 64) with hend | hend
  · right
    rw [Nat.mod_eq_of_lt hend]
    by_contra hlong
    exact h ⟨hblock, hend, by omega⟩
  · left
    rw [Nat.mod_eq_sub_mod hend, Nat.mod_eq_of_lt (by omega)]
    omega

end Memory

/-! ### Writes to a file in memory or a mounted one -/

namespace FileHandle

/-- A write to a file in memory prepares the same block in both ways, which fits into the file, and
the file then reaches as far as the cursor. The block for a mounted file is not written. -/
def WritesAlike (handle : FileHandle Store) (buf : List UInt8) : Prop :=
  handle.mode.canWrite → buf ≠ [] →
    0 < handle.blockSize ∧
      match handle.store with
      | .inl store =>
        let length := handle.blockLength buf (handle.offsetInBlock + handle.toWrite buf)
        ¬ handle.Pads buf ∧ Fits store handle.blockNum length ∧
          (handle.pos + handle.toWrite buf) % 2 ^ 64 ≤
            max store.data.length (store.startOf handle.blockNum + length)
      | .inr _ => handle.blockLength buf handle.blockSize ≤ isizeMax

variable {handle : FileHandle Store} {cx : Context} {buf block block' : List UInt8}
variable {store : MemoryBlockStore} {mounted : LazyBlockStore} {pages : PageCache} {fresh : ℕ}

/-- The handle after a block has been written. -/
def written (handle : FileHandle Store) (buf : List UInt8) (store : MemoryBlockStore)
    (block : List UInt8) (pages : PageCache) : FileHandle Store :=
  let start := store.startOf handle.blockNum
  let cache := (pages.insert handle.blockNum block).setFileSize
    (max store.data.length (start + block.length))
  { handle with
    store := .inl { store with data := writeAt 0 store.data start block }
    cache := { handle.cache with cache }
    pos := (handle.pos + handle.toWrite buf) % 2 ^ 64 }

lemma lookup_written :
    (handle.written buf store block pages).cache.cache.lookup handle.blockNum = some block := by
  simp [written]

/-- The file size is moved up to the cursor. -/
def sizeUpToPos (handle : FileHandle Store) : FileHandle Store :=
  let pages := handle.cache.cache
  let pages := if pages.fileSize < handle.pos then pages.setFileSize handle.pos else pages
  { handle with cache := { handle.cache with cache := pages } }

lemma lookup_sizeUpToPos {n : ℕ} :
    handle.sizeUpToPos.cache.cache.lookup n = handle.cache.cache.lookup n := by
  simp only [sizeUpToPos]
  split_ifs <;> rfl

lemma sizeUpToPos_eq_self_iff :
    handle = handle.sizeUpToPos ↔ handle.pos ≤ handle.cache.cache.fileSize := by
  simp only [sizeUpToPos]
  constructor
  · intro heq
    by_contra hlt
    have hsize := congrArg (fun h : FileHandle Store => h.cache.cache.fileSize) heq
    simp only [if_pos (Nat.not_le.mp hlt), PageCache.fileSize_setFileSize] at hsize
    omega
  · intro hle
    rw [if_neg (Nat.not_lt.mpr hle)]

section Steps

variable (hmode : handle.mode.canWrite) (hbuf : buf ≠ []) (hsize : 0 < handle.blockSize)
include hmode hbuf hsize

lemma pollWrite_of_none
    (h : handle.blockData handle.blockSize (buf.take (handle.toWrite buf)) = none) :
    handle.pollWrite cx buf = none := by
  rw [pollWrite, if_neg (not_not.mpr hmode), if_neg hbuf, if_neg hsize.ne']
  simp [h]

lemma pollWrite_memory (hstore : handle.store = .inl store)
    (hblock : handle.blockData handle.blockSize (buf.take (handle.toWrite buf)) =
      some (block, { handle.cache with cache := pages }))
    (hfits : Fits store handle.blockNum block.length) :
    handle.pollWrite cx buf =
      some (.ready (.ok (handle.toWrite buf)), handle.written buf store block pages) := by
  rw [pollWrite, if_neg (not_not.mpr hmode), if_neg hbuf, if_neg hsize.ne']
  simp only [hblock, hstore, BlockStore.pollWriteBlock, pollWriteBlock64_of_fits hfits,
    Option.bind_eq_bind, Option.bind_some, Option.map_some]
  rfl

lemma pollWriteFuture_memory (hstore : handle.store = .inl store)
    (hblock : handle.blockData (handle.offsetInBlock + handle.toWrite buf)
      (buf.take (handle.toWrite buf)) = some (block, { handle.cache with cache := pages }))
    (hfits : Fits store handle.blockNum block.length) :
    handle.pollWriteFuture cx buf =
      some (.ready (.ok (handle.toWrite buf)),
        (handle.written buf store block pages).sizeUpToPos) := by
  rw [pollWriteFuture, if_neg (not_not.mpr hmode), if_neg hbuf, if_neg hsize.ne']
  simp only [hblock, hstore, BlockStore.pollWriteBlock, pollWriteBlock64_of_fits hfits,
    Option.bind_eq_bind, Option.bind_some, Option.map_some]
  rfl

lemma pollWrite_memory_of_not_fits (hstore : handle.store = .inl store)
    (hblock : handle.blockData handle.blockSize (buf.take (handle.toWrite buf)) =
      some (block, { handle.cache with cache := pages }))
    (hlength : block.length ≤ isizeMax) (hfits : ¬ Fits store handle.blockNum block.length) :
    handle.pollWrite cx buf = none := by
  rw [pollWrite, if_neg (not_not.mpr hmode), if_neg hbuf, if_neg hsize.ne']
  simp only [hblock, hstore, BlockStore.pollWriteBlock,
    pollWriteBlock64_of_not_fits hlength hfits, Option.bind_eq_bind, Option.bind_some,
    Option.map_none, Option.bind_none]

/-- The two ways to write to a mounted file agree on a block that can be prepared. -/
lemma agree_pollWrite_mounted_iff (hstore : handle.store = .inr mounted) :
    Agree (handle.pollWrite cx buf) (handle.pollWriteFuture cx buf) ↔
      handle.blockLength buf handle.blockSize ≤ isizeMax := by
  obtain ⟨pages, hprepared⟩ := blockData_spec handle buf
  obtain ⟨block, hlength, hblock⟩ := hprepared handle.blockSize
  obtain ⟨block', hlength', hblock'⟩ := hprepared (handle.offsetInBlock + handle.toWrite buf)
  have hle : block'.length ≤ block.length := by
    rw [hlength, hlength']
    exact blockLength_mono (offset_add_toWrite_le hsize)
  rw [← hlength]
  rcases Nat.lt_or_ge isizeMax block.length with hlong | hshort
  · rw [if_pos hlong] at hblock
    rw [pollWrite_of_none hmode hbuf hsize hblock]
    exact iff_of_false not_agree_none (Nat.not_le.mpr hlong)
  · refine iff_of_true ?_ hshort
    rw [if_neg (by omega)] at hblock hblock'
    rw [pollWrite, pollWriteFuture, if_neg (not_not.mpr hmode), if_neg (not_not.mpr hmode),
      if_neg hbuf, if_neg hbuf, if_neg hsize.ne', if_neg hsize.ne']
    simp only [hblock, hblock', hstore, BlockStore.pollWriteBlock, Option.bind_eq_bind,
      Option.bind_some, Option.map_some]
    exact agree_self rfl

/-- Blocks of different lengths leave different caches. -/
lemma not_agree_of_length_ne (hstore : handle.store = .inl store)
    (hblock : handle.blockData handle.blockSize (buf.take (handle.toWrite buf)) =
      some (block, { handle.cache with cache := pages }))
    (hblock' : handle.blockData (handle.offsetInBlock + handle.toWrite buf)
      (buf.take (handle.toWrite buf)) = some (block', { handle.cache with cache := pages }))
    (hfits : Fits store handle.blockNum block.length)
    (hfits' : Fits store handle.blockNum block'.length) (hne : block.length ≠ block'.length) :
    ¬ Agree (handle.pollWrite cx buf) (handle.pollWriteFuture cx buf) := by
  rw [pollWrite_memory hmode hbuf hsize hstore hblock hfits,
    pollWriteFuture_memory hmode hbuf hsize hstore hblock' hfits', agree_some_iff rfl]
  intro heq
  have hlookup := congrArg (fun h : FileHandle Store => h.cache.cache.lookup handle.blockNum) heq
  simp only [lookup_written, lookup_sizeUpToPos, Option.some.injEq] at hlookup
  exact hne (congrArg List.length hlookup)

/-- The two ways to write to a file in memory agree on the same block that fits. -/
lemma agree_pollWrite_memory_iff (hstore : handle.store = .inl store) :
    Agree (handle.pollWrite cx buf) (handle.pollWriteFuture cx buf) ↔
      ¬ handle.Pads buf ∧
      Fits store handle.blockNum
        (handle.blockLength buf (handle.offsetInBlock + handle.toWrite buf)) ∧
      (handle.pos + handle.toWrite buf) % 2 ^ 64 ≤
        max store.data.length (store.startOf handle.blockNum +
          handle.blockLength buf (handle.offsetInBlock + handle.toWrite buf)) := by
  obtain ⟨pages, hprepared⟩ := blockData_spec handle buf
  obtain ⟨block, hlength, hblock⟩ := hprepared (handle.offsetInBlock + handle.toWrite buf)
  rw [← hlength]
  by_cases hpads : handle.Pads buf
  · refine iff_of_false ?_ fun h => h.1 hpads
    obtain ⟨padded, hlength', hpadded⟩ := hprepared handle.blockSize
    obtain ⟨hfull, hpart⟩ := blockLength_of_pads hpads
    have hlt : block.length < padded.length := by
      rw [hlength, hlength', hfull, hpart]
      exact hpads.2.2
    by_cases hlong : isizeMax < padded.length
    · rw [if_pos hlong] at hpadded
      rw [pollWrite_of_none hmode hbuf hsize hpadded]
      exact not_agree_none
    rw [if_neg hlong] at hpadded
    rw [if_neg (by omega)] at hblock
    by_cases hfits : Fits store handle.blockNum padded.length
    · exact not_agree_of_length_ne hmode hbuf hsize hstore hpadded hblock hfits
        (hfits.mono hlt.le) hlt.ne'
    · rw [pollWrite_memory_of_not_fits hmode hbuf hsize hstore hpadded (Nat.not_lt.mp hlong)
        hfits]
      exact not_agree_none
  have hsame := (blockData_eq_of_not_pads hsize hpads).trans hblock
  by_cases hlong : isizeMax < block.length
  · rw [if_pos hlong] at hsame
    rw [pollWrite_of_none hmode hbuf hsize hsame]
    exact iff_of_false not_agree_none fun h => absurd h.2.1.1 (Nat.not_le.mpr hlong)
  rw [if_neg hlong] at hsame hblock
  by_cases hfits : Fits store handle.blockNum block.length
  · rw [pollWrite_memory hmode hbuf hsize hstore hsame hfits,
      pollWriteFuture_memory hmode hbuf hsize hstore hblock hfits, agree_some_iff rfl,
      sizeUpToPos_eq_self_iff]
    exact ⟨fun h => ⟨hpads, hfits, h⟩, fun h => h.2.2⟩
  · rw [pollWrite_memory_of_not_fits hmode hbuf hsize hstore hsame (Nat.not_lt.mp hlong) hfits]
    exact iff_of_false not_agree_none fun h => hfits h.2.1

end Steps

/-! ### The futures over a file in memory -/

lemma agree_pollWrite_iff :
    Agree (handle.pollWrite cx buf) (handle.pollWriteFuture cx buf) ↔ handle.WritesAlike buf := by
  by_cases hmode : handle.mode.canWrite
  swap
  · refine iff_of_true ?_ fun h => absurd h hmode
    rw [pollWrite, pollWriteFuture, if_pos hmode, if_pos hmode]
    exact agree_self rfl
  by_cases hbuf : buf = []
  · refine iff_of_true ?_ fun _ h => absurd hbuf h
    rw [pollWrite, pollWriteFuture, if_neg (not_not.mpr hmode), if_neg (not_not.mpr hmode),
      if_pos hbuf, if_pos hbuf]
    exact agree_self rfl
  rcases Nat.eq_zero_or_pos handle.blockSize with hzero | hsize
  · rw [pollWrite, if_neg (not_not.mpr hmode), if_neg hbuf, if_pos hzero]
    exact iff_of_false not_agree_none fun h => absurd hzero (h hmode hbuf).1.ne'
  cases hstore : handle.store with
  | inl store =>
    rw [agree_pollWrite_memory_iff hmode hbuf hsize hstore, WritesAlike]
    simp [hmode, hbuf, hsize, hstore]
  | inr mounted =>
    rw [agree_pollWrite_mounted_iff hmode hbuf hsize hstore, WritesAlike]
    simp [hmode, hbuf, hsize, hstore]

/-- A stream agrees with the futures of a handle exactly where a read finds a block that reaches
the cursor, and a write is not padded, fits, and leaves a file that reaches the cursor. -/
theorem agree_iff (handle : FileHandle Store) (cx : Context) (len : ℕ) (buf : List UInt8) :
    (Agree (handle.pollRead cx len) (handle.pollReadFuture cx len) ↔ handle.ReadsAlike cx) ∧
      (Agree (handle.pollWrite cx buf) (handle.pollWriteFuture cx buf) ↔
        handle.WritesAlike buf) :=
  ⟨handle.agree_pollRead_iff cx, agree_pollWrite_iff⟩

/-- The first byte of a file, for which a stream writes a whole block. -/
theorem not_agree_firstByte :
    ¬ ∀ (handle : FileHandle Store) (cx : Context) (len : ℕ) (buf : List UInt8),
      Agree (handle.pollRead cx len) (handle.pollReadFuture cx len) ∧
        Agree (handle.pollWrite cx buf) (handle.pollWriteFuture cx buf) := by
  intro hall
  let handle : FileHandle Store :=
    { store := .inl (.withBlockSize [] 4)
      cache := { cache := .new 4 0 }
      pos := 0
      mode := .write }
  have hagree := (hall handle ⟨true, 0⟩ 0 [7]).2
  have hpads : handle.Pads [7] := ⟨by decide, rfl, by decide⟩
  have halike := agree_pollWrite_iff.mp hagree rfl (List.cons_ne_nil _ _)
  exact halike.2.1 hpads

end FileHandle

end AmlaSandbox.Vfs.Streams
