import AmlaSandbox.Vfs.Streams

/-!
# Files of the host

Handles of one file of the host, each with a store of its own that fetches the blocks it is asked
for, and one cache for all of them. What the handles deliver is the file, as long as the host
answers with the bytes that it is asked for.
-/

namespace AmlaSandbox.Vfs

open Host Async Library

/-! ### What the host answers -/

/-- The call answers a request for `content`: as a whole, in chunks, or with an error. -/
def Serves (content : List UInt8) (slot : PendingSlot) : HostCall → Prop
  | .complete (.ok data) => data = content
  | .complete (.error _) => True
  | .chunk data false => slot.buffer ++ data <+: content
  | .chunk data true => slot.buffer ++ data = content
  | .clearBuffer => True

instance {content : List UInt8} {slot : PendingSlot} {call : HostCall} :
    Decidable (Serves content slot call) :=
  match call with
  | .complete (.ok data) => inferInstanceAs (Decidable (data = content))
  | .complete (.error _) => .isTrue trivial
  | .chunk data false => inferInstanceAs (Decidable (slot.buffer ++ data <+: content))
  | .chunk data true => inferInstanceAs (Decidable (slot.buffer ++ data = content))
  | .clearBuffer => .isTrue trivial

/-- The slot of a request for `content` holds nothing else. -/
def Collects (content : List UInt8) (slot : PendingSlot) : Prop :=
  slot.buffer <+: content ∧ ∀ data, slot.result = some (.ok data) → data = content

section Collects

variable {content : List UInt8} {slot slot' : PendingSlot} {call : HostCall}

lemma collects_empty : Collects content {} := by simp [Collects]

lemma Collects.onSlot (h : Collects content slot) (hcall : Serves content slot call)
    (hslot : call.onSlot slot = some slot') : Collects content slot' := by
  obtain ⟨hbuffer, hresult⟩ := h
  cases call with
  | complete result =>
    simp only [HostCall.onSlot] at hslot
    split_ifs at hslot
    obtain rfl := Option.some.inj hslot
    refine ⟨hbuffer, fun data hdata => ?_⟩
    obtain rfl := Option.some.inj hdata
    exact hcall
  | chunk data eof =>
    simp only [HostCall.onSlot] at hslot
    split_ifs at hslot with hcancelled hlimit heof
    · obtain rfl := Option.some.inj hslot
      exact ⟨hbuffer, fun data hdata => by simp at hdata⟩
    · obtain rfl := Option.some.inj hslot
      subst heof
      refine ⟨List.nil_prefix, fun data hdata => ?_⟩
      rw [← Except.ok.inj (Option.some.inj hdata)]
      exact hcall
    · obtain rfl := Option.some.inj hslot
      rw [Bool.not_eq_true] at heof
      subst heof
      exact ⟨hcall, hresult⟩
  | clearBuffer =>
    obtain rfl := Option.some.inj hslot
    exact ⟨List.nil_prefix, hresult⟩

end Collects

namespace FetchFuture

/-- The operation asks the host for `content`, and its slot holds nothing else. -/
def Fetches (file content : List UInt8) : FetchFuture → Prop
  | .pending (.fileReadRange _ offset length) =>
    (file.drop offset.toNat).take length.toNat = content
  | .pending _ => False
  | .submitted slot => ∀ s ∈ slot, Collects content s

/-- What the host may do under the id of the operation. -/
def Served (content : List UInt8) (call : HostCall) : FetchFuture → Prop
  | .submitted (some slot) => Serves content slot call
  | _ => True

instance {content : List UInt8} {call : HostCall} {future : FetchFuture} :
    Decidable (future.Served content call) :=
  match future with
  | .pending _ | .submitted none => .isTrue trivial
  | .submitted (some slot) => inferInstanceAs (Decidable (Serves content slot call))

variable {file content : List UInt8} {future : FetchFuture} {room : Bool} {waker : Waker}

lemma fetches_pollSubmitted {slot : Option PendingSlot} (h : ∀ s ∈ slot, Collects content s) :
    (pollSubmitted waker slot).2.Fetches file content ∧
      ∀ data, (pollSubmitted waker slot).1 = .ready (.ok data) → data = content := by
  cases slot with
  | none => simp [pollSubmitted, Fetches]
  | some slot =>
    obtain ⟨hbuffer, hresult⟩ := h slot rfl
    cases hslot : slot.result with
    | none => simp [pollSubmitted, hslot, Fetches, Collects, hbuffer]
    | some result =>
      refine ⟨by simp [pollSubmitted, hslot, Fetches], fun data hdata => hresult data ?_⟩
      simpa [pollSubmitted, hslot] using hdata

/-- A poll delivers what was asked for, or an error. -/
lemma Fetches.poll (h : future.Fetches file content) (room : Bool)
    (waker : Waker) :
    (future.poll room waker).2.Fetches file content ∧
      ∀ data, (future.poll room waker).1 = .ready (.ok data) → data = content := by
  cases future with
  | pending kind =>
    cases room with
    | false => exact ⟨h, fun data hdata => by simp [FetchFuture.poll] at hdata⟩
    | true =>
      have hempty : ∀ s ∈ some ({} : PendingSlot), Collects content s := by
        intro s hs
        obtain rfl := Option.some.inj hs
        exact collects_empty
      exact fetches_pollSubmitted hempty
  | submitted slot => exact fetches_pollSubmitted h

lemma Fetches.call {call : HostCall} (h : future.Fetches file content)
    (hserved : future.Served content call) : (future.call call).1.Fetches file content := by
  cases future with
  | pending kind => exact h
  | submitted slot =>
    cases slot with
    | none => exact h
    | some slot => exact fun s hs => (h slot rfl).onSlot hserved hs

end FetchFuture

/-! ### What a store fetches -/

/-- The cache is one of the file: the blocks it has are blocks of the file. -/
structure PageCache.Mirrors (cache : PageCache) (file : List UInt8) (size : ℕ) : Prop where
  fileSize : cache.fileSize = file.length
  blockSize : cache.blockSize = size
  block : ∀ n block, cache.lookup n = some block → block = blockAt size file n

section Mirrors

variable {cache : PageCache} {file block : List UInt8} {size n : ℕ}

lemma PageCache.Mirrors.insert (h : cache.Mirrors file size) :
    (cache.insert n (blockAt size file n)).Mirrors file size where
  fileSize := by rw [PageCache.fileSize_insert, h.fileSize]
  blockSize := by rw [PageCache.blockSize_insert, h.blockSize]
  block m block hblock := by
    by_cases hm : m = n
    · subst hm
      rw [PageCache.lookup_insert_self] at hblock
      exact (Option.some.inj hblock).symm
    · exact h.block m block (PageCache.lookup_insert_of_ne hm hblock)

lemma PageCache.Mirrors.get (h : cache.Mirrors file size) :
    (cache.get n).2.Mirrors file size where
  fileSize := by rw [PageCache.fileSize_get, h.fileSize]
  blockSize := by rw [PageCache.blockSize_get, h.blockSize]
  block m block hblock := h.block m block (by rwa [PageCache.lookup_get] at hblock)

lemma PageCache.mirrors_withMaxBlocks (file : List UInt8) (size maxBlocks : ℕ) :
    (PageCache.withMaxBlocks size file.length maxBlocks).Mirrors file size where
  fileSize := rfl
  blockSize := rfl
  block n block hblock := by simp [withMaxBlocks, lookup] at hblock

end Mirrors

namespace SharedCache

variable (c : SharedCache) (n : ℕ)

lemma cache_tryStartFetch : (c.tryStartFetch n).2.cache = c.cache := by
  unfold tryStartFetch
  split_ifs <;> rfl

lemma cache_registerFetchWaker (waker : Waker) :
    (c.registerFetchWaker n waker).cache = c.cache := by
  unfold registerFetchWaker
  split
  · split_ifs <;> rfl
  · rfl

lemma cache_completeFetch (data : List UInt8) :
    (c.completeFetch n data).cache = c.cache.insert n data := by
  rw [completeFetch, Streams.cache_cancelFetch]

end SharedCache

namespace LazyBlockStore

/-- What the request for a block asks the host for. -/
def requested (store : LazyBlockStore) (file : List UInt8) (n : ℕ) : List UInt8 :=
  (file.drop (store.blockOffset n).toNat).take (store.blockLength n).toNat

/-- The store is one of the file, and what it fetches is a block before the end of the file. -/
structure Fetches (store : LazyBlockStore) (file : List UInt8) (size : ℕ) : Prop where
  fileSize : store.fileSize.toNat = file.length
  blockSize : store.blockSize.toNat = size
  pending : ∀ fetch ∈ store.pending, fetch.blockNum * size < file.length ∧
    fetch.future.Fetches file (blockAt size file fetch.blockNum)

variable {store store' : LazyBlockStore} {c c' : SharedCache} {file : List UInt8}
variable {size n : ℕ} {room : Bool} {waker : Waker} {result : Poll (Except VfsError Unit)}

/-- No position before the end of the file wraps around. -/
lemma Fetches.blockOffset (h : store.Fetches file size)
    (hn : n * size < file.length) : (store.blockOffset n).toNat = n * size := by
  have hlt := store.fileSize.toNat_lt
  have hfile := h.fileSize
  rw [LazyBlockStore.blockOffset, UInt64.toNat_mul, h.blockSize, UInt64.toNat_ofNat',
    Nat.mod_mul_mod, Nat.mod_eq_of_lt (by omega)]

lemma Fetches.blockLength (h : store.Fetches file size)
    (hn : n * size < file.length) :
    (store.blockLength n).toNat = min (file.length - n * size) size := by
  have hoffset := h.blockOffset hn
  have hbefore : ¬ store.fileSize ≤ store.blockOffset n := by
    rw [UInt64.le_iff_toNat_le, h.fileSize, hoffset]
    omega
  have hle : store.blockOffset n ≤ store.fileSize := by
    rw [UInt64.le_iff_toNat_le, h.fileSize, hoffset]
    omega
  have hsub : (store.fileSize - store.blockOffset n).toNat = file.length - n * size := by
    rw [UInt64.toNat_sub_of_le _ _ hle, h.fileSize, hoffset]
  rw [LazyBlockStore.blockLength, if_neg hbefore]
  change (if _ ≤ _ then _ else _ : UInt64).toNat = _
  rw [apply_ite UInt64.toNat, hsub, h.blockSize, min_def]
  simp only [UInt64.le_iff_toNat_le, hsub, h.blockSize]

/-- The request for a block asks for the block. -/
lemma Fetches.requested_eq (h : store.Fetches file size)
    (hn : n * size < file.length) : store.requested file n = blockAt size file n := by
  rw [requested, h.blockOffset hn, h.blockLength hn, blockAt, List.take_eq_take_iff,
    List.length_drop]
  omega

lemma Fetches.clear (h : store.Fetches file size) {error : Option String} {fetches : ℕ} :
    { store with pending := none, error, fetches : LazyBlockStore }.Fetches file size where
  fileSize := h.fileSize
  blockSize := h.blockSize
  pending fetch hfetch := by simp at hfetch

/-- A fetch that is done puts its block into the cache. -/
lemma Fetches.pollPendingFetch (h : store.Fetches file size) (hc : c.cache.Mirrors file size)
    (hpoll : store.pollPendingFetch room waker c = (result, store', c')) :
    store'.Fetches file size ∧ c'.cache.Mirrors file size := by
  unfold LazyBlockStore.pollPendingFetch at hpoll
  split at hpoll
  · obtain ⟨rfl, rfl, rfl⟩ := hpoll
    exact ⟨h, hc⟩
  · rename_i fetch hpending
    obtain ⟨hbefore, hfetch⟩ := h.pending fetch hpending
    obtain ⟨hfuture, hdata⟩ := hfetch.poll room waker
    split at hpoll
    · rename_i future heq
      obtain ⟨rfl, rfl, rfl⟩ := hpoll
      rw [heq] at hfuture
      refine ⟨⟨h.fileSize, h.blockSize, fun fetch' hfetch' => ?_⟩, hc⟩
      obtain rfl := Option.some.inj hfetch'
      exact ⟨hbefore, hfuture⟩
    · rename_i data future heq
      obtain ⟨rfl, rfl, rfl⟩ := hpoll
      rw [hdata data (by rw [heq]), SharedCache.cache_completeFetch]
      exact ⟨h.clear, hc.insert⟩
    · obtain ⟨rfl, rfl, rfl⟩ := hpoll
      rw [Streams.cache_cancelFetch]
      exact ⟨h.clear, hc⟩

lemma Fetches.startFetch (h : store.Fetches file size) (hc : c.cache.Mirrors file size)
    (hsize : 0 < size) (hn : n * size < file.length)
    (hstart : store.startFetch n room waker c = (result, store', c')) :
    store'.Fetches file size ∧ c'.cache.Mirrors file size := by
  have htry := c.cache_tryStartFetch n
  have hlength : store.blockLength n ≠ 0 := by
    intro hzero
    have hmin := h.blockLength hn
    rw [hzero, UInt64.toNat_zero] at hmin
    omega
  unfold LazyBlockStore.startFetch at hstart
  split at hstart
  · rename_i c₁ heq
    obtain ⟨rfl, rfl, rfl⟩ := hstart
    rw [heq] at htry
    exact ⟨h, htry ▸ hc⟩
  · rename_i c₁ heq
    obtain ⟨rfl, rfl, rfl⟩ := hstart
    rw [heq] at htry
    rw [SharedCache.cache_registerFetchWaker]
    exact ⟨h, htry ▸ hc⟩
  · rename_i c₁ heq
    rw [heq] at htry
    simp only [if_neg hlength] at hstart
    refine Fetches.pollPendingFetch ?_ (htry ▸ hc) hstart
    refine ⟨h.fileSize, h.blockSize, fun fetch hfetch => ?_⟩
    obtain rfl := Option.some.inj hfetch
    exact ⟨hn, h.requested_eq hn⟩

/-- A poll of a block before the end of the file keeps the cache one of the file. -/
lemma Fetches.pollReadBlock (h : store.Fetches file size) (hc : c.cache.Mirrors file size)
    (hsize : 0 < size) (hn : n * size < file.length)
    (hpoll : store.pollReadBlock n room waker c = (result, store', c')) :
    store'.Fetches file size ∧ c'.cache.Mirrors file size := by
  unfold LazyBlockStore.pollReadBlock at hpoll
  split at hpoll
  · obtain ⟨rfl, rfl, rfl⟩ := hpoll
    exact ⟨h, hc⟩
  · split at hpoll
    · exact h.startFetch hc hsize hn hpoll
    · split_ifs at hpoll
      · exact h.pollPendingFetch hc hpoll
      · split at hpoll
        · rename_i heq
          obtain ⟨rfl, rfl, rfl⟩ := hpoll
          exact h.pollPendingFetch hc heq
        · rename_i heq
          obtain ⟨rfl, rfl, rfl⟩ := hpoll
          exact h.pollPendingFetch hc heq
        · rename_i heq
          obtain ⟨h', hc'⟩ := h.pollPendingFetch hc heq
          exact h'.startFetch hc' hsize hn hpoll

end LazyBlockStore

/-! ### Reads and writes through a handle -/

namespace Streams

/-- The bytes that a poll of a read puts into the buffer. -/
def bytesRead : Poll (Except VfsError (List UInt8)) → List UInt8
  | .ready (.ok bytes) => bytes
  | _ => []

namespace FileHandle

/-- Reads deliver the bytes of the file at the cursor, as many as are asked for and left in the
block, or none and leave the cursor; the stream does the same. -/
def ReadsFrom (handle : FileHandle LazyBlockStore) (file : List UInt8) : Prop :=
  handle.mode.canRead → ∀ len cx, ∃ result handle',
    handle.pollReadFuture cx len = some (result, handle') ∧
    handle'.pos = handle.pos + (bytesRead result).length ∧
    (∀ bytes, result = .ready (.ok bytes) →
      bytes = (file.drop handle.pos).take (min len (handle.blockSize - handle.offsetInBlock))) ∧
    Agree (handle.pollRead cx len) (handle.pollReadFuture cx len)

/-- The store and the cache of the handle are those of the file. -/
structure Reads (handle : FileHandle LazyBlockStore) (file : List UInt8) (size : ℕ) : Prop where
  store : handle.store.Fetches file size
  cache : handle.cache.cache.Mirrors file size

variable {handle handle' : FileHandle LazyBlockStore} {file : List UInt8} {size len : ℕ}
variable {cx : Context} {result : Poll (Except VfsError (List UInt8))}

/-- The block at the cursor, before the end of the file. -/
lemma Reads.blockNum_mul_lt (h : handle.Reads file size) (hpos : handle.pos < handle.fileSize) :
    handle.blockNum * size < file.length := by
  have hle := Nat.div_mul_le_self handle.pos size
  rw [fileSize, h.cache.fileSize] at hpos
  rw [blockNum, blockSize, h.cache.blockSize]
  omega

lemma Reads.offsetInBlock (h : handle.Reads file size) :
    handle.offsetInBlock = handle.pos % size := by
  rw [FileHandle.offsetInBlock, blockSize, h.cache.blockSize]

lemma Reads.cursor (h : handle.Reads file size) :
    handle.blockNum * size + handle.offsetInBlock = handle.pos := by
  rw [h.offsetInBlock, blockNum, blockSize, h.cache.blockSize]
  exact Nat.div_add_mod' handle.pos size

lemma Reads.pollReadFuture (h : handle.Reads file size) (hsize : 0 < size) (cx : Context)
    (len : ℕ) :
    ∃ result handle', handle.pollReadFuture cx len = some (result, handle') ∧
      handle'.Reads file size ∧ handle'.mode = handle.mode ∧
      handle'.pos = handle.pos + (bytesRead result).length ∧
      ∀ bytes, result = .ready (.ok bytes) →
        bytes = (file.drop handle.pos).take (min len (size - handle.pos % size)) := by
  by_cases hmode : handle.mode.canRead
  swap
  · rw [FileHandle.pollReadFuture, if_pos hmode]
    refine ⟨_, _, rfl, h, rfl, rfl, fun bytes hbytes => ?_⟩
    cases hbytes
  rcases Nat.lt_or_ge handle.pos handle.fileSize with hpos | hend
  swap
  · rw [FileHandle.pollReadFuture, if_neg (not_not.mpr hmode), if_pos hend]
    refine ⟨_, _, rfl, h, rfl, rfl, fun bytes hbytes => ?_⟩
    obtain rfl := Except.ok.inj (Poll.ready.inj hbytes)
    rw [fileSize, h.cache.fileSize] at hend
    rw [List.drop_eq_nil_of_le hend, List.take_nil]
  have hpositive : 0 < handle.blockSize := by rwa [blockSize, h.cache.blockSize]
  have hn := h.blockNum_mul_lt hpos
  rcases hpoll : handle.store.pollReadBlock handle.blockNum cx.room cx.waker handle.cache with
    ⟨polled, store, cache⟩
  obtain ⟨hstore, hcache⟩ := h.store.pollReadBlock h.cache hsize hn hpoll
  have hstep : BlockStore.pollReadBlock handle.store cx handle.blockNum handle.cache =
      some (polled, store, cache) := congrArg some hpoll
  by_cases hready : polled = .ready (.ok ())
  · subst hready
    obtain ⟨block, hlookup⟩ := Option.isSome_iff_exists.mp (BlockStore.cached hstep)
    have hpages := hcache.get (n := handle.blockNum)
    rw [PageCache.get_of_some hlookup] at hpages
    obtain rfl := hcache.block _ _ hlookup
    have htake := @take_drop_blockAt _ file size handle.blockNum handle.offsetInBlock len
    rw [h.cursor, ← h.cache.fileSize] at htake
    refine ⟨_, _, handle.pollReadFuture_of_block cx hmode hpos hpositive hstep hlookup rfl,
      ⟨hstore, hpages⟩, rfl, ?_, fun bytes hbytes => ?_⟩
    · dsimp only [bytesRead, fileSize]
      rw [List.length_take, List.length_drop]
      omega
    · rw [← Except.ok.inj (Poll.ready.inj hbytes), ← h.offsetInBlock]
      exact htake
  · -- Without the block nothing is read, and the cursor stays where it is.
    rw [FileHandle.pollReadFuture, if_neg (not_not.mpr hmode), if_neg (Nat.not_le.mpr hpos),
      if_neg hpositive.ne', hstep, Option.bind_eq_bind, Option.bind_some]
    cases polled with
    | pending =>
      refine ⟨_, _, rfl, ⟨hstore, hcache⟩, rfl, rfl, fun bytes hbytes => ?_⟩
      cases hbytes
    | ready outcome =>
      cases outcome with
      | ok _ => exact absurd rfl hready
      | error e =>
        refine ⟨_, _, rfl, ⟨hstore, hcache⟩, rfl, rfl, fun bytes hbytes => ?_⟩
        cases hbytes

/-- A block of the file reaches the cursor, so that streams read like futures. -/
lemma Reads.readsAlike (h : handle.Reads file size) (hsize : 0 < size) (cx : Context) :
    handle.ReadsAlike cx := by
  intro _ hpos
  have hn := h.blockNum_mul_lt hpos
  have hcursor := h.cursor
  have hpositive : 0 < handle.blockSize := by rwa [blockSize, h.cache.blockSize]
  refine ⟨hpositive, ?_⟩
  rcases hpoll : handle.store.pollReadBlock handle.blockNum cx.room cx.waker handle.cache with
    ⟨polled, store, cache⟩
  refine ⟨polled, store, cache, congrArg some hpoll, fun _ block hblock => ?_⟩
  rw [(h.store.pollReadBlock h.cache hsize hn hpoll).2.block _ _ hblock, length_blockAt,
    h.offsetInBlock]
  have hoffset := Nat.mod_lt handle.pos hsize
  rw [← h.offsetInBlock] at hoffset ⊢
  rw [fileSize, h.cache.fileSize] at hpos
  omega

lemma Reads.readsFrom (h : handle.Reads file size) (hsize : 0 < size) :
    handle.ReadsFrom file := by
  intro hread len cx
  obtain ⟨result, handle', hpoll, -, -, hpos, hbytes⟩ := h.pollReadFuture hsize cx len
  refine ⟨result, handle', hpoll, hpos, ?_, ?_⟩
  · rwa [h.offsetInBlock, blockSize, h.cache.blockSize]
  · exact (handle.agree_pollRead_iff cx).mpr (h.readsAlike hsize cx)

/-- What is merged with the bytes of a write comes from the cache, which stays as it is. -/
lemma Reads.blockData (h : handle.Reads file size) {fresh : ℕ} {bytes block : List UInt8}
    {cache : SharedCache} (hblock : handle.blockData fresh bytes = some (block, cache)) :
    cache.cache.Mirrors file size := by
  simp only [FileHandle.blockData] at hblock
  split_ifs at hblock with hfull hlong hlong
  · obtain ⟨-, rfl⟩ := Prod.mk.inj (Option.some.inj hblock)
    exact h.cache
  · have hget := h.cache.get (n := handle.blockNum)
    obtain ⟨-, rfl⟩ := Prod.mk.inj (Option.some.inj hblock)
    split
    · rename_i heq
      rwa [heq] at hget
    · rename_i heq
      rwa [heq] at hget

/-- A write is refused, by the mode or by the store, and moves nothing. -/
lemma Reads.pollWriteFuture (h : handle.Reads file size) {buf : List UInt8}
    {result : Poll (Except VfsError ℕ)}
    (hpoll : handle.pollWriteFuture cx buf = some (result, handle')) :
    handle'.Reads file size ∧ handle'.mode = handle.mode ∧ handle'.pos = handle.pos := by
  rw [FileHandle.pollWriteFuture] at hpoll
  by_cases hmode : handle.mode.canWrite
  swap
  · rw [if_pos hmode] at hpoll
    cases hpoll
    exact ⟨h, rfl, rfl⟩
  rw [if_neg (not_not.mpr hmode)] at hpoll
  split_ifs at hpoll
  · cases hpoll
    exact ⟨h, rfl, rfl⟩
  · obtain ⟨⟨block, cache⟩, hblock, hpoll⟩ := Option.bind_eq_some_iff.mp hpoll
    cases hpoll
    exact ⟨⟨h.store, h.blockData hblock⟩, rfl, rfl⟩

end FileHandle

end Streams

/-! ### Handles of one file -/

namespace HostFile

open Streams

/-- A handle of the file. `delivered` are the bytes of its reads since it was at `start`, where it
was opened or last sought to; the code keeps neither. -/
structure Handle where
  store : LazyBlockStore
  pos : ℕ
  mode : OpenMode
  start : ℕ
  delivered : List UInt8 := []

/-- The handle with the cache that all of them share. -/
def Handle.toFileHandle (handle : Handle) (cache : SharedCache) :
    Streams.FileHandle LazyBlockStore :=
  { store := handle.store, cache, pos := handle.pos, mode := handle.mode }

structure Machine where
  shared : SharedCache
  handles : ℕ → Option Handle := fun _ => none

/-- `host` is a call of the host under the id of the fetch that the handle has pending. -/
inductive Event
  | openFile (i : ℕ) (path : String) (fileSize blockSize : UInt64) (mode : OpenMode)
  | read (i len : ℕ) (cx : Context)
  | write (i : ℕ) (buf : List UInt8) (cx : Context)
  | seek (i : ℕ) (seekFrom : SeekFrom)
  | host (i : ℕ) (call : HostCall)
  | close (i : ℕ)

namespace Machine

variable (m : Machine)

def new (file : List UInt8) (blockSize maxBlocks : ℕ) : Machine :=
  { shared := { cache := .withMaxBlocks blockSize file.length maxBlocks } }

/-- A handle with the cache it leaves behind. -/
def put (i : ℕ) (handle : Handle) (shared : SharedCache) : Machine :=
  { shared, handles := Function.update m.handles i (some handle) }

/-- The effect of an event, if it can happen; a panic is none. -/
def step : Event → Option Machine
  | .openFile i path fileSize blockSize mode =>
    match m.handles i with
    | some _ => none
    | none =>
      let pos := if mode = .append then m.shared.cache.fileSize else 0
      some (m.put i { store := { path, fileSize, blockSize }, pos, mode, start := pos } m.shared)
  | .read i len cx => do
    let handle ← m.handles i
    let (result, next) ← (handle.toFileHandle m.shared).pollReadFuture cx len
    some (m.put i
      { handle with
        store := next.store
        pos := next.pos
        delivered := handle.delivered ++ bytesRead result } next.cache)
  | .write i buf cx => do
    let handle ← m.handles i
    let (_, next) ← (handle.toFileHandle m.shared).pollWriteFuture cx buf
    some (m.put i { handle with store := next.store, pos := next.pos } next.cache)
  | .seek i seekFrom => do
    let handle ← m.handles i
    let pos := Vfs.FileHandle.seekPos m.shared.cache.fileSize handle.pos seekFrom
    some (m.put i { handle with pos, start := pos, delivered := [] } m.shared)
  | .host i call => do
    let handle ← m.handles i
    let fetch ← handle.store.pending
    let (future, woken) := fetch.future.call call
    some (m.put i
      { handle with store := { handle.store with pending := some { fetch with future } } }
      { m.shared with woken := m.shared.woken ++ woken })
  | .close i => do
    let handle ← m.handles i
    some
      { shared := { m.shared with
          ended := (handle.store.pending.map (·.fetch)).toList ++ m.shared.ended }
        handles := Function.update m.handles i none }

/-- All handles are of the file, and the host answers a fetch with what it is asked for. -/
def Honest (file : List UInt8) (m : Machine) : Event → Prop
  | .openFile _ _ fileSize blockSize _ =>
    fileSize.toNat = file.length ∧ blockSize.toNat = m.shared.cache.blockSize
  | .host i call => ∀ handle ∈ m.handles i, ∀ fetch ∈ handle.store.pending,
    fetch.future.Served (handle.store.requested file fetch.blockNum) call
  | _ => True

instance {file : List UInt8} {m : Machine} {e : Event} : Decidable (m.Honest file e) :=
  match e with
  | .openFile .. => inferInstanceAs (Decidable (_ ∧ _))
  | .host i call => inferInstanceAs (Decidable (∀ handle ∈ m.handles i,
      ∀ fetch ∈ handle.store.pending,
        fetch.future.Served (handle.store.requested file fetch.blockNum) call))
  | .read .. | .write .. | .seek .. | .close .. => .isTrue trivial

/-- The states of all runs over handles of the file. -/
abbrev Reachable (file : List UInt8) (blockSize maxBlocks : ℕ) (m : Machine) : Prop :=
  Reach (fun m e m' => m.step e = some m') (Honest file) (new file blockSize maxBlocks) m

/-- What a handle has delivered is the file from where it started up to its cursor, and what it
delivers next is what follows there. -/
structure ReadsFile (file : List UInt8) : Prop where
  delivered : ∀ i handle, m.handles i = some handle →
    handle.start ≤ handle.pos ∧
      handle.delivered = (file.drop handle.start).take (handle.pos - handle.start)
  next : ∀ i handle, m.handles i = some handle → (handle.toFileHandle m.shared).ReadsFrom file

/-! ### What every run keeps -/

/-- The cache and the stores are those of the file, and the cursor is behind what was delivered. -/
structure Inv (file : List UInt8) (size : ℕ) : Prop where
  cache : m.shared.cache.Mirrors file size
  store : ∀ i handle, m.handles i = some handle → handle.store.Fetches file size
  delivered : ∀ i handle, m.handles i = some handle →
    handle.pos = handle.start + handle.delivered.length ∧
      handle.delivered <+: file.drop handle.start

variable {m} {m' : Machine} {file : List UInt8} {size maxBlocks i : ℕ}

lemma Inv.put (hinv : m.Inv file size) {handle : Handle} {shared : SharedCache}
    (hcache : shared.cache.Mirrors file size) (hstore : handle.store.Fetches file size)
    (hpos : handle.pos = handle.start + handle.delivered.length)
    (hdelivered : handle.delivered <+: file.drop handle.start) :
    (m.put i handle shared).Inv file size := by
  have hcases : ∀ j h, (m.put i handle shared).handles j = some h →
      h = handle ∨ m.handles j = some h := by
    intro j h hj
    change Function.update m.handles i (some handle) j = some h at hj
    by_cases hij : j = i
    · subst hij
      rw [Function.update_self] at hj
      exact .inl (Option.some.inj hj).symm
    · rw [Function.update_of_ne hij] at hj
      exact .inr hj
  refine ⟨hcache, fun j h hj => ?_, fun j h hj => ?_⟩
  · rcases hcases j h hj with rfl | hother
    · exact hstore
    · exact hinv.store j h hother
  · rcases hcases j h hj with rfl | hother
    · exact ⟨hpos, hdelivered⟩
    · exact hinv.delivered j h hother

lemma Inv.reads (hinv : m.Inv file size) {handle : Handle} (hi : m.handles i = some handle) :
    (handle.toFileHandle m.shared).Reads file size :=
  ⟨hinv.store i handle hi, hinv.cache⟩

lemma Inv.openFile (hinv : m.Inv file size) {path : String} {fileSize blockSize : UInt64}
    {mode : OpenMode} (hfile : fileSize.toNat = file.length)
    (hblock : blockSize.toNat = m.shared.cache.blockSize)
    (hstep : m.step (.openFile i path fileSize blockSize mode) = some m') : m'.Inv file size := by
  rw [step] at hstep
  split at hstep
  · cases hstep
  · obtain rfl := Option.some.inj hstep
    refine hinv.put hinv.cache ⟨hfile, hblock.trans hinv.cache.blockSize, ?_⟩ rfl List.nil_prefix
    exact fun fetch hfetch => nomatch hfetch

lemma Inv.read (hinv : m.Inv file size) (hsize : 0 < size) {len : ℕ} {cx : Context}
    (hstep : m.step (.read i len cx) = some m') : m'.Inv file size := by
  obtain ⟨handle, hi, hstep⟩ := Option.bind_eq_some_iff.mp hstep
  obtain ⟨⟨result, next⟩, hpoll, hstep⟩ := Option.bind_eq_some_iff.mp hstep
  obtain rfl := Option.some.inj hstep
  obtain ⟨hpos, hdelivered⟩ := hinv.delivered i handle hi
  obtain ⟨result', next', heq, hreads, -, hnext, hbytes⟩ :=
    (hinv.reads hi).pollReadFuture hsize cx len
  obtain ⟨rfl, rfl⟩ := Prod.mk.inj (Option.some.inj (heq.symm.trans hpoll))
  have hprefix : bytesRead result' <+: file.drop handle.pos := by
    match result', hbytes with
    | .pending, _ => exact List.nil_prefix
    | .ready (.error e), _ => exact List.nil_prefix
    | .ready (.ok bytes), hbytes =>
      rw [bytesRead, hbytes bytes rfl]
      exact List.take_prefix ..
  refine hinv.put hreads.cache hreads.store ?_ ?_
  · rw [hnext, List.length_append]
    exact (congrArg (· + _) hpos).trans (Nat.add_assoc ..)
  · exact append_prefix_drop hdelivered (hpos ▸ hprefix)

lemma Inv.write (hinv : m.Inv file size) {buf : List UInt8} {cx : Context}
    (hstep : m.step (.write i buf cx) = some m') : m'.Inv file size := by
  obtain ⟨handle, hi, hstep⟩ := Option.bind_eq_some_iff.mp hstep
  obtain ⟨⟨result, next⟩, hpoll, hstep⟩ := Option.bind_eq_some_iff.mp hstep
  obtain rfl := Option.some.inj hstep
  obtain ⟨hpos, hdelivered⟩ := hinv.delivered i handle hi
  obtain ⟨hreads, -, hnext⟩ := (hinv.reads hi).pollWriteFuture hpoll
  exact hinv.put hreads.cache hreads.store (hnext.trans hpos) hdelivered

lemma Inv.seek (hinv : m.Inv file size) {seekFrom : SeekFrom}
    (hstep : m.step (.seek i seekFrom) = some m') : m'.Inv file size := by
  obtain ⟨handle, hi, hstep⟩ := Option.bind_eq_some_iff.mp hstep
  obtain rfl := Option.some.inj hstep
  exact hinv.put hinv.cache (hinv.store i handle hi) rfl List.nil_prefix

lemma Inv.host (hinv : m.Inv file size) {call : HostCall} (hhonest : m.Honest file (.host i call))
    (hstep : m.step (.host i call) = some m') : m'.Inv file size := by
  obtain ⟨handle, hi, hstep⟩ := Option.bind_eq_some_iff.mp hstep
  obtain ⟨fetch, hfetch, hstep⟩ := Option.bind_eq_some_iff.mp hstep
  obtain rfl := Option.some.inj hstep
  obtain ⟨hpos, hdelivered⟩ := hinv.delivered i handle hi
  have hstore := hinv.store i handle hi
  obtain ⟨hbefore, hfuture⟩ := hstore.pending fetch hfetch
  have hserved := hhonest handle hi fetch hfetch
  rw [hstore.requested_eq hbefore] at hserved
  refine hinv.put hinv.cache ⟨hstore.fileSize, hstore.blockSize, fun fetch' hfetch' => ?_⟩ hpos
    hdelivered
  obtain rfl := Option.some.inj hfetch'
  exact ⟨hbefore, hfuture.call hserved⟩

lemma Inv.close (hinv : m.Inv file size) (hstep : m.step (.close i) = some m') :
    m'.Inv file size := by
  obtain ⟨handle, hi, hstep⟩ := Option.bind_eq_some_iff.mp hstep
  obtain rfl := Option.some.inj hstep
  have hother : ∀ j h, Function.update m.handles i none j = some h → m.handles j = some h := by
    intro j h hj
    by_cases hij : j = i
    · subst hij
      rw [Function.update_self] at hj
      cases hj
    · rwa [Function.update_of_ne hij] at hj
  exact ⟨hinv.cache, fun j h hj => hinv.store j h (hother j h hj),
    fun j h hj => hinv.delivered j h (hother j h hj)⟩

lemma Inv.step (hinv : m.Inv file size) (hsize : 0 < size) {e : Event}
    (hhonest : m.Honest file e) (hstep : m.step e = some m') : m'.Inv file size := by
  cases e with
  | openFile i path fileSize blockSize mode => exact hinv.openFile hhonest.1 hhonest.2 hstep
  | read i len cx => exact hinv.read hsize hstep
  | write i buf cx => exact hinv.write hstep
  | seek i seekFrom => exact hinv.seek hstep
  | host i call => exact hinv.host hhonest hstep
  | close i => exact hinv.close hstep

lemma Inv.new (file : List UInt8) (size maxBlocks : ℕ) :
    (new file size maxBlocks).Inv file size where
  cache := PageCache.mirrors_withMaxBlocks file size maxBlocks
  store _ _ hi := nomatch hi
  delivered _ _ hi := nomatch hi

lemma Inv.readsFile (hinv : m.Inv file size) (hsize : 0 < size) : m.ReadsFile file where
  delivered i handle hi := by
    obtain ⟨hpos, hdelivered⟩ := hinv.delivered i handle hi
    rw [hpos, Nat.add_sub_cancel_left]
    exact ⟨Nat.le_add_right .., List.prefix_iff_eq_take.mp hdelivered⟩
  next i handle hi := (hinv.reads hi).readsFrom hsize

/-! ### The result -/

/-- Any number of handles read the file, whatever the interleaving of their polls, the chunks in
which the host answers, its errors and the evictions from the cache. -/
theorem readsFile_of_reachable (hsize : 0 < size) (h : Reachable file size maxBlocks m) :
    m.ReadsFile file := by
  have hinv : m.Inv file size :=
    Reach.invariant (I := fun m => m.Inv file size) h (.new file size maxBlocks)
      fun s e s' hs hhonest hstep => hs.step hsize hhonest hstep
  exact hinv.readsFile hsize

/-- Two handles of a file of six bytes, with blocks of four and room for one of them. The first
block comes in chunks, which the host starts again once; the second evicts it. -/
def twoHandles : List Event := [
  .openFile 0 "data" 6 4 .read,
  .openFile 1 "data" 6 4 .readWrite,
  .read 0 9 ⟨true, 5⟩,
  .host 0 (.chunk [1, 2] false),
  .read 1 2 ⟨true, 6⟩,
  .host 0 .clearBuffer,
  .host 0 (.chunk [1, 2, 3] false),
  .host 0 (.chunk [4] true),
  .read 0 9 ⟨true, 5⟩,
  .read 1 2 ⟨true, 6⟩,
  .read 0 9 ⟨true, 5⟩,
  .host 0 (.complete (.ok [5, 6])),
  .write 1 [7] ⟨true, 6⟩,
  .read 0 9 ⟨true, 5⟩,
  .seek 0 (.fromEnd (-1)),
  .read 0 9 ⟨true, 5⟩]

theorem readsFile_twoHandles : ∃ m : Machine,
    twoHandles.foldlM step (new [1, 2, 3, 4, 5, 6] 4 1) = some m ∧
    (m.handles 0).map (·.delivered) = some [6] ∧ (m.handles 1).map (·.delivered) = some [1, 2] ∧
    m.ReadsFile [1, 2, 3, 4, 5, 6] := by
  have hmeets : Meets (Honest [1, 2, 3, 4, 5, 6]) step (new [1, 2, 3, 4, 5, 6] 4 1) twoHandles := by
    decide
  obtain ⟨m, hm⟩ : ∃ m, twoHandles.foldlM step (new [1, 2, 3, 4, 5, 6] 4 1) = some m := ⟨_, rfl⟩
  refine ⟨m, hm, ?_, ?_, readsFile_of_reachable (by decide) (reach_foldlM hmeets hm)⟩
  · obtain rfl := Option.some.inj hm
    rfl
  · obtain rfl := Option.some.inj hm
    rfl

end Machine

end HostFile

end AmlaSandbox.Vfs
