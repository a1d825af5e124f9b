import AmlaSandbox.Vfs.PageCache
import AmlaSandbox.Vfs.Path

/-!
# File handles

A handle has a cursor and moves bytes between the caller's buffer and one block at a time. The cache
is shared by the handles of a file and passed in; `none` is a panic.
-/

namespace AmlaSandbox.Vfs

open Library

inductive OpenMode
  | read
  | write
  | readWrite
  | append
deriving DecidableEq, Repr

namespace OpenMode

def canRead : OpenMode → Bool
  | read | readWrite => true
  | write | append => false

def canWrite : OpenMode → Bool
  | write | readWrite | append => true
  | read => false

end OpenMode

inductive SeekFrom
  | start (n : UInt64)
  | fromEnd (n : Int64)
  | current (n : Int64)
deriving DecidableEq

structure FileHandle where
  store : MemoryBlockStore
  pos : ℕ
  mode : OpenMode

namespace FileHandle

def new (store : MemoryBlockStore) (cache : PageCache) (mode : OpenMode) : FileHandle :=
  { store, pos := if mode = .append then cache.fileSize else 0, mode }

/-- The sum, kept between 0 and the greatest position. -/
def saturatingAdd (a : ℕ) (n : Int64) : ℕ :=
  if 0 ≤ n.toInt then min (a + n.toInt.toNat) (2 ^ 64 - 1) else a - n.toInt.natAbs

variable (handle : FileHandle) (cache : PageCache)

/-- Where a seek leads in a file of the given size. -/
def seekPos (fileSize pos : ℕ) : SeekFrom → ℕ
  | .start n => n.toNat
  | .fromEnd n => saturatingAdd fileSize n
  | .current n => saturatingAdd pos n

def seek (seekFrom : SeekFrom) : FileHandle :=
  { handle with pos := seekPos cache.fileSize handle.pos seekFrom }

def notOpenFor (what : String) : VfsError :=
  .permissionDenied ("file not opened for ".toList ++ what.toList)

/-- A read of at most `len` bytes, all from one block. -/
def read (len : ℕ) : Option (Except VfsError (List UInt8) × FileHandle × PageCache) :=
  if ¬ handle.mode.canRead then some (.error (notOpenFor "reading"), handle, cache)
  else if cache.fileSize ≤ handle.pos then some (.ok [], handle, cache)
  else
    let fileSize := cache.fileSize
    let blockSize := cache.blockSize
    let blockNum := handle.pos / blockSize
    let cache := handle.store.pollReadBlock blockNum cache
    match cache.get blockNum with
    | (none, _) => none
    | (some blockData, cache) =>
      let offsetInBlock := handle.pos % blockSize
      let remainingInBlock := blockData.length - offsetInBlock
      let remainingInFile := fileSize - handle.pos
      let toRead := min (min len remainingInBlock) remainingInFile
      let bytes := (blockData.drop offsetInBlock).take toRead
      some (.ok bytes, { handle with pos := handle.pos + toRead }, cache)

/-- The block to write: the new bytes, merged with what the cache has unless they fill it. -/
def blockData (blockNum offsetInBlock : ℕ) (bytes : List UInt8) : List UInt8 × PageCache :=
  if offsetInBlock = 0 ∧ bytes.length = cache.blockSize then (bytes, cache)
  else
    match cache.get blockNum with
    | (some existing, cache) => (resizeAndCopy 0 existing offsetInBlock bytes, cache)
    | (none, cache) =>
      let block := List.replicate (offsetInBlock + bytes.length) 0
      (resizeAndCopy 0 block offsetInBlock bytes, cache)

/-- The number of bytes that go into the block at the cursor. -/
def toWrite (buf : List UInt8) : ℕ :=
  min buf.length (cache.blockSize - handle.pos % cache.blockSize)

/-- A write of the first bytes of a buffer, all into one block. -/
def write (buf : List UInt8) : Option (Except VfsError ℕ × FileHandle × PageCache) :=
  if ¬ handle.mode.canWrite then some (.error (notOpenFor "writing"), handle, cache)
  else if buf = [] then some (.ok 0, handle, cache)
  else
    let blockNum := handle.pos / cache.blockSize
    let offsetInBlock := handle.pos % cache.blockSize
    let toWrite := handle.toWrite cache buf
    let (block, cache) := blockData cache blockNum offsetInBlock (buf.take toWrite)
    match handle.store.pollWriteBlock blockNum block cache with
    | none => none
    | some (store, cache) =>
      let newPos := handle.pos + toWrite
      let cache := if cache.fileSize < newPos then cache.setFileSize newPos else cache
      some (.ok toWrite, { handle with store, pos := newPos }, cache)

end FileHandle

/-! ### A byte array with a cursor -/

/-- What a handle stands for. -/
structure ByteFile where
  bytes : List UInt8
  pos : ℕ

inductive FileOp
  | read (len : ℕ)
  | write (buf : List UInt8)
  | seek (seekFrom : SeekFrom)
deriving DecidableEq

inductive Reply
  | bytes (data : List UInt8)
  | written (count : ℕ)
  | position (pos : ℕ)
  | denied (e : VfsError)
deriving DecidableEq, Repr

namespace ByteFile

/-- A read returns bytes at the cursor, and none only at the end or for an empty buffer. A write
replaces or extends the range of the bytes it accepts, of which there is one at least. -/
inductive Step (mode : OpenMode) (f : ByteFile) : FileOp → Reply → ByteFile → Prop
  | read {len k : ℕ} : mode.canRead → k ≤ len → f.pos + k ≤ max f.pos f.bytes.length →
      (k = 0 → len = 0 ∨ f.bytes.length ≤ f.pos) →
      Step mode f (.read len) (.bytes ((f.bytes.drop f.pos).take k)) { f with pos := f.pos + k }
  | write {buf : List UInt8} {k : ℕ} : mode.canWrite → 0 < k → k ≤ buf.length →
      Step mode f (.write buf) (.written k)
        { bytes := writeAt 0 f.bytes f.pos (buf.take k), pos := f.pos + k }
  | writeNothing : mode.canWrite → Step mode f (.write []) (.written 0) f
  | seek {seekFrom : SeekFrom} : Step mode f (.seek seekFrom)
      (.position (FileHandle.seekPos f.bytes.length f.pos seekFrom))
      { f with pos := FileHandle.seekPos f.bytes.length f.pos seekFrom }
  | denyRead {len : ℕ} {e : VfsError} : ¬ mode.canRead → Step mode f (.read len) (.denied e) f
  | denyWrite {buf : List UInt8} {e : VfsError} : ¬ mode.canWrite →
      Step mode f (.write buf) (.denied e) f

/-- A sequence of calls with its replies. -/
inductive Run (mode : OpenMode) : ByteFile → List FileOp → List Reply → ByteFile → Prop
  | nil {f : ByteFile} : Run mode f [] [] f
  | cons {f f' f'' : ByteFile} {op : FileOp} {ops : List FileOp} {reply : Reply}
      {replies : List Reply} : Step mode f op reply f' → Run mode f' ops replies f'' →
      Run mode f (op :: ops) (reply :: replies) f''

end ByteFile

/-! ### Calls on a handle -/

namespace FileHandle

def toByteFile (handle : FileHandle) : ByteFile :=
  { bytes := handle.store.data, pos := handle.pos }

/-- A call, with the handle and the cache after it. -/
def step (handle : FileHandle) (cache : PageCache) :
    FileOp → Option (Reply × FileHandle × PageCache)
  | .read len =>
    (handle.read cache len).map fun (result, handle, cache) =>
      (match result with | .ok data => .bytes data | .error e => .denied e, handle, cache)
  | .write buf =>
    (handle.write cache buf).map fun (result, handle, cache) =>
      (match result with | .ok count => .written count | .error e => .denied e, handle, cache)
  | .seek seekFrom =>
    let handle := handle.seek cache seekFrom
    some (.position handle.pos, handle, cache)

/-- A sequence of calls that do not panic, and their replies. -/
def run (handle : FileHandle) (cache : PageCache) :
    List FileOp → Option (List Reply × FileHandle × PageCache)
  | [] => some ([], handle, cache)
  | op :: ops => do
    let (reply, handle, cache) ← handle.step cache op
    let (replies, handle, cache) ← handle.run cache ops
    some (reply :: replies, handle, cache)

/-! ### What a call leaves alone -/

variable {handle handle' : FileHandle} {cache cache' : PageCache}

/-- A read moves the cursor, and fetches a block unless the cursor is at the end. -/
lemma read_eq_some {len : ℕ} {result : Except VfsError (List UInt8)}
    (h : handle.read cache len = some (result, handle', cache')) :
    (∃ pos, handle' = { handle with pos }) ∧
      (cache' = cache ∨ handle.pos < cache.fileSize ∧
        cache' = ((handle.store.pollReadBlock (handle.pos / cache.blockSize) cache).get
          (handle.pos / cache.blockSize)).2) := by
  unfold read at h
  split_ifs at h with hmode hpos
  · cases h
    exact ⟨⟨_, rfl⟩, .inl rfl⟩
  · simp only at h
    split at h
    · cases h
    · rename_i heq
      cases h
      exact ⟨⟨_, rfl⟩, .inr ⟨by omega, by rw [heq]⟩⟩
  · cases h
    exact ⟨⟨_, rfl⟩, .inl rfl⟩

lemma mode_write {buf : List UInt8} {result : Except VfsError ℕ}
    (h : handle.write cache buf = some (result, handle', cache')) :
    handle'.mode = handle.mode := by
  unfold write at h
  split_ifs at h
  · cases h
    rfl
  · simp only at h
    split at h
    · cases h
    · cases h
      rfl
  · cases h
    rfl

lemma mode_step {op : FileOp} {reply : Reply}
    (h : handle.step cache op = some (reply, handle', cache')) : handle'.mode = handle.mode := by
  cases op with
  | read len =>
    obtain ⟨⟨result, handle₁, cache₁⟩, hread, heq⟩ := Option.map_eq_some_iff.mp h
    cases heq
    obtain ⟨⟨pos, rfl⟩, _⟩ := read_eq_some hread
    rfl
  | write buf =>
    obtain ⟨⟨result, handle₁, cache₁⟩, hwrite, heq⟩ := Option.map_eq_some_iff.mp h
    cases heq
    exact mode_write hwrite
  | seek seekFrom =>
    cases h
    rfl

end FileHandle

end AmlaSandbox.Vfs
