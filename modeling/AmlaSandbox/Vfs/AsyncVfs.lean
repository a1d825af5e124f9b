import AmlaSandbox.Vfs.Basic
import AmlaSandbox.Vfs.FileHandle

/-!
# File descriptors

Descriptors of one path share a page cache, while each has a store of its own. `close` writes the
cached blocks back to the filesystem.
-/

namespace AmlaSandbox

open Vfs

namespace Vfs

structure OpenFile where
  handle : FileHandle
  path : Text

end Vfs

/-- The cache of a handle is the one in `caches` under its path, where `open` puts it and where it
stays as long as a descriptor of the path is open. -/
structure AsyncVfs where
  vfs : Vfs
  fdTable : AList fun _ : ℕ => OpenFile
  caches : AList fun _ : Text => PageCache
  nextFd : ℕ

namespace AsyncVfs

def fromVfs (vfs : Vfs) : AsyncVfs := { vfs, fdTable := ∅, caches := ∅, nextFd := 3 }

/-! ### Paths -/

def normalizeParts (path : Text) : List Text → List Text → Except VfsError (List Text)
  | names, [] => .ok names
  | names, part :: parts =>
    if part = [] ∨ part = ['.'] then normalizeParts path names parts
    else if part = ['.', '.'] then
      if names = [] then .error (.invalidPath ("path escapes root: ".toList ++ path))
      else normalizeParts path names.dropLast parts
    else if Char.ofNat 0 ∈ part then .error (.invalidPath ("null byte in path: ".toList ++ path))
    else normalizeParts path (names ++ [part]) parts

def normalizePath (path : Text) : Except VfsError Text :=
  let path := path.trim
  if path = [] ∨ path = root then .ok root
  else
    match normalizeParts path [] (path.splitOn '/') with
    | .error e => .error e
    | .ok [] => .ok root
    | .ok names => .ok ('/' :: ['/'].intercalate names)

/-! ### Open -/

/-- What is read of an existing file. `truncate` is `Write` mode. -/
def contentForWrite (normalized : Text) (truncate : Bool) : Entry → Except VfsError (List UInt8)
  | .file content permission =>
    if permission = .readOnly then
      .error (.permissionDenied ("file is read-only: ".toList ++ normalized))
    else if permission = .appendOnly then
      .error (.permissionDenied ("file is append-only, use Append mode: ".toList ++ normalized))
    else if truncate then .ok []
    else .ok content
  | .directory _ => .error (.notAFile normalized)

def contentForAppend (normalized : Text) : Entry → Except VfsError (List UInt8)
  | .file content permission =>
    if permission = .readOnly then
      .error (.permissionDenied ("file is read-only: ".toList ++ normalized))
    else .ok content
  | .directory _ => .error (.notAFile normalized)

/-- A file that is not there starts empty where it may be created. -/
def contentOfNew (vfs : Vfs) (normalized : Text) : Except VfsError (List UInt8) :=
  if vfs.canWriteTo normalized then .ok []
  else
    .error (.permissionDenied
      ("cannot create file: parent directory missing or not writable: ".toList ++ normalized))

/-- The checks of `open`, with the content that the descriptor starts from. -/
def openContent (vfs : Vfs) (normalized : Text) : OpenMode → Except VfsError (List UInt8)
  | .read => do
    match ← vfs.stat normalized with
    | .file content _ => .ok content
    | .directory _ => .error (.notAFile normalized)
  | .write => do
    if vfs.pathExists normalized then contentForWrite normalized true (← vfs.stat normalized)
    else contentOfNew vfs normalized
  | .readWrite => do
    if vfs.pathExists normalized then contentForWrite normalized false (← vfs.stat normalized)
    else contentOfNew vfs normalized
  | .append => do
    if vfs.pathExists normalized then contentForAppend normalized (← vfs.stat normalized)
    else contentOfNew vfs normalized

/-- The number of blocks of a file of the given size. -/
def numBlocks (size : ℕ) : ℕ := (size + defaultBlockSize - 1) / defaultBlockSize

/-- The content is put into the cache, block by block. -/
def populate (content : List UInt8) (cache : PageCache) : PageCache :=
  (List.range (numBlocks content.length)).foldl
    (fun cache blockNum =>
      let start := blockNum * defaultBlockSize
      let stop := min (start + defaultBlockSize) content.length
      cache.insert blockNum ((content.take stop).drop start))
    cache

variable (s : AsyncVfs)

def getOrCreateCache (path : Text) (fileSize : ℕ) : PageCache :=
  match s.caches.lookup path with
  | some cache => cache
  | none => .new defaultBlockSize fileSize

/-- `open` -/
def openFile (path : Text) (mode : OpenMode) : Except VfsError (ℕ × AsyncVfs) := do
  let normalized ← normalizePath path
  let content ← openContent s.vfs normalized mode
  let cache := populate content (s.getOrCreateCache normalized content.length)
  let handle := FileHandle.new (.new content) cache mode
  let fd := s.nextFd
  .ok (fd, { s with
    fdTable := s.fdTable.insert fd { handle, path := normalized }
    caches := s.caches.insert normalized cache
    nextFd := (fd + 1) % 2 ^ 32 })

/-! ### Close -/

def invalidFd (fd : ℕ) : VfsError := .notFound (("invalid fd: " ++ fd.repr).toList)

/-- The cached blocks of the numbers given, one after another. -/
def collect (blockNums : List ℕ) (cache : PageCache) : List UInt8 × PageCache :=
  blockNums.foldl
    (fun (content, cache) blockNum =>
      match cache.get blockNum with
      | (some blockData, cache) => (content ++ blockData, cache)
      | (none, cache) => (content, cache))
    ([], cache)

/-- The content as `close` puts it together from the cache. -/
def rebuild (cache : PageCache) : List UInt8 × PageCache :=
  let (content, cache') := collect (List.range (numBlocks cache.fileSize)) cache
  (content.take cache.fileSize, cache')

/-- The cache of a path without descriptors is dropped. -/
def dropUnused (path : Text) : AsyncVfs :=
  let refs := s.fdTable.entries.countP fun entry => entry.2.path = path
  if refs = 0 then { s with caches := s.caches.erase path } else s

/-- The content of a file that was open for writing goes back to the filesystem. -/
def writeBack (path : Text) (cache : PageCache) : Except VfsError Unit × AsyncVfs :=
  let (content, cache) := rebuild cache
  let permission :=
    match s.vfs.stat path with
    | .ok entry => entry.permission
    | .error _ => .readWrite
  let s := { s with caches := s.caches.insert path cache }
  match s.vfs.insertFile path content permission with
  | .ok vfs => (.ok (), { s with vfs })
  | .error e => (.error e, s)

def close (fd : ℕ) : Except VfsError Unit × AsyncVfs :=
  match s.fdTable.lookup fd with
  | none => (.error (invalidFd fd), s)
  | some openFile =>
    let s := { s with fdTable := s.fdTable.erase fd }
    if openFile.handle.mode.canWrite then
      match s.caches.lookup openFile.path with
      | none => (.ok (), s)
      | some cache =>
        match s.writeBack openFile.path cache with
        | (.ok (), s) => (.ok (), s.dropUnused openFile.path)
        | (.error e, s) => (.error e, s)
    else (.ok (), s.dropUnused openFile.path)

/-! ### Reads, writes and seeks -/

/-- A call on a descriptor; `none` is a panic. A descriptor always finds its cache. -/
def onHandle (fd : ℕ) (op : FileOp) : Option (Reply × AsyncVfs) :=
  match s.fdTable.lookup fd with
  | none => some (.denied (invalidFd fd), s)
  | some openFile =>
    match s.caches.lookup openFile.path with
    | none => none
    | some cache =>
      (openFile.handle.step cache op).map fun (reply, handle, cache) =>
        (reply, { s with
          fdTable := s.fdTable.insert fd { openFile with handle }
          caches := s.caches.insert openFile.path cache })

inductive Event
  | openFile (path : Text) (mode : OpenMode)
  | close (fd : ℕ)
  | call (fd : ℕ) (op : FileOp)

/-- The state after one event; `none` is a panic. -/
def step : Event → Option AsyncVfs
  | .openFile path mode =>
    match s.openFile path mode with
    | .ok (_, s) => some s
    | .error _ => some s
  | .close fd => some (s.close fd).2
  | .call fd op => (s.onHandle fd op).map Prod.snd

end AsyncVfs

end AmlaSandbox
