import Mathlib.Data.Char
import Mathlib.Data.List.AList
import Mathlib.Data.List.Lex
import Mathlib.Data.List.Sort
import AmlaSandbox.Vfs.Path

/-!
# The virtual filesystem

A flat map from normalised paths to files and directories, with a permission on each. Every
mutation asks `checkMutation` first; the `insert` functions of the bootstrap do not.
-/

namespace AmlaSandbox

namespace Vfs

inductive Permission
  | readOnly
  | readWrite
  | appendOnly
deriving DecidableEq, Repr

inductive Entry
  | file (content : List UInt8) (permission : Permission)
  | directory (permission : Permission)
deriving DecidableEq, Repr

namespace Entry

def isFile : Entry → Bool
  | file _ _ => true
  | directory _ => false

def isDir : Entry → Bool
  | file _ _ => false
  | directory _ => true

def permission : Entry → Permission
  | file _ permission | directory permission => permission

end Entry

structure DirEntry where
  name : Text
  path : Text
  isDir : Bool
  permission : Permission
deriving DecidableEq, Repr

inductive MutationOp
  | create
  | overwrite
  | append
  | delete
deriving DecidableEq, Repr

end Vfs

/-- `mounts` maps a sandbox path to a host path. -/
structure Vfs where
  entries : AList fun _ : Text => Vfs.Entry
  mounts : AList fun _ : Text => Text

namespace Vfs

def empty : Vfs := { entries := ∅, mounts := ∅ }

/-! ### The map -/

section Map

variable (vfs : Vfs)

def get (path : Text) : Option Entry := vfs.entries.lookup path

def insert (path : Text) (entry : Entry) : Vfs :=
  { vfs with entries := vfs.entries.insert path entry }

def delete (paths : List Text) : Vfs :=
  { vfs with entries := paths.foldl (fun entries path => entries.erase path) vfs.entries }

def containsKey (path : Text) : Bool := (vfs.get path).isSome

@[simp] lemma mounts_insert (path : Text) (entry : Entry) :
    (vfs.insert path entry).mounts = vfs.mounts := rfl

@[simp] lemma mounts_delete (paths : List Text) : (vfs.delete paths).mounts = vfs.mounts := rfl

@[simp] lemma get_insert_self (path : Text) (entry : Entry) :
    (vfs.insert path entry).get path = some entry := AList.lookup_insert _

lemma get_insert_of_ne {path q : Text} (entry : Entry) (h : q ≠ path) :
    (vfs.insert path entry).get q = vfs.get q := AList.lookup_insert_ne h

lemma get_insert (path q : Text) (entry : Entry) :
    (vfs.insert path entry).get q = if q = path then some entry else vfs.get q := by
  split_ifs with h
  · rw [h, get_insert_self]
  · exact vfs.get_insert_of_ne entry h

lemma lookup_foldl_erase {entries : AList fun _ : Text => Entry} (paths : List Text) (q : Text) :
    (paths.foldl (fun entries path => entries.erase path) entries).lookup q =
      if q ∈ paths then none else entries.lookup q := by
  induction paths generalizing entries with
  | nil => simp
  | cons path paths ih =>
    rw [List.foldl_cons, ih]
    by_cases heq : q = path
    · subst heq
      simp [AList.lookup_erase]
    · simp [heq, AList.lookup_erase_ne heq]

lemma get_delete (paths : List Text) (q : Text) :
    (vfs.delete paths).get q = if q ∈ paths then none else vfs.get q :=
  lookup_foldl_erase paths q

end Map

/-! ### The permission chokepoint -/

section Check

variable (vfs : Vfs)

def checkParentWritable (path : Text) : Except VfsError Unit :=
  match parentOf path with
  | none => .ok ()
  | some parent =>
    match vfs.get parent with
    | some (.directory permission) =>
      if permission = .readOnly then
        .error (.permissionDenied ("parent directory is read-only: ".toList ++ parent))
      else if permission = .appendOnly then
        .error (.permissionDenied ("parent directory is append-only: ".toList ++ parent))
      else .ok ()
    | some (.file _ _) => .error (.notADirectory parent)
    | none => .error (.notFound parent)

def checkMutation (path : Text) (op : MutationOp) : Except VfsError Unit :=
  let existing := vfs.get path
  match op with
  | .create =>
    if existing.isSome then .error (.alreadyExists path) else vfs.checkParentWritable path
  | .overwrite =>
    match existing with
    | some entry =>
      match entry.permission with
      | .readOnly => .error (.permissionDenied ("cannot overwrite read-only: ".toList ++ path))
      | .appendOnly =>
        .error (.permissionDenied ("cannot overwrite append-only file: ".toList ++ path))
      | .readWrite => if entry.isDir then .error (.notAFile path) else .ok ()
    | none => vfs.checkParentWritable path
  | .append =>
    match existing with
    | some entry =>
      if entry.isDir then .error (.notAFile path)
      else if entry.permission = .readOnly then
        .error (.permissionDenied ("cannot append to read-only: ".toList ++ path))
      else .ok ()
    | none => .error (.notFound path)
  | .delete =>
    match existing with
    | some entry =>
      match entry.permission with
      | .readOnly => .error (.permissionDenied ("cannot delete read-only: ".toList ++ path))
      | .appendOnly => .error (.permissionDenied ("cannot delete append-only: ".toList ++ path))
      | .readWrite => vfs.checkParentWritable path
    | none => .error (.notFound path)

end Check

/-! ### Queries -/

section Query

variable (vfs : Vfs)

def isDir (path : Text) : Bool :=
  match normalizePath path with
  | .ok path => (vfs.get path).any Entry.isDir
  | .error _ => false

/-- The entry as a direct child of the directory that the prefix names. Keys are distinct, so no
name occurs twice. -/
def directChild (path dirPrefix : Text) (entry : Sigma fun _ : Text => Entry) : Option DirEntry :=
  let remainder := entry.1.drop dirPrefix.length
  if entry.1 ≠ path ∧ dirPrefix.isPrefixOf entry.1 ∧ '/' ∉ remainder ∧ remainder ≠ [] then
    some { name := remainder, path := entry.1, isDir := entry.2.isDir,
           permission := entry.2.permission }
  else none

def listDir (path : Text) : Except VfsError (List DirEntry) := do
  let path ← normalizePath path
  match vfs.get path with
  | some (.directory _) =>
    let dirPrefix := if path = root then root else path ++ ['/']
    let entries := vfs.entries.entries.filterMap (directChild path dirPrefix)
    .ok (entries.insertionSort fun a b => a.name ≤ b.name)
  | some (.file _ _) => .error (.notADirectory path)
  | none => .error (.notFound path)

def stat (path : Text) : Except VfsError Entry := do
  let path ← normalizePath path
  match vfs.get path with
  | some entry => .ok entry
  | none => .error (.notFound path)

/-- `exists` -/
def pathExists (path : Text) : Bool :=
  match normalizePath path with
  | .ok path => vfs.containsKey path
  | .error _ => false

def canWriteTo (path : Text) : Bool :=
  match normalizePath path with
  | .ok path => (vfs.checkMutation path .overwrite).isOk
  | .error _ => false

end Query

/-! ### Mutations -/

section Mutation

variable (vfs : Vfs)

def createDir (path : Text) (permission : Permission) : Except VfsError Vfs := do
  let path ← normalizePath path
  vfs.checkMutation path .create
  .ok (vfs.insert path (.directory permission))

/-- The loop over the parts of a path. What it has created stays when a later part fails. -/
def createParts (permission : Permission) : Text → List Text → Vfs → Except VfsError Unit × Vfs
  | _, [], vfs => (.ok (), vfs)
  | current, part :: parts, vfs =>
    let current := current ++ '/' :: part
    match vfs.get current with
    | some entry =>
      if entry.isDir then createParts permission current parts vfs
      else (.error (.notADirectory current), vfs)
    | none =>
      match vfs.checkMutation current .create with
      | .error e => (.error e, vfs)
      | .ok () => createParts permission current parts (vfs.insert current (.directory permission))

/-- The parts of a normalised path. -/
def parts (path : Text) : List Text := (path.splitOn '/').filter (· ≠ [])

def createDirAll (path : Text) (permission : Permission) : Except VfsError Unit × Vfs :=
  match normalizePath path with
  | .error e => (.error e, vfs)
  | .ok path => if path = root then (.ok (), vfs) else createParts permission [] (parts path) vfs

def writeFile (path : Text) (content : List UInt8) (permission : Permission) :
    Except VfsError Vfs := do
  let path ← normalizePath path
  vfs.checkMutation path .overwrite
  .ok (vfs.insert path (.file content permission))

def appendFile (path : Text) (content : List UInt8) : Except VfsError Vfs := do
  let path ← normalizePath path
  vfs.checkMutation path .append
  match vfs.get path with
  | some (.file existing permission) =>
    .ok (vfs.insert path (.file (existing ++ content) permission))
  | _ => .ok vfs

def remove (path : Text) : Except VfsError Vfs := do
  let path ← normalizePath path
  vfs.checkMutation path .delete
  if vfs.isDir path then
    let children ← vfs.listDir path
    if children ≠ [] then
      .error (.permissionDenied (path ++ ": directory not empty".toList))
    else .ok (vfs.delete [path])
  else .ok (vfs.delete [path])

/-- The number of slashes. -/
def depth (path : Text) : ℕ := path.count '/'

/-- The path and all that its slash is a prefix of, the deepest first. -/
def toDelete (path : Text) : List Text :=
  let below := vfs.entries.keys.filter fun p => p = path ∨ (path ++ ['/']).isPrefixOf p
  below.insertionSort fun a b => depth b ≤ depth a

def removeRecursive (path : Text) : Except VfsError Vfs := do
  let path ← normalizePath path
  if ¬ vfs.containsKey path then .error (.notFound path)
  else
    (vfs.toDelete path).forM fun p => vfs.checkMutation p .delete
    .ok (vfs.delete (vfs.toDelete path))

end Mutation

/-! ### Bootstrap and mounts -/

section Bootstrap

variable (vfs : Vfs)

/-- The loop of `insertDirAll`: missing directories are created, whatever else is there stays. -/
def insertParts (permission : Permission) : Text → List Text → Vfs → Vfs
  | _, [], vfs => vfs
  | current, part :: parts, vfs =>
    let current := current ++ '/' :: part
    insertParts permission current parts
      (if vfs.containsKey current then vfs else vfs.insert current (.directory permission))

def insertDirAll (path : Text) (permission : Permission) : Except VfsError Vfs := do
  let path ← normalizePath path
  if path = root then .ok vfs else .ok (insertParts permission [] (parts path) vfs)

def insertFile (path : Text) (content : List UInt8) (permission : Permission) :
    Except VfsError Vfs := do
  let path ← normalizePath path
  let vfs ←
    match parentOf path with
    | some parent =>
      if vfs.containsKey parent then .ok vfs else vfs.insertDirAll parent permission
    | none => .ok vfs
  .ok (vfs.insert path (.file content permission))

def isMounted (sandboxPath : Text) : Bool :=
  match normalizePath sandboxPath with
  | .ok p => (vfs.mounts.lookup p).isSome
  | .error _ => false

def getHostPath (sandboxPath : Text) : Option Text :=
  match normalizePath sandboxPath with
  | .ok p => vfs.mounts.lookup p
  | .error _ => none

/-- The directories above a mount, created read-only where they are missing. -/
def insertMountParent (sandboxPath : Text) : Except VfsError Vfs :=
  match parent sandboxPath with
  | some parent =>
    if parent ≠ [] ∧ parent ≠ root then vfs.insertDirAll parent .readOnly else .ok vfs
  | none => .ok vfs

/-- Pairs of a host path and a sandbox path. The mounts before one that fails stay, and so do the
directories above it. -/
def setupMounts : List (Text × Text) → Vfs → Except VfsError Unit × Vfs
  | [], vfs => (.ok (), vfs)
  | (hostPath, sandboxPath) :: mounts, vfs =>
    match vfs.insertMountParent sandboxPath with
    | .error e => (.error e, vfs)
    | .ok vfs =>
      match normalizePath sandboxPath with
      | .error e => (.error e, vfs)
      | .ok normalized =>
        setupMounts mounts { vfs with mounts := vfs.mounts.insert normalized hostPath }

def readme : Text :=
  ("# Workspace\n\nThis is your sandbox workspace. Files here persist for the session.\n\n" ++
    "Try:\n- `echo 'hello' > test.txt` - create a file\n- `cat README.md` - read this file\n" ++
    "- `ls -la` - list directory contents\n").toList

/-- The entries that every new filesystem has. -/
def bootstrap : List (Text × Entry) :=
  [("/".toList, .directory .readOnly),
   ("/tools".toList, .directory .readOnly),
   ("/workspace".toList, .directory .readWrite),
   ("/tmp".toList, .directory .readWrite),
   ("/log".toList, .directory .appendOnly),
   ("/bin".toList, .directory .readOnly),
   ("/log/actions.jsonl".toList, .file [] .appendOnly),
   ("/workspace/README.md".toList, .file (readme.map Char.toUInt8) .readWrite)]

def new : Vfs := bootstrap.foldl (fun vfs (path, entry) => vfs.insert path entry) empty

end Bootstrap

end Vfs

end AmlaSandbox
