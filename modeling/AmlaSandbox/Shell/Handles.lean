import AmlaSandbox.Shell.Interpret
import AmlaSandbox.Vfs.Edit

/-!
# Files that the shell and its commands open

A redirect opens a path in the filesystem; a command that is given the path asks for a mount first.
-/

namespace AmlaSandbox.Shell.Handles

open Library Text Vfs

/-! ### Handles -/

inductive IoError
  | notFound (path : Text)
  | isDir (path : Text)
  | permission (path : Text)
  | io (message : Text)
  | vfs (e : VfsError)

/-- A handle of a file in the filesystem, or of bytes. -/
inductive IoHandle
  | file (path : Text) (pos : ℕ) (readable writable append : Bool)
  | buffer (data : List UInt8) (pos : ℕ)

def readFile (vfs : Vfs) (path : Text) : Except VfsError (List UInt8) := do
  let path ← Vfs.normalizePath path
  match vfs.get path with
  | some (.file content _) => .ok content
  | some (.directory _) => .error (.notAFile path)
  | none => .error (.notFound path)

namespace IoHandle

/-- Create a file handle for reading. -/
def openRead (vfs : Vfs) (path : Text) : Except IoError IoHandle :=
  if ¬ vfs.pathExists path then .error (.notFound path)
  else if vfs.isDir path then .error (.isDir path)
  else .ok (.file path 0 true false false)

/-- Create a file handle for writing (creates/truncates). -/
def openWrite (vfs : Vfs) (path : Text) : Except IoError (IoHandle × Vfs) :=
  if vfs.isDir path then .error (.isDir path)
  else
    match vfs.writeFile path [] .readWrite with
    | .ok vfs => .ok (.file path 0 false true false, vfs)
    | .error e => .error (.vfs e)

/-- Read at most `len` bytes. -/
def read (vfs : Vfs) (len : ℕ) : IoHandle → Except IoError (List UInt8 × IoHandle)
  | .file path pos readable writable append =>
    if ¬ readable then .error (.permission path)
    else
      match readFile vfs path with
      | .ok content =>
        let bytes := (content.drop pos).take len
        .ok (bytes, .file path (pos + bytes.length) readable writable append)
      | .error e => .error (.vfs e)
  | .buffer data pos =>
    let bytes := (data.drop pos).take len
    .ok (bytes, .buffer data (pos + bytes.length))

/-- Bytes put over those at the position, after zeros where there are none. -/
def overwrite (content : List UInt8) (pos : ℕ) (buf : List UInt8) : List UInt8 :=
  content.take pos ++ List.replicate (pos - content.length) 0 ++ buf ++
    content.drop (pos + buf.length)

/-- Write to a handle in write mode. -/
def write (vfs : Vfs) (buf : List UInt8) : IoHandle → Except IoError (IoHandle × Vfs)
  | .file path pos readable writable append =>
    if ¬ writable then .error (.permission path)
    else if append then
      match vfs.appendFile path buf with
      | .ok vfs =>
        let size := match readFile vfs path with
          | .ok content => content.length
          | .error _ => 0
        .ok (.file path size readable writable append, vfs)
      | .error e => .error (.vfs e)
    else
      let content := match readFile vfs path with
        | .ok content => content
        | .error _ => []
      match vfs.writeFile path (overwrite content pos buf) .readWrite with
      | .ok vfs => .ok (.file path (pos + buf.length) readable writable append, vfs)
      | .error e => .error (.vfs e)
  | .buffer data pos => .ok (.buffer (overwrite data pos buf) (pos + buf.length), vfs)

end IoHandle

/-! ### Routes to a file -/

/-- The filesystem, the files of the host, and the working directory. -/
structure Files where
  vfs : Vfs
  host : Text → Except Text (List UInt8)
  cwd : Text

namespace Files

variable (files : Files) (path : Text)

/-- `< path` -/
def redirectRead : Except IoError IoHandle :=
  IoHandle.openRead files.vfs (resolvePath files.cwd path)

/-- What the host has for a mounted path. -/
def hostRead (hostPath : Text) : Except IoError (List UInt8) :=
  (files.host hostPath).mapError fun e => .io ("host read failed: ".toList ++ e)

/-- Open a file for reading, for a command. -/
def openRead : Except IoError IoHandle :=
  let path := resolvePath files.cwd path
  match files.vfs.getHostPath path with
  | some hostPath => (files.hostRead hostPath).map (.buffer · 0)
  | none => IoHandle.openRead files.vfs path

/-- Read entire file into bytes. -/
def ctxReadFile : Except IoError (List UInt8) :=
  let path := resolvePath files.cwd path
  match files.vfs.getHostPath path with
  | some hostPath => files.hostRead hostPath
  | none => (Handles.readFile files.vfs path).mapError .vfs

/-- `> path`, and `open_write` of a command. -/
def openWrite : Except IoError (IoHandle × Vfs) :=
  IoHandle.openWrite files.vfs (resolvePath files.cwd path)

/-- Write bytes to file (create/truncate). -/
def writeFile (content : List UInt8) : Except IoError Vfs :=
  (files.vfs.writeFile (resolvePath files.cwd path) content .readWrite).mapError .vfs

end Files

/-! ### What is read and written -/

/-- The handle is read to its end, through buffers that are not empty. -/
inductive Drains (vfs : Vfs) : IoHandle → List UInt8 → Prop
  | eof {h h' : IoHandle} {len : ℕ} : 0 < len → h.read vfs len = .ok ([], h') → Drains vfs h []
  | more {h h' : IoHandle} {len : ℕ} {bytes rest : List UInt8} :
      h.read vfs len = .ok (bytes, h') → bytes ≠ [] → Drains vfs h' rest →
      Drains vfs h (bytes ++ rest)

/-- All that is read from what was opened, or nothing if that failed. -/
def Delivers (vfs : Vfs) (opened : Except IoError IoHandle) : Option (List UInt8) → Prop
  | some bytes => ∃ h, opened = .ok h ∧ Drains vfs h bytes
  | none => ∀ h, opened ≠ .ok h

def writeAll : List (List UInt8) → IoHandle → Vfs → Except IoError (IoHandle × Vfs)
  | [], h, vfs => .ok (h, vfs)
  | buf :: rest, h, vfs =>
    match h.write vfs buf with
    | .ok (h, vfs) => writeAll rest h vfs
    | .error e => .error e

/-- The content of the file that the filesystem has at a path. -/
def contentAt (vfs : Vfs) (path : Text) : Option (List UInt8) :=
  match Vfs.normalizePath path with
  | .ok path =>
    match vfs.get path with
    | some (.file content _) => some content
    | _ => none
  | .error _ => none

namespace Files

variable (files : Files) (path : Text)

/-- The routes to a file read the same, or all fail. -/
structure ReadsAs (result : Option (List UInt8)) : Prop where
  redirect : Delivers files.vfs (files.redirectRead path) result
  command : Delivers files.vfs (files.openRead path) result
  whole : (files.ctxReadFile path).toOption = result

/-- The content is written at once, or in pieces through a handle. -/
inductive Writes (content : List UInt8) (vfs : Vfs) : Prop
  | whole : files.writeFile path content = .ok vfs → Writes content vfs
  | pieces {pieces : List (List UInt8)} {h h' : IoHandle} {vfs' : Vfs} :
      files.openWrite path = .ok (h, vfs') → writeAll pieces h vfs' = .ok (h', vfs) →
      content = pieces.flatten → Writes content vfs

/-- A path names one file, whoever opens it. -/
structure NamesOneFile : Prop where
  reads : ∃ result, files.ReadsAs path result
  writes : ∀ content vfs, files.Writes path content vfs →
    ({ files with vfs }).ReadsAs path (some content)

/-- The host's file for a mounted path is what the filesystem has, and is not written there. -/
def IsUnshadowed : Prop :=
  ∀ hostPath, files.vfs.getHostPath (resolvePath files.cwd path) = some hostPath →
    (files.host hostPath).toOption = contentAt files.vfs (resolvePath files.cwd path) ∧
      files.vfs.canWriteTo (resolvePath files.cwd path) = false

end Files

/-! ### Reading -/

section

variable {vfs v : Vfs} {h : IoHandle} {path : Text} {content bytes rest : List UInt8}
  {result : Option (List UInt8)}

/-- What a handle has not yet given. -/
def Holds (vfs : Vfs) (rest : List UInt8) : IoHandle → Prop
  | .file path pos readable _ _ =>
    readable = true ∧ ∃ content, readFile vfs path = .ok content ∧ rest = content.drop pos
  | .buffer data pos => rest = data.drop pos

lemma Holds.read (hrest : Holds vfs rest h) (len : ℕ) :
    ∃ h', h.read vfs len = .ok (rest.take len, h') ∧
      Holds vfs (rest.drop (rest.take len).length) h' := by
  cases h with
  | file path pos readable writable append =>
    obtain ⟨rfl, content, hcontent, rfl⟩ := hrest
    refine ⟨.file path (pos + ((content.drop pos).take len).length) true writable append, ?_, rfl,
      content, hcontent, List.drop_drop ..⟩
    rw [IoHandle.read, if_neg (by simp), hcontent]
  | buffer data pos =>
    obtain rfl : rest = data.drop pos := hrest
    exact ⟨_, rfl, List.drop_drop ..⟩

lemma Holds.drains (hrest : Holds vfs rest h) : Drains vfs h rest := by
  obtain ⟨h', hread, hholds⟩ := hrest.read rest.length.succ
  rw [List.take_of_length_le (Nat.le_succ _)] at hread hholds
  by_cases hnil : rest = []
  · subst hnil
    exact .eof (Nat.succ_pos _) hread
  · obtain ⟨h'', hread', -⟩ := hholds.read 1
    rw [List.drop_length, List.take_nil] at hread'
    have hdrains := Drains.more hread hnil (.eof Nat.one_pos hread')
    rwa [List.append_nil] at hdrains

/-- A handle gives what it has, whatever the buffers. -/
lemma Drains.eq (hdrains : Drains vfs h bytes) (hrest : Holds vfs rest h) : bytes = rest := by
  induction hdrains generalizing rest with
  | eof hlen hread =>
    obtain ⟨h', hread', -⟩ := hrest.read _
    rw [hread] at hread'
    have htake := (Prod.ext_iff.mp (Except.ok.inj hread')).1
    rw [eq_comm, List.take_eq_nil_iff] at htake
    exact (htake.resolve_left (by omega)).symm
  | @more h h' len bytes rest' hread hne _ ih =>
    obtain ⟨h'', hread', hholds⟩ := hrest.read len
    rw [hread] at hread'
    obtain ⟨rfl, rfl⟩ := Prod.mk.inj (Except.ok.inj hread')
    rw [ih hholds]
    exact List.prefix_iff_eq_append.mp (List.take_prefix ..)

lemma delivers_iff (hrest : Holds vfs rest h) :
    Delivers vfs (.ok h) result ↔ result = some rest := by
  cases result with
  | none => exact ⟨fun hnone => absurd rfl (hnone h), fun heq => by cases heq⟩
  | some bytes =>
    rw [Option.some_inj]
    constructor
    · rintro ⟨h', heq, hdrains⟩
      obtain rfl := Except.ok.inj heq
      exact hdrains.eq hrest
    · rintro rfl
      exact ⟨h, rfl, hrest.drains⟩

lemma delivers_error_iff (e : IoError) : Delivers vfs (.error e) result ↔ result = none := by
  cases result with
  | none => exact ⟨fun _ => rfl, fun _ h heq => by cases heq⟩
  | some bytes =>
    refine ⟨?_, fun heq => by cases heq⟩
    rintro ⟨h, heq, -⟩
    cases heq

lemma readFile_of_normalizePath {p : Text} (hnormal : Vfs.normalizePath path = .ok p) :
    readFile vfs path = match vfs.get p with
      | some (.file content _) => .ok content
      | some (.directory _) => .error (.notAFile p)
      | none => .error (.notFound p) := by
  rw [readFile, hnormal]
  rfl

lemma toOption_readFile (vfs : Vfs) (path : Text) :
    (readFile vfs path).toOption = contentAt vfs path := by
  rw [contentAt]
  cases hnormal : Vfs.normalizePath path with
  | error e =>
    rw [readFile, hnormal]
    rfl
  | ok p =>
    rw [readFile_of_normalizePath hnormal]
    dsimp only
    rcases vfs.get p with _ | (⟨content, permission⟩ | permission) <;> rfl

/-- Opening in the filesystem gives the content that is there. -/
lemma delivers_openRead_iff :
    Delivers vfs (IoHandle.openRead vfs path) result ↔ result = contentAt vfs path := by
  rw [← toOption_readFile]
  cases hnormal : Vfs.normalizePath path with
  | error e =>
    have hexists : vfs.pathExists path = false := by rw [pathExists, hnormal]
    have hread : readFile vfs path = .error e := by
      rw [readFile, hnormal]
      rfl
    rw [IoHandle.openRead, if_pos (by simp [hexists]), delivers_error_iff, hread]
    rfl
  | ok p =>
    have hexists : vfs.pathExists path = (vfs.get p).isSome := by
      rw [pathExists, hnormal]
      rfl
    have hdir : vfs.isDir path = (vfs.get p).any Entry.isDir := by rw [isDir, hnormal]
    have hread : readFile vfs path = _ := readFile_of_normalizePath hnormal
    rw [IoHandle.openRead, hexists, hdir]
    rcases hget : vfs.get p with _ | (⟨content, permission⟩ | permission)
    · rw [hget] at hread
      rw [if_pos (by simp), delivers_error_iff, hread]
      rfl
    · rw [hget] at hread
      rw [if_neg (by simp), if_neg (by simp [Entry.isDir]), hread]
      exact delivers_iff ⟨rfl, content, hread, rfl⟩
    · rw [hget] at hread
      rw [if_neg (by simp), if_pos (by simp [Entry.isDir]), delivers_error_iff, hread]
      rfl

/-- All bytes of a buffer are delivered. -/
lemma delivers_map_buffer_iff (read : Except IoError (List UInt8)) :
    Delivers vfs (read.map (.buffer · 0)) result ↔ result = read.toOption := by
  cases read with
  | error e => exact delivers_error_iff e
  | ok bytes => exact delivers_iff (h := .buffer bytes 0) rfl

/-! ### Writing -/

lemma writeFile_eq_ok_iff :
    vfs.writeFile path content .readWrite = .ok v ↔
      ∃ p, Vfs.normalizePath path = .ok p ∧ vfs.checkMutation p .overwrite = .ok () ∧
        vfs.insert p (.file content .readWrite) = v := by
  simp only [Vfs.writeFile, bind_eq_ok, exists_unit, Except.ok.injEq]

lemma readFile_of_writeFile (hwrite : vfs.writeFile path content .readWrite = .ok v) :
    readFile v path = .ok content := by
  obtain ⟨p, hnormal, -, rfl⟩ := writeFile_eq_ok_iff.mp hwrite
  rw [readFile_of_normalizePath hnormal, get_insert_self]

lemma getHostPath_of_writeFile (hwrite : vfs.writeFile path content .readWrite = .ok v) (q : Text) :
    v.getHostPath q = vfs.getHostPath q := by
  obtain ⟨p, -, -, rfl⟩ := writeFile_eq_ok_iff.mp hwrite
  rfl

lemma canWriteTo_of_writeFile (hwrite : vfs.writeFile path content .readWrite = .ok v) :
    vfs.canWriteTo path = true := by
  obtain ⟨p, hnormal, hcheck, -⟩ := writeFile_eq_ok_iff.mp hwrite
  rw [canWriteTo, hnormal]
  dsimp only
  rw [hcheck]
  rfl

lemma exists_writeFile (hcan : vfs.canWriteTo path = true) (content : List UInt8) :
    ∃ v, vfs.writeFile path content .readWrite = .ok v := by
  rw [canWriteTo] at hcan
  cases hnormal : Vfs.normalizePath path with
  | error e =>
    rw [hnormal] at hcan
    cases hcan
  | ok p =>
    rw [hnormal] at hcan
    cases hcheck : vfs.checkMutation p .overwrite with
    | error e =>
      dsimp only at hcan
      rw [hcheck] at hcan
      cases hcan
    | ok u => exact ⟨_, writeFile_eq_ok_iff.mpr ⟨p, hnormal, hcheck, rfl⟩⟩

/-- A handle at the end of its file. -/
def AtEnd (vfs : Vfs) (path : Text) (content : List UInt8) (h : IoHandle) : Prop :=
  h = .file path content.length false true false ∧ readFile vfs path = .ok content

lemma overwrite_length (content buf : List UInt8) :
    IoHandle.overwrite content content.length buf = content ++ buf := by
  simp [IoHandle.overwrite]

/-- Pieces written at the end are appended, and no mount changes. -/
lemma AtEnd.writeAll {pieces : List (List UInt8)} {h' : IoHandle} (hend : AtEnd vfs path content h)
    (hwrite : writeAll pieces h vfs = .ok (h', v)) :
    readFile v path = .ok (content ++ pieces.flatten) ∧
      ∀ q, v.getHostPath q = vfs.getHostPath q := by
  induction pieces generalizing h vfs content with
  | nil =>
    obtain ⟨-, rfl⟩ := Prod.mk.inj (Except.ok.inj hwrite)
    exact ⟨by simpa using hend.2, fun _ => rfl⟩
  | cons buf pieces ih =>
    obtain ⟨rfl, hread⟩ := hend
    rw [Handles.writeAll, IoHandle.write, if_neg (by simp), if_neg (by simp), hread] at hwrite
    dsimp only at hwrite
    rw [overwrite_length] at hwrite
    cases hpiece : vfs.writeFile path (content ++ buf) .readWrite with
    | error e =>
      rw [hpiece] at hwrite
      cases hwrite
    | ok vfs' =>
      rw [hpiece] at hwrite
      have hend' : AtEnd vfs' path (content ++ buf)
          (.file path (content.length + buf.length) false true false) :=
        ⟨by rw [List.length_append], readFile_of_writeFile hpiece⟩
      obtain ⟨hresult, hmounts⟩ := ih hend' hwrite
      refine ⟨?_, fun q => (hmounts q).trans (getHostPath_of_writeFile hpiece q)⟩
      rw [hresult, List.append_assoc, List.flatten_cons]

lemma openWrite_eq_ok (hopen : IoHandle.openWrite vfs path = .ok (h, v)) :
    vfs.writeFile path [] .readWrite = .ok v ∧ h = .file path 0 false true false := by
  rw [IoHandle.openWrite] at hopen
  split_ifs at hopen
  cases hwrite : vfs.writeFile path [] .readWrite with
  | error e =>
    rw [hwrite] at hopen
    cases hopen
  | ok vfs' =>
    rw [hwrite] at hopen
    obtain ⟨rfl, rfl⟩ := Prod.mk.inj (Except.ok.inj hopen)
    exact ⟨rfl, rfl⟩

end

/-! ### One file for a path -/

section

variable {files : Files} {path : Text} {content : List UInt8} {result : Option (List UInt8)}
  {v : Vfs}

lemma toOption_mapError {ε ε' α : Type} (x : Except ε α) (f : ε → ε') :
    (x.mapError f).toOption = x.toOption := by
  cases x <;> rfl

/-- The routes give what is in the filesystem, or what the host has. -/
lemma readsAs_iff :
    files.ReadsAs path result ↔
      result = contentAt files.vfs (resolvePath files.cwd path) ∧
      ∀ hostPath, files.vfs.getHostPath (resolvePath files.cwd path) = some hostPath →
        result = (files.host hostPath).toOption := by
  have hredirect : Delivers files.vfs (files.redirectRead path) result ↔
      result = contentAt files.vfs (resolvePath files.cwd path) := delivers_openRead_iff
  have hall : files.ReadsAs path result ↔ Delivers files.vfs (files.redirectRead path) result ∧
      Delivers files.vfs (files.openRead path) result ∧
        (files.ctxReadFile path).toOption = result :=
    ⟨fun h => ⟨h.redirect, h.command, h.whole⟩, fun h => ⟨h.1, h.2.1, h.2.2⟩⟩
  rw [hall, hredirect, Files.openRead, Files.ctxReadFile]
  cases hmount : files.vfs.getHostPath (resolvePath files.cwd path) with
  | none =>
    dsimp only
    rw [delivers_openRead_iff, toOption_mapError, toOption_readFile, @eq_comm _ _ result]
    simp
  | some hostPath =>
    dsimp only
    rw [delivers_map_buffer_iff, Files.hostRead, toOption_mapError, @eq_comm _ _ result]
    simp

/-- What was written is in the filesystem, and the mounts are the same. -/
lemma Files.Writes.spec (h : files.Writes path content v) :
    contentAt v (resolvePath files.cwd path) = some content ∧
      (∀ q, v.getHostPath q = files.vfs.getHostPath q) ∧
      files.vfs.canWriteTo (resolvePath files.cwd path) = true := by
  cases h with
  | whole hwrite =>
    have hwrite := mapError_eq_ok.mp hwrite
    refine ⟨?_, getHostPath_of_writeFile hwrite, canWriteTo_of_writeFile hwrite⟩
    rw [← toOption_readFile, readFile_of_writeFile hwrite]
    rfl
  | pieces hopen hwrite hcontent =>
    obtain ⟨htruncate, rfl⟩ := openWrite_eq_ok hopen
    have hend : AtEnd _ (resolvePath files.cwd path) []
        (.file (resolvePath files.cwd path) 0 false true false) :=
      ⟨rfl, readFile_of_writeFile htruncate⟩
    obtain ⟨hread, hmounts⟩ := hend.writeAll hwrite
    rw [← toOption_readFile, hread, hcontent]
    exact ⟨rfl, fun q => (hmounts q).trans (getHostPath_of_writeFile htruncate q),
      canWriteTo_of_writeFile htruncate⟩

/-- A path names one file exactly if no mount shadows it. -/
theorem namesOneFile_iff (files : Files) (path : Text) :
    files.NamesOneFile path ↔ files.IsUnshadowed path := by
  constructor
  · rintro ⟨⟨result, hreads⟩, hwrites⟩ hostPath hmount
    obtain ⟨hresult, hhost⟩ := readsAs_iff.mp hreads
    refine ⟨(hhost hostPath hmount).symm.trans hresult, ?_⟩
    by_contra hcan
    -- two contents would both be the host's
    have hcontent (content : List UInt8) : some content = (files.host hostPath).toOption := by
      obtain ⟨v, hv⟩ := exists_writeFile (Bool.eq_true_of_not_eq_false hcan) content
      have hwrite : files.Writes path content v := .whole (mapError_eq_ok.mpr hv)
      refine (readsAs_iff.mp (hwrites content v hwrite)).2 hostPath ?_
      exact (hwrite.spec.2.1 _).trans hmount
    cases (hcontent []).trans (hcontent [0]).symm
  · intro hunshadowed
    refine ⟨⟨_, readsAs_iff.mpr ⟨rfl, fun hostPath hmount => (hunshadowed hostPath hmount).1.symm⟩⟩,
      fun content v hwrite => readsAs_iff.mpr ?_⟩
    obtain ⟨hread, hmounts, hcan⟩ := hwrite.spec
    refine ⟨hread.symm, fun hostPath hmount => ?_⟩
    have hfalse := (hunshadowed hostPath ((hmounts _).symm.trans hmount)).2
    exact absurd (hcan.symm.trans hfalse) (by decide)

end

/-- A host file mounted at `/workspace/x`. -/
def mountedFiles : Files where
  vfs := (setupMounts [("/host".toList, "/workspace/x".toList)] Vfs.new).2
  host := fun _ => .ok [104, 105]
  cwd := "/workspace".toList

/-- `cat x` writes the host's file, and `cat < x` fails. -/
theorem not_namesOneFile : ¬ ∀ (files : Files) (path : Text), files.NamesOneFile path := by
  intro h
  obtain ⟨result, hreads⟩ := (h mountedFiles "x".toList).reads
  obtain ⟨hresult, hhost⟩ := readsAs_iff.mp hreads
  have hmissing : contentAt mountedFiles.vfs (resolvePath mountedFiles.cwd "x".toList) = none := by
    decide +kernel
  have hmount : mountedFiles.vfs.getHostPath (resolvePath mountedFiles.cwd "x".toList) =
      some "/host".toList := by decide +kernel
  have hsome : result = some [104, 105] := hhost _ hmount
  cases hsome.symm.trans (hresult.trans hmissing)

end AmlaSandbox.Shell.Handles
