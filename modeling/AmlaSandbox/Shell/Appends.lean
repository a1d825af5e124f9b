import AmlaSandbox.Commands.Reading
import AmlaSandbox.Shell.Handles
import AmlaSandbox.Shell.Interpret
import AmlaSandbox.Text.Utf8

/-!
# Appending

A file is appended to through a handle, piece by piece, or by reading and rewriting it.
-/

namespace AmlaSandbox.Shell.Appends

open Commands Handles Library Text Vfs

/-! ### Routes -/

/-- Whether a command succeeds, and the filesystem after it. -/
structure Outcome where
  succeeded : Bool
  vfs : Vfs

/-- Create a file handle for appending. -/
def openAppend (vfs : Vfs) (path : Text) : Except IoError (IoHandle × Vfs) :=
  if vfs.isDir path then .error (.isDir path)
  else
    match if ¬ vfs.pathExists path then vfs.writeFile path [] .readWrite else .ok vfs with
    | .ok vfs =>
      let size := match readFile vfs path with
        | .ok content => content.length
        | .error _ => 0
      .ok (.file path size false true true, vfs)
    | .error e => .error (.vfs e)

/-- What a command writes to a handle, with `write_all`, until a write fails. -/
def writePieces : List (List UInt8) → IoHandle → Vfs → Outcome
  | [], _, vfs => ⟨true, vfs⟩
  | buf :: rest, h, vfs =>
    if buf = [] then writePieces rest h vfs
    else
      match h.write vfs buf with
      | .ok (h, vfs) => writePieces rest h vfs
      | .error _ => ⟨false, vfs⟩

/-- `>> path`, for a command that writes these pieces. -/
def redirectAppend (files : Files) (path : Text) (pieces : List (List UInt8)) : Outcome :=
  match openAppend files.vfs (resolvePath files.cwd path) with
  | .ok (h, vfs) => writePieces pieces h vfs
  | .error _ => ⟨false, files.vfs⟩

/-- Append bytes to file. -/
def appendFile (files : Files) (path : Text) (content : List UInt8) : Except IoError Vfs :=
  (files.vfs.appendFile (resolvePath files.cwd path) content).mapError .vfs

/-- The loop of `tee -a path` over what is read. A piece that is not appended is lost. -/
def teeLoop (path : Text) : List (List UInt8) → Bool → Files → Outcome
  | [], succeeded, files => ⟨succeeded, files.vfs⟩
  | chunk :: chunks, succeeded, files =>
    match appendFile files path chunk with
    | .ok vfs => teeLoop path chunks succeeded { files with vfs }
    | .error _ => teeLoop path chunks false files

/-- `tee -a path`, up to what it writes to its output. -/
def tee (files : Files) (path : Text) (stdin : Stream) : Outcome :=
  teeLoop path (reads stdin.chunks) true files

structure FsWriteOptions where
  append : Bool
  createDirs : Bool

/-- The directories above a file are created where they are missing, and errors ignored. -/
def createParents (files : Files) (resolved : Text) : Files :=
  match Vfs.parent resolved with
  | some parent =>
    if parent ≠ [] ∧ parent ≠ root then
      { files with vfs := (files.vfs.createDirAll (resolvePath files.cwd parent) .readWrite).2 }
    else files
  | none => files

/-- `FsWrite` of a node process. -/
def fsWrite (files : Files) (path data : Text) (options : FsWriteOptions) : Outcome :=
  let resolved := resolvePath files.cwd path
  let files := if options.createDirs then createParents files resolved else files
  let content :=
    if options.append then
      (match files.ctxReadFile resolved with
      | .ok existing => existing
      | .error _ => []) ++ utf8 data
    else utf8 data
  match files.writeFile resolved content with
  | .ok vfs => ⟨true, vfs⟩
  | .error _ => ⟨false, files.vfs⟩

/-! ### Appending alike -/

def permissionAt (vfs : Vfs) (path : Text) : Option Permission :=
  (vfs.stat path).toOption.map Entry.permission

/-- The file has the old content and the data behind it, or its old content if that failed. -/
structure Appended (vfs : Vfs) (path : Text) (data : List UInt8) (outcome : Outcome) : Prop where
  content : contentAt outcome.vfs path =
    if outcome.succeeded then some ((contentAt vfs path).getD [] ++ data) else contentAt vfs path
  permission : ∀ permission, permissionAt vfs path = some permission →
    permissionAt outcome.vfs path = some permission

/-- Data is appended to a path, whatever the route and the pieces. -/
structure AppendsAlike (files : Files) (path data : Text) : Prop where
  tee_succeeded : ∀ pieces (stdin : Stream), pieces.flatten = utf8 data →
    stdin.bytes = utf8 data →
    (tee files path stdin).succeeded = (redirectAppend files path pieces).succeeded
  node_succeeded : ∀ pieces, pieces.flatten = utf8 data →
    (fsWrite files path data ⟨true, false⟩).succeeded =
      (redirectAppend files path pieces).succeeded
  redirect : ∀ pieces, pieces.flatten = utf8 data →
    Appended files.vfs (resolvePath files.cwd path) (utf8 data) (redirectAppend files path pieces)
  tee : ∀ stdin : Stream, stdin.bytes = utf8 data →
    Appended files.vfs (resolvePath files.cwd path) (utf8 data) (tee files path stdin)
  node : Appended files.vfs (resolvePath files.cwd path) (utf8 data)
    (fsWrite files path data ⟨true, false⟩)

/-- The file at a path. -/
def FileAt (vfs : Vfs) (path : Text) (content : List UInt8) (permission : Permission) : Prop :=
  vfs.stat path = .ok (.file content permission)

/-- The file exists and may be overwritten, or there is data and nobody may write to the path. -/
def WrittenAlike (vfs : Vfs) (path data : Text) : Prop :=
  if vfs.canWriteTo path then vfs.pathExists path = true
  else data ≠ [] ∧ ∀ content, ¬ FileAt vfs path content .appendOnly

/-! ### Files -/

section

variable {vfs v : Vfs} {path : Text} {content bytes : List UInt8} {permission : Permission}

lemma fileAt_iff : FileAt vfs path content permission ↔
    ∃ p, Vfs.normalizePath path = .ok p ∧ vfs.get p = some (.file content permission) := by
  rw [FileAt, stat, bind_eq_ok]
  refine exists_congr fun p => and_congr_right fun _ => ?_
  cases vfs.get p <;> simp

lemma FileAt.contentAt (h : FileAt vfs path content permission) :
    contentAt vfs path = some content := by
  obtain ⟨p, hnormal, hget⟩ := fileAt_iff.mp h
  rw [Handles.contentAt, hnormal]
  dsimp only
  rw [hget]

lemma FileAt.permissionAt (h : FileAt vfs path content permission) :
    permissionAt vfs path = some permission := by
  rw [Appends.permissionAt, show vfs.stat path = _ from h]
  rfl

lemma FileAt.unique {content' : List UInt8} {permission' : Permission}
    (h : FileAt vfs path content permission) (h' : FileAt vfs path content' permission') :
    permission = permission' :=
  Option.some.inj (h.permissionAt.symm.trans h'.permissionAt)

lemma exists_fileAt (h : contentAt vfs path = some content) :
    ∃ permission, FileAt vfs path content permission := by
  rw [contentAt] at h
  cases hnormal : Vfs.normalizePath path with
  | error e =>
    rw [hnormal] at h
    cases h
  | ok p =>
    rw [hnormal] at h
    dsimp only at h
    rcases hget : vfs.get p with _ | (⟨content', permission⟩ | permission)
    · rw [hget] at h
      cases h
    · rw [hget] at h
      obtain rfl := Option.some.inj h
      exact ⟨permission, fileAt_iff.mpr ⟨p, hnormal, hget⟩⟩
    · rw [hget] at h
      cases h

lemma FileAt.isDir (h : FileAt vfs path content permission) : vfs.isDir path = false := by
  obtain ⟨p, hnormal, hget⟩ := fileAt_iff.mp h
  rw [Vfs.isDir, hnormal]
  dsimp only
  rw [hget]
  rfl

lemma FileAt.pathExists (h : FileAt vfs path content permission) : vfs.pathExists path = true := by
  obtain ⟨p, hnormal, hget⟩ := fileAt_iff.mp h
  rw [Vfs.pathExists, hnormal]
  dsimp only
  rw [containsKey, hget]
  rfl

lemma FileAt.canWriteTo (h : FileAt vfs path content permission) :
    vfs.canWriteTo path = decide (permission = .readWrite) := by
  obtain ⟨p, hnormal, hget⟩ := fileAt_iff.mp h
  rw [Vfs.canWriteTo, hnormal]
  dsimp only
  rw [checkMutation, hget]
  cases permission <;> rfl

lemma FileAt.appendFile (h : FileAt vfs path content permission) (hperm : permission ≠ .readOnly)
    (bytes : List UInt8) :
    ∃ v, vfs.appendFile path bytes = .ok v ∧ FileAt v path (content ++ bytes) permission := by
  obtain ⟨p, hnormal, hget⟩ := fileAt_iff.mp h
  refine ⟨vfs.insert p (.file (content ++ bytes) permission), ?_,
    fileAt_iff.mpr ⟨p, hnormal, get_insert_self ..⟩⟩
  rw [Vfs.appendFile, bind_eq_ok]
  refine ⟨p, hnormal, bind_eq_ok.mpr ⟨(), ?_, by rw [hget]⟩⟩
  exact checkMutation_append_eq_ok.mpr ⟨content, permission, hget, hperm⟩

lemma exists_of_appendFile (h : vfs.appendFile path bytes = .ok v) :
    ∃ content permission, FileAt vfs path content permission ∧ permission ≠ .readOnly := by
  simp only [Vfs.appendFile, bind_eq_ok, exists_unit, checkMutation_append_eq_ok] at h
  obtain ⟨p, hnormal, ⟨content, permission, hget, hperm⟩, -⟩ := h
  exact ⟨content, permission, fileAt_iff.mpr ⟨p, hnormal, hget⟩, hperm⟩

lemma fileAt_of_writeFile (h : vfs.writeFile path content .readWrite = .ok v) :
    FileAt v path content .readWrite := by
  obtain ⟨p, hnormal, -, rfl⟩ := writeFile_eq_ok_iff.mp h
  exact fileAt_iff.mpr ⟨p, hnormal, get_insert_self ..⟩

lemma writeFile_error (h : vfs.canWriteTo path = false) (content : List UInt8) :
    ∃ e, vfs.writeFile path content .readWrite = .error e := by
  cases hwrite : vfs.writeFile path content .readWrite with
  | error e => exact ⟨e, rfl⟩
  | ok v => exact absurd ((canWriteTo_of_writeFile hwrite).symm.trans h) Bool.true_eq_false.mp

/-- A path that nothing can be appended to: there is no file, or it is read-only. -/
def Refuses (vfs : Vfs) (path : Text) : Prop :=
  ∀ content permission, FileAt vfs path content permission → permission = .readOnly

lemma Refuses.appendFile (h : Refuses vfs path) (bytes : List UInt8) :
    ∃ e, vfs.appendFile path bytes = .error e := by
  cases happend : vfs.appendFile path bytes with
  | error e => exact ⟨e, rfl⟩
  | ok v =>
    obtain ⟨content, permission, hfile, hperm⟩ := exists_of_appendFile happend
    exact absurd (h content permission hfile) hperm

/-! ### Pieces -/

lemma writePieces_of_fileAt {pieces : List (List UInt8)} {pos : ℕ}
    (h : FileAt vfs path content permission) (hperm : permission ≠ .readOnly) :
    ∃ v, writePieces pieces (.file path pos false true true) vfs = ⟨true, v⟩ ∧
      FileAt v path (content ++ pieces.flatten) permission := by
  induction pieces generalizing vfs content pos with
  | nil => exact ⟨vfs, rfl, by rwa [List.flatten_nil, List.append_nil]⟩
  | cons buf pieces ih =>
    rw [writePieces, List.flatten_cons]
    split_ifs with hnil
    · rw [hnil, List.nil_append]
      exact ih h
    · obtain ⟨v, happend, hfile⟩ := h.appendFile hperm buf
      rw [IoHandle.write, if_neg (by simp), if_pos rfl, happend, ← List.append_assoc]
      exact ih hfile

lemma writePieces_of_refuses {pieces : List (List UInt8)} {pos : ℕ} (h : Refuses vfs path) :
    writePieces pieces (.file path pos false true true) vfs = ⟨pieces.flatten = [], vfs⟩ := by
  induction pieces with
  | nil => rfl
  | cons buf pieces ih =>
    rw [writePieces, List.flatten_cons]
    split_ifs with hnil
    · rw [hnil, List.nil_append, ih]
    · obtain ⟨e, happend⟩ := h.appendFile buf
      rw [IoHandle.write, if_neg (by simp), if_pos rfl, happend]
      simp [hnil]

end

section

variable {files : Files} {path data : Text} {content bytes : List UInt8} {permission : Permission}
  {pieces : List (List UInt8)} {succeeded : Bool} {stdin : Stream}

lemma appendFile_eq_ok_iff {v : Vfs} : appendFile files path bytes = .ok v ↔
    files.vfs.appendFile (resolvePath files.cwd path) bytes = .ok v := mapError_eq_ok

lemma teeLoop_of_fileAt (h : FileAt files.vfs (resolvePath files.cwd path) content permission)
    (hperm : permission ≠ .readOnly) :
    ∃ v, teeLoop path pieces succeeded files = ⟨succeeded, v⟩ ∧
      FileAt v (resolvePath files.cwd path) (content ++ pieces.flatten) permission := by
  induction pieces generalizing files content with
  | nil => exact ⟨files.vfs, rfl, by rwa [List.flatten_nil, List.append_nil]⟩
  | cons chunk chunks ih =>
    obtain ⟨v, happend, hfile⟩ := h.appendFile hperm chunk
    rw [teeLoop, appendFile_eq_ok_iff.mpr happend, List.flatten_cons, ← List.append_assoc]
    exact @ih { files with vfs := v } _ hfile

lemma teeLoop_of_refuses (h : Refuses files.vfs (resolvePath files.cwd path)) :
    teeLoop path pieces succeeded files = ⟨succeeded && pieces = [], files.vfs⟩ := by
  induction pieces generalizing succeeded with
  | nil => simp [teeLoop]
  | cons chunk chunks ih =>
    obtain ⟨e, happend⟩ := h.appendFile chunk
    rw [teeLoop, appendFile, happend]
    exact ih.trans (by simp)

lemma reads_eq_nil_iff : reads stdin.chunks = [] ↔ stdin.bytes = [] := by
  rw [Stream.bytes, ← flatten_reads stdin.ne_nil]
  constructor
  · intro hnil
    rw [hnil]
    rfl
  · intro hflat
    rw [flatten_reads stdin.ne_nil] at hflat
    have hchunks : stdin.chunks = [] := List.eq_nil_iff_forall_not_mem.mpr fun chunk hmem =>
      stdin.ne_nil chunk hmem (List.flatten_eq_nil_iff.mp hflat chunk hmem)
    rw [hchunks, reads]
    exact dif_pos rfl

lemma redirectAppend_of_fileAt
    (h : FileAt files.vfs (resolvePath files.cwd path) content permission) :
    redirectAppend files path pieces = writePieces pieces
      (.file (resolvePath files.cwd path) content.length false true true) files.vfs := by
  have hread : readFile files.vfs (resolvePath files.cwd path) = .ok content := by
    obtain ⟨p, hnormal, hget⟩ := fileAt_iff.mp h
    rw [readFile_of_normalizePath hnormal, hget]
  rw [redirectAppend, openAppend, h.isDir, if_neg Bool.false_ne_true, h.pathExists,
    if_neg (by simp)]
  dsimp only
  rw [hread]

/-- What is not a file is a directory, or does not exist. -/
lemma isDir_of_pathExists {vfs : Vfs} (hnone : contentAt vfs path = none)
    (hexists : vfs.pathExists path = true) :
    vfs.isDir path = true ∧ vfs.canWriteTo path = false := by
  rw [Vfs.pathExists] at hexists
  rw [contentAt] at hnone
  rw [Vfs.isDir, Vfs.canWriteTo]
  cases hnormal : Vfs.normalizePath path with
  | error e =>
    rw [hnormal] at hexists
    cases hexists
  | ok p =>
    rw [hnormal] at hexists hnone
    dsimp only at hexists hnone ⊢
    rw [containsKey] at hexists
    rcases hget : vfs.get p with _ | (⟨content, permission⟩ | permission)
    · rw [hget] at hexists
      cases hexists
    · rw [hget] at hnone
      cases hnone
    · refine ⟨rfl, ?_⟩
      rw [checkMutation, hget]
      cases permission <;> rfl

lemma redirectAppend_of_refused (hnone : contentAt files.vfs (resolvePath files.cwd path) = none)
    (hcan : files.vfs.canWriteTo (resolvePath files.cwd path) = false) :
    redirectAppend files path pieces = ⟨false, files.vfs⟩ := by
  rw [redirectAppend, openAppend]
  cases hexists : files.vfs.pathExists (resolvePath files.cwd path) with
  | true => rw [(isDir_of_pathExists hnone hexists).1, if_pos rfl]
  | false =>
    obtain ⟨e, hwrite⟩ := writeFile_error hcan []
    rw [if_pos Bool.false_ne_true, hwrite]
    split_ifs <;> rfl

lemma isDir_eq_false {vfs : Vfs} (h : vfs.pathExists path = false) : vfs.isDir path = false := by
  rw [Vfs.pathExists] at h
  rw [Vfs.isDir]
  cases hnormal : Vfs.normalizePath path with
  | error e => rfl
  | ok p =>
    rw [hnormal] at h
    dsimp only at h ⊢
    rw [containsKey] at h
    rw [Option.isSome_eq_false_iff.mp h |> Option.isNone_iff_eq_none.mp]
    rfl

lemma redirectAppend_of_created (hnone : contentAt files.vfs (resolvePath files.cwd path) = none)
    (hcan : files.vfs.canWriteTo (resolvePath files.cwd path) = true) :
    ∃ v, redirectAppend files path pieces = ⟨true, v⟩ ∧
      FileAt v (resolvePath files.cwd path) pieces.flatten .readWrite := by
  have hmissing : files.vfs.pathExists (resolvePath files.cwd path) = false := by
    by_contra hexists
    have hcannot := (isDir_of_pathExists hnone (Bool.eq_true_of_not_eq_false hexists)).2
    exact absurd (hcan.symm.trans hcannot) Bool.true_eq_false.mp
  obtain ⟨v, hwrite⟩ := exists_writeFile hcan []
  rw [redirectAppend, openAppend, isDir_eq_false hmissing, if_neg Bool.false_ne_true, hmissing,
    if_pos Bool.false_ne_true, hwrite]
  exact writePieces_of_fileAt (fileAt_of_writeFile hwrite) (by decide)

/-- The file is read, which gives nothing if there is none, and rewritten. -/
lemma fsWrite_eq (hmounts : files.vfs.mounts = ∅) : fsWrite files path data ⟨true, false⟩ =
    match files.vfs.writeFile (resolvePath files.cwd path)
      ((contentAt files.vfs (resolvePath files.cwd path)).getD [] ++ utf8 data) .readWrite with
    | .ok v => ⟨true, v⟩
    | .error _ => ⟨false, files.vfs⟩ := by
  have hhost : files.vfs.getHostPath (resolvePath files.cwd path) = none := by
    rw [getHostPath, hmounts]
    cases Vfs.normalizePath (resolvePath files.cwd path) <;> rfl
  have hread := toOption_readFile files.vfs (resolvePath files.cwd path)
  rw [fsWrite]
  dsimp only
  rw [if_neg Bool.false_ne_true, if_pos rfl, Files.ctxReadFile, Files.writeFile,
    resolvePath_resolvePath, hhost, ← hread]
  dsimp only
  have hmatch (written : Except VfsError Vfs) :
      (match written.mapError IoError.vfs with
      | .ok v => (⟨true, v⟩ : Outcome)
      | .error _ => ⟨false, files.vfs⟩) =
        match written with
        | .ok v => ⟨true, v⟩
        | .error _ => ⟨false, files.vfs⟩ := by
    cases written <;> rfl
  cases readFile files.vfs (resolvePath files.cwd path) <;> exact hmatch _

/-! ### Outcomes -/

lemma Appended.of_fileAt {vfs v : Vfs} {content : List UInt8} {permission : Permission}
    (h : FileAt vfs path content permission) (hv : FileAt v path (content ++ bytes) permission) :
    Appended vfs path bytes ⟨true, v⟩ := by
  refine ⟨?_, fun permission' hperm => ?_⟩
  · rw [h.contentAt, hv.contentAt]
    rfl
  · rw [hv.permissionAt, ← h.permissionAt, hperm]

lemma Appended.of_failed {vfs : Vfs} : Appended vfs path bytes ⟨false, vfs⟩ :=
  ⟨rfl, fun _ h => h⟩

lemma utf8_eq_nil_iff : utf8 data = [] ↔ data = [] :=
  ⟨fun h => utf8_injective h, fun h => by rw [h]; rfl⟩

lemma tee_of_refuses (h : Refuses files.vfs (resolvePath files.cwd path)) :
    Appends.tee files path stdin = ⟨stdin.bytes = [], files.vfs⟩ := by
  rw [Appends.tee, teeLoop_of_refuses h, Bool.true_and]
  simp only [reads_eq_nil_iff]

lemma fsWrite_of_cannot (hmounts : files.vfs.mounts = ∅)
    (hcan : files.vfs.canWriteTo (resolvePath files.cwd path) = false) :
    fsWrite files path data ⟨true, false⟩ = ⟨false, files.vfs⟩ := by
  obtain ⟨e, hwrite⟩ := writeFile_error hcan
    ((contentAt files.vfs (resolvePath files.cwd path)).getD [] ++ utf8 data)
  rw [fsWrite_eq hmounts, hwrite]

/-- Where nobody may write, all fail if there is something to write. If there is nothing, `tee` does
not fail. -/
lemma appendsAlike_of_refuses (hmounts : files.vfs.mounts = ∅)
    (hcan : files.vfs.canWriteTo (resolvePath files.cwd path) = false)
    (hrefuses : Refuses files.vfs (resolvePath files.cwd path))
    (hredirect : ∀ pieces, pieces.flatten ≠ [] →
      redirectAppend files path pieces = ⟨false, files.vfs⟩) :
    AppendsAlike files path data ↔ data ≠ [] := by
  have hnode : fsWrite files path data ⟨true, false⟩ = ⟨false, files.vfs⟩ :=
    fsWrite_of_cannot hmounts hcan
  constructor
  · rintro h rfl
    have htee := h.tee_succeeded [] ⟨[], fun _ hmem => absurd hmem List.not_mem_nil⟩ rfl rfl
    rw [tee_of_refuses hrefuses, ← h.node_succeeded [] rfl, hnode] at htee
    exact Bool.true_eq_false.mp htee
  · intro hdata
    have hne : utf8 data ≠ [] := mt utf8_eq_nil_iff.mp hdata
    have htee (stdin : Stream) (hstdin : stdin.bytes = utf8 data) :
        Appends.tee files path stdin = ⟨false, files.vfs⟩ := by
      rw [tee_of_refuses hrefuses, hstdin]
      simp [hne]
    have hwrite (pieces : List (List UInt8)) (hpieces : pieces.flatten = utf8 data) :
        redirectAppend files path pieces = ⟨false, files.vfs⟩ :=
      hredirect pieces (by rwa [hpieces])
    refine ⟨fun pieces stdin hpieces hstdin => ?_, fun pieces hpieces => ?_,
      fun pieces hpieces => ?_, fun stdin hstdin => ?_, ?_⟩
    · rw [htee stdin hstdin, hwrite pieces hpieces]
    · rw [hnode, hwrite pieces hpieces]
    · rw [hwrite pieces hpieces]
      exact .of_failed
    · rw [htee stdin hstdin]
      exact .of_failed
    · rw [hnode]
      exact .of_failed

lemma appendsAlike_of_readWrite (hmounts : files.vfs.mounts = ∅)
    (h : FileAt files.vfs (resolvePath files.cwd path) content .readWrite) :
    AppendsAlike files path data := by
  have hwrite (pieces : List (List UInt8)) (hpieces : pieces.flatten = utf8 data) :
      ∃ v, redirectAppend files path pieces = ⟨true, v⟩ ∧
        FileAt v (resolvePath files.cwd path) (content ++ utf8 data) .readWrite := by
    rw [redirectAppend_of_fileAt h, ← hpieces]
    exact writePieces_of_fileAt h (by decide)
  have htee (stdin : Stream) (hstdin : stdin.bytes = utf8 data) :
      ∃ v, Appends.tee files path stdin = ⟨true, v⟩ ∧
        FileAt v (resolvePath files.cwd path) (content ++ utf8 data) .readWrite := by
    rw [← hstdin, Stream.bytes, ← flatten_reads stdin.ne_nil]
    exact teeLoop_of_fileAt h (by decide)
  have hnode : ∃ v, fsWrite files path data ⟨true, false⟩ = ⟨true, v⟩ ∧
      FileAt v (resolvePath files.cwd path) (content ++ utf8 data) .readWrite := by
    obtain ⟨v, hv⟩ := exists_writeFile h.canWriteTo (content ++ utf8 data)
    refine ⟨v, ?_, fileAt_of_writeFile hv⟩
    rw [fsWrite_eq hmounts, h.contentAt, Option.getD_some, hv]
  obtain ⟨w, hw, hfile⟩ := hnode
  refine ⟨fun pieces stdin hpieces hstdin => ?_, fun pieces hpieces => ?_,
    fun pieces hpieces => ?_, fun stdin hstdin => ?_, ?_⟩
  · obtain ⟨v, hv, -⟩ := hwrite pieces hpieces
    obtain ⟨v', hv', -⟩ := htee stdin hstdin
    rw [hv, hv']
  · obtain ⟨v, hv, -⟩ := hwrite pieces hpieces
    rw [hv, hw]
  · obtain ⟨v, hv, hfile⟩ := hwrite pieces hpieces
    rw [hv]
    exact .of_fileAt h hfile
  · obtain ⟨v, hv, hfile⟩ := htee stdin hstdin
    rw [hv]
    exact .of_fileAt h hfile
  · rw [hw]
    exact .of_fileAt h hfile

/-- A file that does not exist is only created by a redirect and by node. -/
lemma not_appendsAlike_of_created (hnone : contentAt files.vfs (resolvePath files.cwd path) = none)
    (hcan : files.vfs.canWriteTo (resolvePath files.cwd path) = true) :
    ¬ AppendsAlike files path data := by
  intro h
  have hrefuses : Refuses files.vfs (resolvePath files.cwd path) := fun content permission hfile =>
    absurd (hfile.contentAt.symm.trans hnone) (Option.some_ne_none content)
  by_cases hdata : data = []
  · subst hdata
    have hcontent := (h.tee ⟨[], fun _ hmem => absurd hmem List.not_mem_nil⟩ rfl).content
    rw [tee_of_refuses hrefuses, hnone] at hcontent
    cases hcontent
  · have hne : utf8 data ≠ [] := mt utf8_eq_nil_iff.mp hdata
    have hflat : [utf8 data].flatten = utf8 data := List.flatten_singleton
    obtain ⟨v, hv, -⟩ := @redirectAppend_of_created _ _ [utf8 data] hnone hcan
    have htee := h.tee_succeeded [utf8 data]
      ⟨[utf8 data], fun chunk hchunk => by rwa [List.mem_singleton.mp hchunk]⟩ hflat hflat
    rw [tee_of_refuses hrefuses, hv] at htee
    exact hne (hflat ▸ of_decide_eq_true htee)

/-- Appending is the same by every route where the file may be overwritten, or where there is data
and no route may write. -/
theorem appendsAlike_iff (hmounts : files.vfs.mounts = ∅) :
    AppendsAlike files path data ↔ WrittenAlike files.vfs (resolvePath files.cwd path) data := by
  rw [WrittenAlike]
  cases hcontent : contentAt files.vfs (resolvePath files.cwd path) with
  | none =>
    have hfile (content : List UInt8) (permission : Permission) :
        ¬ FileAt files.vfs (resolvePath files.cwd path) content permission := fun hfile =>
      absurd (hfile.contentAt.symm.trans hcontent) (Option.some_ne_none content)
    split_ifs with hcan
    · refine iff_of_false (not_appendsAlike_of_created hcontent hcan) fun hexists => ?_
      exact absurd (hcan.symm.trans (isDir_of_pathExists hcontent hexists).2)
        Bool.true_eq_false.mp
    · rw [appendsAlike_of_refuses hmounts (Bool.eq_false_of_not_eq_true hcan)
        (fun content permission h => absurd h (hfile content permission))
        (fun _ _ => redirectAppend_of_refused hcontent (Bool.eq_false_of_not_eq_true hcan))]
      exact ⟨fun hdata => ⟨hdata, fun content => hfile content _⟩, And.left⟩
  | some content =>
    obtain ⟨permission, hfile⟩ := exists_fileAt hcontent
    have hcan := hfile.canWriteTo
    cases permission with
    | readWrite =>
      rw [hcan, if_pos (by decide)]
      exact iff_of_true (appendsAlike_of_readWrite hmounts hfile) hfile.pathExists
    | appendOnly =>
      rw [if_neg (by rw [hcan]; decide)]
      refine iff_of_false (fun h => ?_) fun h => h.2 content hfile
      have hflat : [utf8 data].flatten = utf8 data := List.flatten_singleton
      obtain ⟨v, hv, -⟩ := @writePieces_of_fileAt _ _ _ _ [utf8 data] content.length hfile
        (by decide)
      have hnode := h.node_succeeded [utf8 data] hflat
      rw [fsWrite_of_cannot hmounts hcan, redirectAppend_of_fileAt hfile, hv] at hnode
      cases hnode
    | readOnly =>
      rw [if_neg (by rw [hcan]; decide)]
      have hrefuses : Refuses files.vfs (resolvePath files.cwd path) :=
        fun content' permission' hfile' => (hfile.unique hfile').symm
      rw [appendsAlike_of_refuses hmounts hcan hrefuses fun pieces hpieces => by
        rw [redirectAppend_of_fileAt hfile, writePieces_of_refuses hrefuses]
        simp [hpieces]]
      refine ⟨fun hdata => ⟨hdata, fun content' hfile' => ?_⟩, And.left⟩
      cases hfile.unique hfile'

end

/-- The filesystem that a runtime starts with. -/
def bootFiles : Files := ⟨Vfs.new, fun _ => .error [], "/workspace".toList⟩

theorem appendsAlike_readme : bootFiles.vfs.mounts = ∅ ∧
    AppendsAlike bootFiles "README.md".toList "\n".toList := by
  have hwritten : WrittenAlike bootFiles.vfs (resolvePath bootFiles.cwd "README.md".toList)
      "\n".toList := by
    rw [WrittenAlike, if_pos (by decide +kernel)]
    decide +kernel
  exact ⟨rfl, (appendsAlike_iff rfl).mpr hwritten⟩

/-- The log may only be appended to, which node does not do. -/
theorem not_appendsAlike : ¬ AppendsAlike bootFiles "/log/actions.jsonl".toList "\n".toList := by
  intro h
  have hnode := h.node_succeeded [[10]] (by decide +kernel)
  revert hnode
  decide +kernel

end AmlaSandbox.Shell.Appends
