import AmlaSandbox.Library.Computations
import AmlaSandbox.Vfs.AsyncVfs
import AmlaSandbox.Vfs.Edit

/-!
# What opening and closing do

`open` looks at the file that a path names and fills a cache. `close` puts one file into the
filesystem and, where they are missing, directories above it.
-/

namespace AmlaSandbox

open Library Vfs

namespace Vfs

variable {vfs v : Vfs} {path key p q : Text} {content : List UInt8} {permission : Permission}

/-! ### The file of a path -/

/-- The bytes of the file that a path names; a file that is not there has none. -/
def fileBytes (vfs : Vfs) (path : Text) : List UInt8 :=
  match vfs.stat path with
  | .ok (.file content _) => content
  | _ => []

lemma stat_eq (h : normalizePath path = .ok key) :
    vfs.stat path = match vfs.get key with
      | some entry => .ok entry
      | none => .error (.notFound key) := by
  rw [stat, h]
  rfl

lemma fileBytes_eq (h : normalizePath path = .ok key) :
    vfs.fileBytes path = match vfs.get key with
      | some (.file content _) => content
      | _ => [] := by
  rw [fileBytes, stat_eq h]
  rcases vfs.get key with _ | ⟨content, permission⟩ | ⟨permission⟩ <;> rfl

/-! ### Insertion -/

/-- The directory of a path is there or can be made. -/
def canInsert (vfs : Vfs) (path : Text) : Bool :=
  match normalizePath path with
  | .ok key =>
    match parentOf key with
    | some dir => vfs.containsKey dir || (normalizePath dir).isOk
    | none => true
  | .error _ => false

/-- Some entries are new, and these are directories; all others are as they were. -/
def AddsDirs (vfs v : Vfs) : Prop :=
  ∀ q, v.get q = vfs.get q ∨ vfs.get q = none ∧ ∃ permission, v.get q = some (.directory permission)

lemma addsDirs_refl (vfs : Vfs) : AddsDirs vfs vfs := fun _ => .inl rfl

lemma AddsDirs.trans {v' : Vfs} (h : AddsDirs vfs v) (h' : AddsDirs v v') : AddsDirs vfs v' := by
  intro q
  rcases h' q with heq | ⟨hnone, permission, hdir⟩
  · rw [heq]
    exact h q
  · rcases h q with heq | ⟨_, _, hdir'⟩
    · exact .inr ⟨heq ▸ hnone, permission, hdir⟩
    · rw [hnone] at hdir'
      cases hdir'

lemma addsDirs_insertParts (permission : Permission) (current : Text) (names : List Text)
    (vfs : Vfs) : AddsDirs vfs (insertParts permission current names vfs) := by
  induction names generalizing current vfs with
  | nil => exact addsDirs_refl vfs
  | cons name names ih =>
    rw [insertParts]
    refine AddsDirs.trans ?_ (ih _ _)
    split_ifs with hcontains
    · exact addsDirs_refl vfs
    · intro q
      rw [get_insert]
      split_ifs with hq
      · refine .inr ⟨?_, permission, rfl⟩
        rw [hq]
        simpa [containsKey] using hcontains
      · exact .inl rfl

lemma addsDirs_insertDirAll (h : vfs.insertDirAll path permission = .ok v) : AddsDirs vfs v := by
  simp only [insertDirAll, bind_eq_ok] at h
  obtain ⟨p, _, hv⟩ := h
  split_ifs at hv
  · obtain rfl := Except.ok.inj hv
    exact addsDirs_refl vfs
  · obtain rfl := Except.ok.inj hv
    exact addsDirs_insertParts permission [] (parts p) vfs

/-- `insertFile` in two steps. -/
lemma insertFile_eq_ok (hkey : normalizePath path = .ok key) :
    vfs.insertFile path content permission = .ok v ↔
      ∃ w, v = w.insert key (.file content permission) ∧
        match parentOf key with
        | some dir =>
          if vfs.containsKey dir then w = vfs else vfs.insertDirAll dir permission = .ok w
        | none => w = vfs := by
  simp only [insertFile, hkey, bind, Except.bind]
  cases parentOf key with
  | none => simp [eq_comm]
  | some dir =>
    simp only
    split_ifs
    · simp [eq_comm]
    · cases vfs.insertDirAll dir permission <;> simp [eq_comm]

/-- The file is put in; besides, there may be new directories. -/
lemma get_of_insertFile (hkey : normalizePath path = .ok key)
    (h : vfs.insertFile path content permission = .ok v) :
    ∃ w, AddsDirs vfs w ∧ v = w.insert key (.file content permission) := by
  obtain ⟨w, hv, hw⟩ := (insertFile_eq_ok hkey).mp h
  refine ⟨w, ?_, hv⟩
  split at hw
  · split_ifs at hw
    · exact hw ▸ addsDirs_refl vfs
    · exact addsDirs_insertDirAll hw
  · exact hw ▸ addsDirs_refl vfs

lemma exists_insertFile (h : vfs.canInsert path) (content : List UInt8) (permission : Permission) :
    ∃ v, vfs.insertFile path content permission = .ok v := by
  unfold canInsert at h
  cases hkey : normalizePath path with
  | error e => simp [hkey] at h
  | ok key =>
    suffices hw : ∃ w, match parentOf key with
        | some dir =>
          if vfs.containsKey dir then w = vfs else vfs.insertDirAll dir permission = .ok w
        | none => w = vfs by
      obtain ⟨w, hw⟩ := hw
      exact ⟨_, (insertFile_eq_ok hkey).mpr ⟨w, rfl, hw⟩⟩
    cases hdir : parentOf key with
    | none => exact ⟨vfs, rfl⟩
    | some dir =>
      simp only [hkey, hdir, Bool.or_eq_true] at h
      simp only
      split_ifs with hcontains
      · exact ⟨vfs, rfl⟩
      · cases hd : normalizePath dir with
        | error e => simp [hd, hcontains, Except.isOk, Except.toBool] at h
        | ok d =>
          simp only [insertDirAll, hd, bind, Except.bind]
          split_ifs
          · exact ⟨_, rfl⟩
          · exact ⟨_, rfl⟩

lemma AddsDirs.containsKey (h : AddsDirs vfs v) (hq : vfs.containsKey q) : v.containsKey q := by
  rcases h q with heq | ⟨hnone, _⟩
  · rwa [Vfs.containsKey, heq]
  · rw [Vfs.containsKey, hnone] at hq
    cases hq

lemma AddsDirs.fileBytes (h : AddsDirs vfs v) (path : Text) :
    v.fileBytes path = vfs.fileBytes path := by
  cases hkey : normalizePath path with
  | error e => simp [Vfs.fileBytes, stat, hkey, bind, Except.bind]
  | ok key =>
    rw [fileBytes_eq hkey, fileBytes_eq hkey]
    rcases h key with heq | ⟨hnone, permission, hdir⟩
    · rw [heq]
    · rw [hnone, hdir]

lemma stat_insertFile (hkey : normalizePath path = .ok key)
    (h : vfs.insertFile path content permission = .ok v) :
    v.stat path = .ok (.file content permission) := by
  obtain ⟨w, _, rfl⟩ := get_of_insertFile hkey h
  rw [stat_eq hkey, get_insert_self]

lemma fileBytes_insertFile (hkey : normalizePath path = .ok key)
    (h : vfs.insertFile path content permission = .ok v) : v.fileBytes path = content := by
  rw [fileBytes, stat_insertFile hkey h]

lemma exists_normalizePath (h : vfs.insertFile path content permission = .ok v) :
    ∃ key, normalizePath path = .ok key := by
  cases hkey : normalizePath path with
  | error e => simp [insertFile, hkey, bind, Except.bind] at h
  | ok key => exact ⟨key, rfl⟩

lemma fileBytes_insertFile_of_ne (hne : normalizePath path ≠ normalizePath q)
    (h : vfs.insertFile path content permission = .ok v) : v.fileBytes q = vfs.fileBytes q := by
  obtain ⟨key, hkey⟩ := exists_normalizePath h
  obtain ⟨w, hw, rfl⟩ := get_of_insertFile hkey h
  rw [← hw.fileBytes q]
  cases hq : normalizePath q with
  | error e => simp [fileBytes, stat, hq, bind, Except.bind]
  | ok k =>
    rw [fileBytes_eq hq, fileBytes_eq hq, get_insert_of_ne]
    rintro rfl
    exact hne (hkey.trans hq.symm)

/-- Nothing that is there goes. -/
lemma containsKey_insertFile (hq : vfs.containsKey q)
    (h : vfs.insertFile path content permission = .ok v) : v.containsKey q := by
  obtain ⟨key, hkey⟩ := exists_normalizePath h
  obtain ⟨w, hw, rfl⟩ := get_of_insertFile hkey h
  have hin := hw.containsKey hq
  rw [containsKey, get_insert]
  split_ifs with heq
  · rfl
  · exact hin

lemma canInsert_insertFile (hq : vfs.canInsert q)
    (h : vfs.insertFile path content permission = .ok v) : v.canInsert q := by
  unfold canInsert at hq ⊢
  split at hq
  · split at hq
    · rw [Bool.or_eq_true] at hq ⊢
      exact hq.imp_left fun hin => containsKey_insertFile hin h
    · rfl
  · cases hq

end Vfs

namespace AsyncVfs

variable {s s' : AsyncVfs} {vfs : Vfs} {path p q key : Text} {mode : OpenMode} {fd fd' : ℕ}
variable {content : List UInt8} {f : OpenFile} {cache : PageCache}

/-! ### Descriptors -/

lemma lookup_insert_cases {table : AList fun _ : ℕ => OpenFile} {f' : OpenFile}
    (h : (table.insert fd f).lookup fd' = some f') :
    (fd' = fd ∧ f' = f) ∨ fd' ≠ fd ∧ table.lookup fd' = some f' := by
  by_cases heq : fd' = fd
  · subst heq
    rw [AList.lookup_insert] at h
    exact .inl ⟨rfl, (Option.some.inj h).symm⟩
  · rw [AList.lookup_insert_ne heq] at h
    exact .inr ⟨heq, h⟩

lemma lookup_erase_eq_some {table : AList fun _ : ℕ => OpenFile} :
    (table.erase fd).lookup fd' = some f ↔ fd' ≠ fd ∧ table.lookup fd' = some f := by
  by_cases heq : fd' = fd
  · subst heq
    simp [AList.lookup_erase]
  · rw [AList.lookup_erase_ne heq]
    exact ⟨fun h => ⟨heq, h⟩, fun h => h.2⟩

/-! ### Opening -/

lemma contentForWrite_eq_ok {truncate : Bool} {entry : Entry} :
    contentForWrite path truncate entry = .ok content ↔
      ∃ old, entry = .file old .readWrite ∧ content = if truncate then [] else old := by
  rcases entry with ⟨old, permission⟩ | ⟨permission⟩
  · cases permission <;> cases truncate <;> simp [contentForWrite, eq_comm]
  · simp [contentForWrite]

lemma contentForAppend_eq_ok {entry : Entry} :
    contentForAppend path entry = .ok content ↔
      ∃ permission, entry = .file content permission ∧ permission ≠ .readOnly := by
  rcases entry with ⟨old, permission⟩ | ⟨permission⟩
  · cases permission <;> simp [contentForAppend]
  · simp [contentForAppend]

lemma contentOfNew_eq_ok :
    contentOfNew vfs path = .ok content ↔ vfs.canWriteTo path ∧ content = [] := by
  rw [contentOfNew]
  split_ifs with hcan <;> simp [hcan, eq_comm]

/-- `open` finds a file that may be opened in the mode, or may make one. -/
lemma openContent_eq_ok (h : openContent vfs path mode = .ok content) :
    ∃ key, Vfs.normalizePath path = .ok key ∧
      ((∃ old permission, vfs.get key = some (.file old permission) ∧
          content = (if mode = .write then [] else old) ∧
          (permission = .appendOnly → mode = .read ∨ mode = .append)) ∨
        vfs.get key = none ∧ content = []) := by
  cases hkey : Vfs.normalizePath path with
  | error e =>
    have hcan : vfs.canWriteTo path = false := by rw [canWriteTo, hkey]
    cases mode <;>
      simp [openContent, stat, pathExists, contentOfNew, hcan, hkey, bind, Except.bind] at h
  | ok key =>
    refine ⟨key, rfl, ?_⟩
    cases hget : vfs.get key with
    | none =>
      have hexists : vfs.pathExists path = false := by simp [pathExists, hkey, containsKey, hget]
      refine .inr ⟨rfl, ?_⟩
      cases mode with
      | read =>
        rw [openContent, stat_eq hkey, hget] at h
        cases h
      | _ =>
        rw [openContent, hexists] at h
        exact (contentOfNew_eq_ok.mp h).2
    | some entry =>
      have hexists : vfs.pathExists path = true := by simp [pathExists, hkey, containsKey, hget]
      have hstat : vfs.stat path = .ok entry := by rw [stat_eq hkey, hget]
      left
      cases mode with
      | read =>
        rw [openContent, hstat] at h
        rcases entry with ⟨old, permission⟩ | ⟨permission⟩
        · exact ⟨old, permission, rfl, (Except.ok.inj h).symm, fun _ => .inl rfl⟩
        · cases h
      | write =>
        rw [openContent, hexists, hstat] at h
        obtain ⟨old, rfl, rfl⟩ := contentForWrite_eq_ok.mp h
        exact ⟨old, .readWrite, rfl, rfl, fun h => by cases h⟩
      | readWrite =>
        rw [openContent, hexists, hstat] at h
        obtain ⟨old, rfl, hcontent⟩ := contentForWrite_eq_ok.mp h
        exact ⟨old, .readWrite, rfl, hcontent, fun h => by cases h⟩
      | append =>
        rw [openContent, hexists, hstat] at h
        obtain ⟨permission, rfl, _⟩ := contentForAppend_eq_ok.mp h
        exact ⟨content, permission, rfl, rfl, fun _ => .inr rfl⟩

/-- The content is the file's, unless it is truncated. -/
lemma content_eq (h : openContent vfs path mode = .ok content) :
    content = if mode = .write then [] else vfs.fileBytes path := by
  obtain ⟨key, hkey, ⟨old, permission, hget, hcontent, _⟩ | ⟨hget, rfl⟩⟩ := openContent_eq_ok h
  · rw [fileBytes_eq hkey, hget, hcontent]
  · rw [fileBytes_eq hkey, hget, ite_self]

lemma openFile_eq_ok :
    s.openFile path mode = .ok (fd, s') ↔
      ∃ p content, normalizePath path = .ok p ∧ openContent s.vfs p mode = .ok content ∧
        fd = s.nextFd ∧
        s' = { s with
          fdTable := s.fdTable.insert s.nextFd
            { handle := .new (.new content)
                (populate content (s.getOrCreateCache p content.length)) mode
              path := p }
          caches := s.caches.insert p (populate content (s.getOrCreateCache p content.length))
          nextFd := (s.nextFd + 1) % 2 ^ 32 } := by
  simp only [openFile, bind_eq_ok, Except.ok.injEq, Prod.mk.injEq]
  constructor
  · rintro ⟨p, hp, content, hcontent, rfl, rfl⟩
    exact ⟨p, content, hp, hcontent, rfl, rfl⟩
  · rintro ⟨p, content, hp, hcontent, rfl, rfl⟩
    exact ⟨p, hp, content, hcontent, rfl, rfl⟩

/-! ### Closing -/

def IsOpen (s : AsyncVfs) (path : Text) : Prop :=
  ∃ fd f, s.fdTable.lookup fd = some f ∧ f.path = path

lemma dropUnused_eq (s : AsyncVfs) (path : Text) :
    (s.IsOpen path ∧ s.dropUnused path = s) ∨
      (¬ s.IsOpen path ∧ s.dropUnused path = { s with caches := s.caches.erase path }) := by
  have hcount : (s.fdTable.entries.countP fun entry => entry.2.path = path) = 0 ↔
      ¬ s.IsOpen path := by
    rw [List.countP_eq_zero]
    constructor
    · rintro h ⟨fd, f, hlookup, hpath⟩
      exact h ⟨fd, f⟩ (AList.mem_lookup_iff.mp hlookup) (by simpa using hpath)
    · rintro h ⟨fd, f⟩ hmem hpath
      exact h ⟨fd, f, AList.mem_lookup_iff.mpr hmem, by simpa using hpath⟩
  rw [dropUnused]
  by_cases hopen : s.IsOpen path
  · rw [if_neg (by rwa [hcount, not_not])]
    exact .inl ⟨hopen, rfl⟩
  · rw [if_pos (hcount.mpr hopen)]
    exact .inr ⟨hopen, rfl⟩

@[simp] lemma vfs_dropUnused (s : AsyncVfs) (path : Text) :
    (s.dropUnused path).vfs = s.vfs := by
  rcases s.dropUnused_eq path with ⟨_, heq⟩ | ⟨_, heq⟩ <;> rw [heq]

/-- The permission that a file is written back with. -/
def permissionOf (vfs : Vfs) (path : Text) : Permission :=
  match vfs.stat path with
  | .ok entry => entry.permission
  | .error _ => .readWrite

/-- The ways in which `close` goes for an open descriptor. -/
inductive Closes (s : AsyncVfs) (fd : ℕ) (f : OpenFile) : Except VfsError Unit × AsyncVfs → Prop
  | read : ¬ f.handle.mode.canWrite →
      Closes s fd f (.ok (), { s with fdTable := s.fdTable.erase fd }.dropUnused f.path)
  | noCache : f.handle.mode.canWrite → s.caches.lookup f.path = none →
      Closes s fd f (.ok (), { s with fdTable := s.fdTable.erase fd })
  | writeBack {cache : PageCache} {v : Vfs} :
      f.handle.mode.canWrite → s.caches.lookup f.path = some cache →
      s.vfs.insertFile f.path (rebuild cache).1 (permissionOf s.vfs f.path) = .ok v →
      Closes s fd f (.ok (), { s with
        vfs := v
        fdTable := s.fdTable.erase fd
        caches := s.caches.insert f.path (rebuild cache).2 }.dropUnused f.path)
  | fail {cache : PageCache} {e : VfsError} :
      f.handle.mode.canWrite → s.caches.lookup f.path = some cache →
      s.vfs.insertFile f.path (rebuild cache).1 (permissionOf s.vfs f.path) = .error e →
      Closes s fd f (.error e, { s with
        fdTable := s.fdTable.erase fd
        caches := s.caches.insert f.path (rebuild cache).2 })

lemma closes (hfd : s.fdTable.lookup fd = some f) : Closes s fd f (s.close fd) := by
  simp only [close, hfd]
  by_cases hmode : f.handle.mode.canWrite
  · rw [if_pos hmode]
    cases hcache : s.caches.lookup f.path with
    | none => exact .noCache hmode hcache
    | some cache =>
      simp only [AsyncVfs.writeBack]
      cases hins : s.vfs.insertFile f.path (rebuild cache).1
          (match s.vfs.stat f.path with
            | .ok entry => entry.permission
            | .error _ => .readWrite) with
      | error e => exact .fail hmode hcache hins
      | ok v => exact .writeBack hmode hcache hins
  · rw [if_neg hmode]
    exact .read hmode

end AsyncVfs

end AmlaSandbox
