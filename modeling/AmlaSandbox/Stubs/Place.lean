import AmlaSandbox.Stubs.Files
import AmlaSandbox.Vfs.Names

/-!
# Where generated files go

Generation adds directories and files and leaves every other entry as it is, so its effect on a
filesystem is decided by the normalised paths of the tools.
-/

namespace AmlaSandbox

namespace Vfs

variable {vfs v w : Vfs} {path key p q dir : Text} {names parts : List Text}

/-! ### Directories -/

lemma get_insertParts (permission : Permission) (current : Text) (parts : List Text) (vfs : Vfs)
    (q : Text) : (insertParts permission current parts vfs).get q =
      if vfs.get q = none ∧ q ∈ dirsTo current parts then some (.directory permission)
      else vfs.get q := by
  induction parts generalizing current vfs with
  | nil => simp [insertParts, dirsTo]
  | cons part parts ih =>
    rw [insertParts, ih, dirsTo]
    by_cases hcontains : vfs.containsKey (current ++ '/' :: part)
    · have hsome : vfs.get (current ++ '/' :: part) ≠ none := by
        simpa [containsKey, Option.isSome_iff_ne_none] using hcontains
      by_cases hq : q = current ++ '/' :: part
      · subst hq
        simp [hcontains, hsome]
      · simp [hcontains, hq]
    · have hnone : vfs.get (current ++ '/' :: part) = none := by
        simpa [containsKey] using hcontains
      by_cases hq : q = current ++ '/' :: part
      · subst hq
        simp [hcontains, hnone]
      · simp [hcontains, hq, get_insert_of_ne]

/-- The directories that `insertDirAll` makes where they are missing. -/
def dirsOf (path : Text) : List Text :=
  match normalizePath path with
  | .ok dir => dirsTo [] (Vfs.parts dir)
  | .error _ => []

lemma parts_root : Vfs.parts root = [] := by decide

lemma get_insertDirAll (vfs : Vfs) (path : Text) (permission : Permission) (q : Text) :
    (vfs.orUnchanged (vfs.insertDirAll path permission)).get q =
      if vfs.get q = none ∧ q ∈ dirsOf path then some (.directory permission)
      else vfs.get q := by
  rw [insertDirAll, dirsOf]
  cases hdir : normalizePath path with
  | error e => simp [bind, Except.bind, orUnchanged]
  | ok dir =>
    simp only [bind, Except.bind]
    split_ifs with hroot hq hq
    · simp [hroot, parts_root, dirsTo] at hq
    · rfl
    · rw [orUnchanged, get_insertParts, if_pos hq]
    · rw [orUnchanged, get_insertParts, if_neg hq]

/-! ### What a generation may do -/

/-- Every entry stays, or is one of the files and is now a read-only file, or is one of the
directories and was missing. -/
def Puts (dirs files : Set Text) (vfs v : Vfs) : Prop :=
  ∀ q, v.get q = vfs.get q ∨
    (q ∈ files ∧ ∃ content, v.get q = some (.file content .readOnly)) ∨
    (q ∈ dirs ∧ vfs.get q = none ∧ v.get q = some (.directory .readOnly))

variable {dirs files : Set Text}

lemma Puts.refl (dirs files : Set Text) (vfs : Vfs) : Puts dirs files vfs vfs := fun _ => .inl rfl

lemma Puts.trans (h : Puts dirs files vfs v) (h' : Puts dirs files v w) :
    Puts dirs files vfs w := by
  intro q
  rcases h' q with heq | hfile | ⟨hq, hnone, hdir⟩
  · rw [heq]
    exact h q
  · exact .inr (.inl hfile)
  · rcases h q with heq | ⟨_, content, hfile⟩ | ⟨_, _, hdir'⟩
    · exact .inr (.inr ⟨hq, heq ▸ hnone, hdir⟩)
    · rw [hnone] at hfile
      cases hfile
    · rw [hnone] at hdir'
      cases hdir'

lemma Puts.mono {dirs' files' : Set Text} (h : Puts dirs files vfs v) (hd : dirs ⊆ dirs')
    (hf : files ⊆ files') : Puts dirs' files' vfs v := by
  intro q
  rcases h q with heq | ⟨hq, hfile⟩ | ⟨hq, hdir⟩
  · exact .inl heq
  · exact .inr (.inl ⟨hf hq, hfile⟩)
  · exact .inr (.inr ⟨hd hq, hdir⟩)

lemma Puts.containsKey (h : Puts dirs files vfs v) (hq : vfs.containsKey q) : v.containsKey q := by
  rw [Vfs.containsKey] at hq ⊢
  rcases h q with heq | ⟨_, content, hfile⟩ | ⟨_, hnone, _⟩
  · rwa [heq]
  · rw [hfile]
    rfl
  · rw [hnone] at hq
    cases hq

/-- A read-only file stays one. -/
lemma Puts.file {content : List UInt8} (h : Puts dirs files vfs v)
    (hq : vfs.get q = some (.file content .readOnly)) :
    ∃ content, v.get q = some (.file content .readOnly) := by
  rcases h q with heq | ⟨_, hfile⟩ | ⟨_, hnone, _⟩
  · exact ⟨content, heq.trans hq⟩
  · exact hfile
  · rw [hq] at hnone
    cases hnone

/-- What is there stays as it is, away from the files. -/
lemma Puts.get_eq {entry : Entry} (h : Puts dirs files vfs v) (hq : vfs.get q = some entry)
    (hfiles : q ∉ files) : v.get q = some entry := by
  rcases h q with heq | ⟨hmem, _⟩ | ⟨_, hnone, _⟩
  · exact heq.trans hq
  · exact absurd hmem hfiles
  · rw [hq] at hnone
    cases hnone

/-- Nothing happens away from the files and the directories. -/
lemma Puts.get_eq_of_not_mem (h : Puts dirs files vfs v) (hdirs : q ∉ dirs) (hfiles : q ∉ files) :
    v.get q = vfs.get q := by
  rcases h q with heq | ⟨hmem, _⟩ | ⟨hmem, _⟩
  · exact heq
  · exact absurd hmem hfiles
  · exact absurd hmem hdirs

lemma puts_foldl {α : Type} {f : Vfs → α → Vfs} {xs : List α} (vfs : Vfs)
    (h : ∀ x ∈ xs, ∀ vfs, Puts dirs files vfs (f vfs x)) :
    Puts dirs files vfs (xs.foldl f vfs) := by
  induction xs generalizing vfs with
  | nil => exact Puts.refl dirs files vfs
  | cons x xs ih =>
    rw [List.foldl_cons]
    exact (h x List.mem_cons_self vfs).trans
      (ih (f vfs x) fun y hy => h y (List.mem_cons_of_mem x hy))

/-- The directory that an entry lies in is there. -/
def HasParent (vfs : Vfs) (path : Text) : Prop :=
  ∀ dir, parentOf path = some dir → vfs.containsKey dir

lemma HasParent.puts (h : vfs.HasParent path) (hputs : Puts dirs files vfs v) :
    v.HasParent path :=
  fun dir hdir => hputs.containsKey (h dir hdir)

/-- What one step of a generation puts in is there at its end. -/
lemma exists_file_foldl {α : Type} {f : Vfs → α → Vfs} {xs : List α} {x : α} (hx : x ∈ xs)
    (hputs : ∀ x ∈ xs, ∀ vfs, Puts dirs files vfs (f vfs x))
    (hfile : ∀ vfs : Vfs, vfs.HasParent path →
      ∃ content, (f vfs x).get path = some (.file content .readOnly))
    (hparent : vfs.HasParent path) :
    ∃ content, (xs.foldl f vfs).get path = some (.file content .readOnly) := by
  obtain ⟨before, after, rfl⟩ := List.append_of_mem hx
  rw [List.foldl_append, List.foldl_cons]
  have hbefore : Puts dirs files vfs (before.foldl f vfs) :=
    puts_foldl vfs fun y hy => hputs y (List.mem_append_left _ hy)
  obtain ⟨content, hget⟩ := hfile _ (hparent.puts hbefore)
  have hafter : Puts dirs files (f (before.foldl f vfs) x)
      (after.foldl f (f (before.foldl f vfs) x)) :=
    puts_foldl _ fun y hy => hputs y (List.mem_append_right _ (List.mem_cons_of_mem _ hy))
  exact hafter.file hget

end Vfs

namespace Stubs

open Constraints Json Library Protocol Text Vfs

variable {debug : Value → String} {vfs v : Vfs} {path key q dir content : Text}
variable {metadata : ToolMetadata} {names : List Text}

/-! ### One file -/

/-- The directories that a file needs. -/
def parentDirs (path : Text) : Set Text :=
  {q | ∃ key dir, normalizePath path = .ok key ∧ parentOf key = some dir ∧ q ∈ dirsOf dir}

lemma puts_putFile (vfs : Vfs) (path content : Text) :
    Puts (parentDirs path) {key | normalizePath path = .ok key} vfs (putFile vfs path content) := by
  rw [putFile]
  cases hv : vfs.insertFile path (asBytes content) .readOnly with
  | error e => exact Puts.refl _ _ vfs
  | ok v =>
    obtain ⟨key, hkey⟩ := exists_normalizePath hv
    obtain ⟨w, rfl, hw⟩ := (insertFile_eq_ok hkey).mp hv
    have hdirs : Puts (parentDirs path) {key | normalizePath path = .ok key} vfs w := by
      cases hdir : parentOf key with
      | none =>
        simp only [hdir] at hw
        rw [hw]
        exact Puts.refl _ _ vfs
      | some dir =>
        simp only [hdir] at hw
        split_ifs at hw with hcontains
        · rw [hw]
          exact Puts.refl _ _ vfs
        · have hget := get_insertDirAll vfs dir .readOnly
          rw [hw] at hget
          intro q
          rw [show w.get q = _ from hget q]
          split_ifs with hq
          · exact .inr (.inr ⟨⟨key, dir, hkey, hdir, hq.2⟩, hq.1, rfl⟩)
          · exact .inl rfl
    refine hdirs.trans fun q => ?_
    rw [orUnchanged, get_insert]
    split_ifs with hq
    · exact .inr (.inl ⟨hq ▸ hkey, _, rfl⟩)
    · exact .inl rfl

/-- A file whose directory is there is put in. -/
lemma get_putFile (hkey : normalizePath path = .ok key)
    (hparent : vfs.HasParent key) :
    (putFile vfs path content).get key = some (.file (asBytes content) .readOnly) := by
  have hin : vfs.insertFile path (asBytes content) .readOnly =
      .ok (vfs.insert key (.file (asBytes content) .readOnly)) := by
    rw [insertFile_eq_ok hkey]
    refine ⟨vfs, rfl, ?_⟩
    cases hdir : parentOf key with
    | none => rfl
    | some dir => simp [hparent dir hdir]
  rw [putFile, hin, orUnchanged, get_insert_self]

/-! ### The files of a tool -/

def extensions : List String := [".js", ".d.ts", ".md"]

/-- Where the files of a tool go. -/
def filePaths (metadata : ToolMetadata) : Set Text :=
  {key | ∃ extension ∈ extensions, normalizePath (filePath metadata extension) = .ok key}

/-- The directories made for a tool. -/
def madeDirs (metadata : ToolMetadata) : Set Text :=
  {q | q ∈ dirsOf (dirPath metadata)} ∪
    {q | ∃ extension ∈ extensions, q ∈ parentDirs (filePath metadata extension)}

lemma exists_extension {file : Text × Text} (h : file ∈ toolFiles debug metadata) :
    ∃ extension ∈ extensions, file.1 = filePath metadata extension := by
  simp only [toolFiles, List.mem_cons, List.not_mem_nil, or_false] at h
  rcases h with rfl | rfl | rfl
  · exact ⟨".js", by simp [extensions], rfl⟩
  · exact ⟨".d.ts", by simp [extensions], rfl⟩
  · exact ⟨".md", by simp [extensions], rfl⟩

lemma exists_toolFile (debug : Value → String) (metadata : ToolMetadata) {extension : String}
    (h : extension ∈ extensions) :
    ∃ content, (filePath metadata extension, content) ∈ toolFiles debug metadata := by
  simp only [extensions, List.mem_cons, List.not_mem_nil, or_false] at h
  rcases h with rfl | rfl | rfl
  · exact ⟨_, .head _⟩
  · exact ⟨_, .tail _ (.head _)⟩
  · exact ⟨_, .tail _ (.tail _ (.head _))⟩

lemma puts_toolFile {file : Text × Text} (h : file ∈ toolFiles debug metadata) (vfs : Vfs) :
    Puts (madeDirs metadata) (filePaths metadata) vfs (putFile vfs file.1 file.2) := by
  obtain ⟨extension, hext, hpath⟩ := exists_extension h
  apply (puts_putFile vfs file.1 file.2).mono
  · rw [hpath]
    exact fun q hq => .inr ⟨extension, hext, hq⟩
  · rw [hpath]
    exact fun key hkey => ⟨extension, hext, hkey⟩

lemma puts_insertDirAll (vfs : Vfs) (metadata : ToolMetadata) :
    Puts (madeDirs metadata) (filePaths metadata) vfs
      (vfs.orUnchanged (vfs.insertDirAll (dirPath metadata) .readOnly)) := by
  intro q
  rw [get_insertDirAll]
  split_ifs with hq
  · exact .inr (.inr ⟨.inl hq.2, hq.1, rfl⟩)
  · exact .inl rfl

theorem puts_generateToolFiles (debug : Value → String) (vfs : Vfs) (metadata : ToolMetadata) :
    Puts (madeDirs metadata) (filePaths metadata) vfs (generateToolFiles debug vfs metadata) :=
  (puts_insertDirAll vfs metadata).trans
    (puts_foldl _ fun _ hfile vfs => puts_toolFile hfile vfs)

/-- The directory of a tool is there afterwards. -/
lemma containsKey_generateToolFiles (debug : Value → String) (vfs : Vfs)
    (hq : q ∈ dirsOf (dirPath metadata)) :
    (generateToolFiles debug vfs metadata).containsKey q := by
  have hdir : (vfs.orUnchanged (vfs.insertDirAll (dirPath metadata) .readOnly)).containsKey q := by
    rw [containsKey, get_insertDirAll]
    split_ifs with h
    · rfl
    · rw [not_and] at h
      exact Option.isSome_iff_ne_none.mpr fun hnone => h hnone hq
  have hputs : Puts (madeDirs metadata) (filePaths metadata) _
      (generateToolFiles debug vfs metadata) :=
    puts_foldl _ fun _ hfile vfs => puts_toolFile hfile vfs
  exact hputs.containsKey hdir

/-- A file of the tool is there afterwards if its directory was there before. -/
lemma exists_file_generateToolFiles (debug : Value → String) (hkey : key ∈ filePaths metadata)
    (hparent : vfs.HasParent key) :
    ∃ content, (generateToolFiles debug vfs metadata).get key = some (.file content .readOnly) := by
  obtain ⟨extension, hext, hkey⟩ := hkey
  obtain ⟨content, hfile⟩ := exists_toolFile debug metadata hext
  apply exists_file_foldl hfile (fun _ hfile vfs => puts_toolFile hfile vfs) _
    (hparent.puts (puts_insertDirAll vfs metadata))
  intro vfs hparent
  exact ⟨_, get_putFile hkey hparent⟩

/-! ### The place of the files -/

def InTools (path : Text) : Prop := path = "/tools".toList ∨ "/tools/".toList <+: path

/-- Where the generator may change entries. -/
def InPlace (path : Text) : Prop := InTools path ∨ path = environmentPath

def toolsName : Text := "tools".toList

lemma isName_toolsName : IsName toolsName := by
  constructor <;> decide

lemma inTools_ofNames (names : List Text) : InTools (ofNames (toolsName :: names)) := by
  rw [ofNames_of_ne_nil (by simp), slashed_cons]
  cases names with
  | nil => exact .inl rfl
  | cons name names => exact .inr ⟨name ++ slashed names, rfl⟩

lemma exists_of_inTools (hnames : ∀ name ∈ names, IsName name) (h : InTools (ofNames names)) :
    ∃ rest, names = toolsName :: rest := by
  rcases h with heq | ⟨rest, heq⟩
  · refine ⟨[], ofNames_inj hnames (by simpa using isName_toolsName) ?_⟩
    exact heq
  · refine ⟨(rest.splitOn '/').filter (· ≠ []), ?_⟩
    rw [← parts_ofNames hnames, ← heq, parts]
    simp [List.splitOn_cons_eq_if_modifyHead, toolsName]

lemma eq_of_environmentPath (hnames : ∀ name ∈ names, IsName name)
    (h : ofNames names = environmentPath) : names = ["ENVIRONMENT.md".toList] := by
  have hname : IsName "ENVIRONMENT.md".toList := by constructor <;> decide
  exact ofNames_inj hnames (by simpa using hname) h

/-- The directories on the way to a place are in place. -/
lemma inPlace_of_mem_dirsTo (hnames : ∀ name ∈ names, IsName name)
    (h : names = [] ∨ InPlace (ofNames names)) (hq : q ∈ dirsTo [] names) : InPlace q := by
  obtain ⟨names', hne, hprefix, rfl⟩ := exists_of_mem_dirsTo hq
  rw [List.nil_append, ← ofNames_of_ne_nil hne]
  rcases h with rfl | h | h
  · exact absurd (List.prefix_nil.mp hprefix) hne
  · obtain ⟨rest, rfl⟩ := exists_of_inTools hnames h
    obtain ⟨name, names', rfl⟩ := List.exists_cons_of_ne_nil hne
    obtain ⟨rfl, _⟩ := List.cons_prefix_cons.mp hprefix
    exact .inl (inTools_ofNames names')
  · obtain rfl := eq_of_environmentPath hnames h
    obtain ⟨name, names', rfl⟩ := List.exists_cons_of_ne_nil hne
    obtain ⟨rfl, hnil⟩ := List.cons_prefix_cons.mp hprefix
    rw [List.prefix_nil.mp hnil]
    exact .inr rfl

lemma inPlace_of_mem_dirsOf (h : ∀ dir, normalizePath path = .ok dir → dir = root ∨ InPlace dir)
    (hq : q ∈ dirsOf path) : InPlace q := by
  rw [dirsOf] at hq
  cases hdir : normalizePath path with
  | error e => simp [hdir] at hq
  | ok dir =>
    obtain ⟨names, hnames, rfl⟩ := exists_names_of_normalizePath hdir
    have hisName : ∀ name ∈ names, IsName name := fun name hname => (hnames name hname).isName
    simp only [hdir, parts_ofNames hisName] at hq
    apply inPlace_of_mem_dirsTo hisName _ hq
    rcases h _ hdir with hroot | hplace
    · exact .inl (ofNames_inj hisName (by simp) hroot)
    · exact .inr hplace

lemma eq_root_of_normalizePath_root {d : Text} (hd : normalizePath root = .ok d) : d = root :=
  (Except.ok.inj hd).symm

/-- Normalising a directory in `/tools` again leads to the root or to a place in `/tools`. -/
lemma inTools_of_normalizePath (hnames : ∀ name ∈ toolsName :: names, IsComponent name) {d : Text}
    (hd : normalizePath (ofNames (toolsName :: names)) = .ok d) : d = root ∨ InPlace d := by
  cases names using List.reverseRecOn with
  | nil =>
    have htools : normalizePath (ofNames [toolsName]) = .ok (ofNames [toolsName]) := by decide
    rw [htools] at hd
    obtain rfl := Except.ok.inj hd
    exact .inr (.inl (inTools_ofNames []))
  | append_singleton names last =>
    rw [← List.cons_append] at hd hnames
    have hrest : ∀ name ∈ toolsName :: names, IsComponent name :=
      fun name hname => hnames name (List.mem_append_left _ hname)
    have hlast : IsComponent last := hnames last (by simp)
    rcases normalizePath_ofNames hrest hlast.noSlash hd with rfl | rfl | rfl
    · exact .inr (.inl (inTools_ofNames names))
    · cases names with
      | nil => exact .inl rfl
      | cons name names => exact .inr (.inl (inTools_ofNames _))
    · exact .inr (.inl (inTools_ofNames _))

/-- The directory of a file in place is in place too, or the root. -/
lemma inPlace_parent (hkey : normalizePath path = .ok key) (hplace : InPlace key)
    (hparent : parentOf key = some dir) {d : Text} (hd : normalizePath dir = .ok d) :
    d = root ∨ InPlace d := by
  obtain ⟨names, hnames, rfl⟩ := exists_names_of_normalizePath hkey
  cases names using List.reverseRecOn with
  | nil => cases hparent
  | append_singleton names last =>
    have hisName : ∀ name ∈ names ++ [last], IsName name :=
      fun name hname => (hnames name hname).isName
    rw [parentOf_ofNames (hisName last (by simp)), Option.some.injEq] at hparent
    subst hparent
    cases names with
    | nil => exact .inl (eq_root_of_normalizePath_root hd)
    | cons name names =>
      rcases hplace with htools | henvironment
      · obtain ⟨rest, hrest⟩ := exists_of_inTools hisName htools
        obtain ⟨rfl, _⟩ := List.cons_eq_cons.mp hrest
        exact inTools_of_normalizePath (fun n hn => hnames n (List.mem_append_left _ hn)) hd
      · simpa using eq_of_environmentPath hisName henvironment

/-! ### Tools that stay in place -/

/-- The directory of the tool, unless it is the root, and its files are in place. -/
structure Confined (metadata : ToolMetadata) : Prop where
  dir : ∀ dir, normalizePath (dirPath metadata) = .ok dir → dir = root ∨ InPlace dir
  files : ∀ key ∈ filePaths metadata, InPlace key

lemma Confined.inPlace_of_mem_madeDirs (h : Confined metadata) (hq : q ∈ madeDirs metadata) :
    InPlace q := by
  rcases hq with hq | ⟨extension, hext, key, dir, hkey, hparent, hq⟩
  · exact inPlace_of_mem_dirsOf h.dir hq
  · apply inPlace_of_mem_dirsOf _ hq
    intro d hd
    exact inPlace_parent hkey (h.files key ⟨extension, hext, hkey⟩) hparent hd

/-- The files of every tool of a list, and then further files. -/
def generateAll (debug : Value → String) (tools : List ToolMetadata) (further : List (Text × Text))
    (vfs : Vfs) : Vfs :=
  further.foldl (fun vfs (path, content) => putFile vfs path content)
    (tools.foldl (generateToolFiles debug) vfs)

def allDirs (tools : List ToolMetadata) (further : List (Text × Text)) : Set Text :=
  {q | (∃ metadata ∈ tools, q ∈ madeDirs metadata) ∨ ∃ file ∈ further, q ∈ parentDirs file.1}

def allFiles (tools : List ToolMetadata) (further : List (Text × Text)) : Set Text :=
  {q | (∃ metadata ∈ tools, q ∈ filePaths metadata) ∨
    ∃ file ∈ further, normalizePath file.1 = .ok q}

variable {tools : List ToolMetadata} {further : List (Text × Text)}

lemma puts_tool (debug : Value → String) (hmem : metadata ∈ tools) (vfs : Vfs) :
    Puts (allDirs tools further) (allFiles tools further) vfs
      (generateToolFiles debug vfs metadata) :=
  (puts_generateToolFiles debug vfs metadata).mono
    (fun _ hq => .inl ⟨metadata, hmem, hq⟩) fun _ hq => .inl ⟨metadata, hmem, hq⟩

lemma puts_further {file : Text × Text} (hmem : file ∈ further) (vfs : Vfs) :
    Puts (allDirs tools further) (allFiles tools further) vfs (putFile vfs file.1 file.2) :=
  (puts_putFile vfs file.1 file.2).mono
    (fun _ hq => .inr ⟨file, hmem, hq⟩) fun _ hq => .inr ⟨file, hmem, hq⟩

lemma puts_foldl_tools (debug : Value → String) (further : List (Text × Text)) (vfs : Vfs) :
    Puts (allDirs tools further) (allFiles tools further) vfs
      (tools.foldl (generateToolFiles debug) vfs) :=
  puts_foldl vfs fun _ hmem => puts_tool debug hmem

lemma puts_foldl_further (tools : List ToolMetadata) (vfs : Vfs) :
    Puts (allDirs tools further) (allFiles tools further) vfs
      (further.foldl (fun vfs (path, content) => putFile vfs path content) vfs) :=
  puts_foldl vfs fun _ hmem => puts_further hmem

theorem puts_generateAll (debug : Value → String) (tools : List ToolMetadata)
    (further : List (Text × Text)) (vfs : Vfs) :
    Puts (allDirs tools further) (allFiles tools further) vfs
      (generateAll debug tools further vfs) :=
  (puts_foldl_tools debug further vfs).trans (puts_foldl_further tools _)

/-- Each file of the generation is there afterwards if its directory was there before. -/
lemma exists_file_generateAll (debug : Value → String) (hq : q ∈ allFiles tools further)
    (hparent : vfs.HasParent q) :
    ∃ content, (generateAll debug tools further vfs).get q =
      some (.file content .readOnly) := by
  rcases hq with ⟨metadata, hmem, hq⟩ | ⟨file, hmem, hq⟩
  · have hputs : ∀ metadata ∈ tools, ∀ vfs, Puts (allDirs tools further) (allFiles tools further)
        vfs (generateToolFiles debug vfs metadata) := fun _ hmem => puts_tool debug hmem
    obtain ⟨content, hfile⟩ := exists_file_foldl hmem hputs
      (fun vfs hparent => exists_file_generateToolFiles debug hq hparent) hparent
    exact (puts_foldl_further tools _).file hfile
  · have hputs : ∀ file ∈ further, ∀ vfs, Puts (allDirs tools further) (allFiles tools further)
        vfs (putFile vfs file.1 file.2) := fun _ hmem => puts_further hmem
    apply exists_file_foldl hmem hputs _ (hparent.puts (puts_foldl_tools debug further vfs))
    intro vfs hparent
    exact ⟨_, get_putFile hq hparent⟩

/-- The directory of a tool of the list is there afterwards. -/
lemma containsKey_generateAll (debug : Value → String) (further : List (Text × Text)) (vfs : Vfs)
    (hmem : metadata ∈ tools) (hq : q ∈ dirsOf (dirPath metadata)) :
    (generateAll debug tools further vfs).containsKey q := by
  apply (puts_foldl_further tools _).containsKey
  obtain ⟨before, after, rfl⟩ := List.append_of_mem hmem
  rw [List.foldl_append, List.foldl_cons]
  exact (puts_foldl_tools debug [] _).containsKey (containsKey_generateToolFiles debug _ hq)

/-- A filesystem with the directory that an entry lies in, and the entry if there is one. -/
def holding (path : Text) (entry : Option Entry) : Vfs :=
  let vfs := match parentOf path with
    | some dir => empty.insert dir (.directory .readOnly)
    | none => empty
  match entry with
  | some entry => vfs.insert path entry
  | none => vfs

lemma get_holding (path : Text) (entry : Option Entry) : (holding path entry).get path = entry := by
  have hne (dir : Text) (hdir : parentOf path = some dir) : path ≠ dir := by
    rintro rfl
    exact absurd (length_lt_of_parentOf hdir) (lt_irrefl _)
  unfold holding
  cases entry with
  | some entry => simp
  | none =>
    cases hdir : parentOf path with
    | none => rfl
    | some dir =>
      dsimp only
      rw [get_insert_of_ne _ _ (hne dir hdir)]
      rfl

lemma hasParent_holding (path : Text) (entry : Option Entry) :
    (holding path entry).HasParent path := by
  intro dir hdir
  simp only [holding, hdir]
  cases entry with
  | none => simp [containsKey]
  | some entry =>
    rw [containsKey, get_insert]
    split_ifs
    · rfl
    · simp

/-- Everything outside the place of the files stays as it is if and only if each tool is
confined. -/
theorem unchanged_iff_confined (debug : Value → String) (tools : List ToolMetadata)
    (hfurther : ∀ file ∈ further, ∃ key, normalizePath file.1 = .ok key ∧ InPlace key) :
    (∀ vfs q, ¬ InPlace q → (generateAll debug tools further vfs).get q = vfs.get q) ↔
      ∀ metadata ∈ tools, Confined metadata := by
  constructor
  · intro h metadata hmem
    constructor
    · intro dir hdir
      by_contra hnot
      rw [not_or] at hnot
      obtain ⟨names, hnames, rfl⟩ := exists_names_of_normalizePath hdir
      have hne : names ≠ [] := by
        rintro rfl
        exact hnot.1 rfl
      have hin : ofNames names ∈ dirsOf (dirPath metadata) := by
        rw [dirsOf, hdir]
        dsimp only
        rw [parts_ofNames fun name hname => (hnames name hname).isName, ofNames_of_ne_nil hne]
        exact mem_dirsTo hne []
      have hkey := containsKey_generateAll debug further empty hmem hin
      rw [containsKey, h empty _ hnot.2] at hkey
      cases hkey
    · intro key hkey
      by_contra hnot
      have hin : key ∈ allFiles tools further := .inl ⟨metadata, hmem, hkey⟩
      obtain ⟨content, hfile⟩ := exists_file_generateAll debug hin (hasParent_holding key none)
      rw [h _ key hnot, get_holding] at hfile
      cases hfile
  · intro h vfs q hq
    apply (puts_generateAll debug tools further vfs).get_eq_of_not_mem
    · rintro (⟨metadata, hmem, hmade⟩ | ⟨file, hmem, key, dir, hkey, hparent, hdirs⟩)
      · exact hq ((h metadata hmem).inPlace_of_mem_madeDirs hmade)
      · obtain ⟨key', hkey', hplace⟩ := hfurther file hmem
        obtain rfl := Except.ok.inj (hkey.symm.trans hkey')
        apply hq
        apply inPlace_of_mem_dirsOf _ hdirs
        intro d hd
        exact inPlace_parent hkey hplace hparent hd
    · rintro (⟨metadata, hmem, hfile⟩ | ⟨file, hmem, hkey⟩)
      · exact hq ((h metadata hmem).files q hfile)
      · obtain ⟨key', hkey', hplace⟩ := hfurther file hmem
        obtain rfl := Except.ok.inj (hkey.symm.trans hkey')
        exact hq hplace

/-- Whatever is at a path stays there if and only if no file goes there. -/
theorem kept_iff_not_mem_allFiles (debug : Value → String) (tools : List ToolMetadata)
    (further : List (Text × Text)) (path : Text) :
    (∀ vfs entry, vfs.get path = some entry →
      (generateAll debug tools further vfs).get path = some entry) ↔
      path ∉ allFiles tools further := by
  constructor
  · intro h hpath
    have hkept := h _ _ (get_holding path (some (.directory .readWrite)))
    obtain ⟨content, hfile⟩ := exists_file_generateAll debug hpath (hasParent_holding path _)
    rw [hkept] at hfile
    cases hfile
  · intro h vfs entry hentry
    exact (puts_generateAll debug tools further vfs).get_eq hentry h

end Stubs

end AmlaSandbox
