import AmlaSandbox.Vfs.BottomUp

/-!
# The filesystem as a hierarchy

The flat map stands for folders with files and folders inside. Calls and queries see nothing else
of it, as long as `remove` finds the path that it has normalised again, and the root is not removed
recursively.
-/

namespace AmlaSandbox.Vfs

open Library Hierarchy

/-! ### The hierarchy -/

/-- A file has its bytes and a permission, and a folder has a permission. -/
abbrev Label := (List UInt8 × Permission) ⊕ Permission

/-- The root, unless there is none. -/
abbrev FileTree := Option (Hierarchy Text (List UInt8 × Permission) Permission)

def Label.permission : Label → Permission
  | .inl (_, permission) | .inr permission => permission

def Entry.label : Entry → Label
  | .file content permission => .inl (content, permission)
  | .directory permission => .inr permission

/-- The names on the way to what a path stands for. -/
def namesOf (path : Text) : Option (List Text) := (normalizePath path).toOption.map parts

def Op.path : Op → Text
  | .createDir path _ | .createDirAll path _ | .writeFile path _ _ | .appendFile path _
  | .remove path | .removeRecursive path => path

namespace FileTree

variable (t : FileTree) (names : List Text) (permission : Permission) (content : List UInt8)

def put (l : Label) : FileTree := alter (fun _ => some (leaf l)) names t

def cut : FileTree := alter (fun _ => none) names t

/-- What is at a path may come and go, as far as the folder around it is concerned. -/
def Open : Prop :=
  ∀ above name, names = above ++ [name] → look t above = some (.inr .readWrite)

def MayGo : Prop := (∃ l, look t names = some l ∧ Label.permission l = .readWrite) ∧ t.Open names

/-- A file may be written where there is one that may be changed, or where it may come. -/
def MayWrite : Prop :=
  (∃ old, look t names = some (.inl (old, .readWrite))) ∨ look t names = none ∧ t.Open names

open Classical in
/-- A change that is made if it is allowed. -/
noncomputable def attempt (allowed : Prop) (t' : FileTree) : Bool × FileTree :=
  if allowed then (true, t') else (false, t)

noncomputable def createDir : Bool × FileTree :=
  t.attempt (look t names = none ∧ t.Open names) (t.put names (.inr permission))

/-- Folders are made where nothing is, up to where none can be made. -/
noncomputable def createDirAll (permission : Permission) :
    FileTree → List Text → List Text → Bool × FileTree
  | t, _, [] => (true, t)
  | t, above, name :: names =>
    match look t (above ++ [name]) with
    | some (.inr _) => createDirAll permission t (above ++ [name]) names
    | some (.inl _) => (false, t)
    | none =>
      match t.createDir (above ++ [name]) permission with
      | (true, t) => createDirAll permission t (above ++ [name]) names
      | (false, t) => (false, t)

noncomputable def writeFile : Bool × FileTree :=
  t.attempt (t.MayWrite names) (t.put names (.inl (content, permission)))

noncomputable def appendFile : Bool × FileTree :=
  match look t names with
  | some (.inl (old, permission)) =>
    t.attempt (permission ≠ .readOnly) (t.put names (.inl (old ++ content, permission)))
  | _ => (false, t)

noncomputable def remove : Bool × FileTree :=
  t.attempt (t.MayGo names ∧ ∀ name, look t (names ++ [name]) = none) (t.cut names)

noncomputable def removeRecursive : Bool × FileTree :=
  t.attempt ((look t names).isSome ∧
    ∀ below, (look t (names ++ below)).isSome → t.MayGo (names ++ below)) (t.cut names)

/-- Whether a call succeeds at the names of its path, and what it leaves. -/
noncomputable def callAt : Op → Bool × FileTree
  | .createDir _ permission => t.createDir names permission
  | .createDirAll _ permission => createDirAll permission t [] names
  | .writeFile _ content permission => t.writeFile names permission content
  | .appendFile _ content => t.appendFile names content
  | .remove _ => t.remove names
  | .removeRecursive _ => t.removeRecursive names

noncomputable def call (op : Op) : Bool × FileTree :=
  (namesOf op.path).elim (false, t) fun names => t.callAt names op

noncomputable def run (ops : List Op) : FileTree := ops.foldl (fun t op => (t.call op).2) t

/-- What is at a path. -/
def entryAt (path : Text) : Option Label := (namesOf path).bind (look t)

/-- The entries of a folder, as a listing has them. -/
def IsEntry (e : DirEntry) : Prop :=
  ∃ l, look t (names ++ [e.name]) = some l ∧
    e = ⟨e.name, ofNames (names ++ [e.name]), l.isRight, Label.permission l⟩

end FileTree

/-! ### The flat map stands for a hierarchy -/

def succeeds (vfs : Vfs) : Op → Bool
  | .createDir path permission => (vfs.createDir path permission).isOk
  | .createDirAll path permission => (vfs.createDirAll path permission).1.isOk
  | .writeFile path content permission => (vfs.writeFile path content permission).isOk
  | .appendFile path content => (vfs.appendFile path content).isOk
  | .remove path => (vfs.remove path).isOk
  | .removeRecursive path => (vfs.removeRecursive path).isOk

def isFile (vfs : Vfs) (path : Text) : Bool :=
  match normalizePath path with
  | .ok path => (vfs.get path).any Entry.isFile
  | .error _ => false

def canAppendTo (vfs : Vfs) (path : Text) : Bool :=
  match normalizePath path with
  | .ok path => (vfs.checkMutation path .append).isOk
  | .error _ => false

/-- `remove` comes back to the path that it has normalised, and the root is not removed
recursively. -/
def Op.Regular : Op → Prop
  | .remove path => ∀ p, normalizePath path = .ok p → normalizePath p = .ok p
  | .removeRecursive path => normalizePath path ≠ .ok root
  | _ => True

structure Represents (vfs : Vfs) (t : FileTree) : Prop where
  keys : ∀ p, vfs.containsKey p → ∃ raw, normalizePath raw = .ok p
  names : ∀ names, (look t names).isSome → ∀ name ∈ names, IsComponent name
  look_eq : ∀ names, (∀ name ∈ names, IsComponent name) →
    look t names = (vfs.get (ofNames names)).map Entry.label

/-- The queries tell what is in the hierarchy, under whatever path it is asked for. -/
structure Shows (vfs : Vfs) (t : FileTree) : Prop where
  stat : ∀ path, (vfs.stat path).toOption.map Entry.label = t.entryAt path
  pathExists : ∀ path, vfs.pathExists path = (t.entryAt path).isSome
  isFile : ∀ path, vfs.isFile path = (t.entryAt path).any Sum.isLeft
  isDir : ∀ path, vfs.isDir path = (t.entryAt path).any Sum.isRight
  canWriteTo : ∀ path, vfs.canWriteTo path = true ↔
    ∃ names, namesOf path = some names ∧ t.MayWrite names
  canAppendTo : ∀ path, vfs.canAppendTo path = true ↔ ∃ content permission,
    t.entryAt path = some (.inl (content, permission)) ∧ permission ≠ .readOnly
  listDir_isOk : ∀ path, (vfs.listDir path).isOk = (t.entryAt path).any Sum.isRight
  listDir : ∀ path entries, vfs.listDir path = .ok entries →
    entries.Pairwise (·.name < ·.name) ∧
      ∃ names, namesOf path = some names ∧ ∀ e, e ∈ entries ↔ t.IsEntry names e

variable {vfs v v' : Vfs} {t t' : FileTree} {names q : List Text} {path p : Text} {entry : Entry}
  {permission : Permission} {content : List UInt8} {op : Op}

lemma isName_of_components (hnames : ∀ name ∈ names, IsComponent name) :
    ∀ name ∈ names, IsName name := fun name hname => (hnames name hname).isName

lemma components_inj (hnames : ∀ name ∈ names, IsComponent name)
    (hq : ∀ name ∈ q, IsComponent name) : ofNames q = ofNames names ↔ q = names :=
  ⟨ofNames_inj (isName_of_components hq) (isName_of_components hnames), congrArg ofNames⟩

/-- A path leads through names, unless it is invalid. -/
lemma namesOf_cases (path : Text) :
    (namesOf path = none ∧ ∃ e, normalizePath path = .error e) ∨
      ∃ names, namesOf path = some names ∧ (∀ name ∈ names, IsComponent name) ∧
        normalizePath path = .ok (ofNames names) := by
  cases hpath : normalizePath path with
  | error e => exact .inl ⟨by simp [namesOf, hpath, Except.toOption], e, rfl⟩
  | ok p =>
    obtain ⟨names, hnames, rfl⟩ := exists_names_of_normalizePath hpath
    refine .inr ⟨names, ?_, hnames, rfl⟩
    simp [namesOf, hpath, Except.toOption, parts_ofNames (isName_of_components hnames)]

/-- A path is inside another one if its names go on from there. -/
lemma below_ofNames_iff (hnames : ∀ name ∈ names, IsComponent name)
    (hq : ∀ name ∈ q, IsComponent name) :
    Below (ofNames names) (ofNames q) ↔ names <+: q ∧ q ≠ names := by
  induction q using List.reverseRecOn with
  | nil =>
    refine iff_of_false (not_below_of_parentOf_none parentOf_root) ?_
    rintro ⟨hpre, hne⟩
    exact hne (List.prefix_nil.mp hpre).symm
  | append_singleton q last ih =>
    have hfront : ∀ name ∈ q, IsComponent name := fun n hn => hq n (List.mem_append_left _ hn)
    rw [below_iff_of_parentOf (parentOf_ofNames (hq last (by simp)).isName),
      components_inj hnames hfront, ih hfront, List.prefix_concat_iff]
    constructor
    · intro h
      have hpre : names <+: q := by
        rcases h with rfl | ⟨hpre, -⟩
        · exact List.prefix_rfl
        · exact hpre
      refine ⟨.inr hpre, ?_⟩
      rintro rfl
      have hlen := hpre.length_le
      rw [List.length_append, List.length_singleton] at hlen
      omega
    · rintro ⟨rfl | hpre, hne⟩
      · exact absurd rfl hne
      · exact or_iff_not_imp_left.mpr fun heq => ⟨hpre, heq⟩

/-- A call fails at an invalid path. -/
lemma step_of_invalid {e : VfsError} (h : normalizePath op.path = .error e) :
    vfs.succeeds op = false ∧ vfs.step op = vfs := by
  have hbind (f : Text → Except VfsError Vfs) : (normalizePath op.path >>= f) = .error e := by
    rw [h]
    rfl
  cases op with
  | createDirAll path permission =>
    have hr : vfs.createDirAll path permission = (.error e, vfs) := by
      rw [createDirAll, show normalizePath path = .error e from h]
    exact ⟨by rw [succeeds, hr]; rfl, by rw [Vfs.step, hr]⟩
  | createDir => exact ⟨congrArg Except.isOk (hbind _), congrArg vfs.orUnchanged (hbind _)⟩
  | writeFile => exact ⟨congrArg Except.isOk (hbind _), congrArg vfs.orUnchanged (hbind _)⟩
  | appendFile => exact ⟨congrArg Except.isOk (hbind _), congrArg vfs.orUnchanged (hbind _)⟩
  | remove => exact ⟨congrArg Except.isOk (hbind _), congrArg vfs.orUnchanged (hbind _)⟩
  | removeRecursive => exact ⟨congrArg Except.isOk (hbind _), congrArg vfs.orUnchanged (hbind _)⟩

lemma label_injective : Function.Injective Entry.label := by
  intro a b h
  cases a <;> cases b <;> simp_all [Entry.label]

@[simp] lemma permission_label (entry : Entry) :
    Label.permission entry.label = entry.permission := by
  cases entry <;> rfl

@[simp] lemma isLeft_label (entry : Entry) : entry.label.isLeft = entry.isFile := by
  cases entry <;> rfl

@[simp] lemma isRight_label (entry : Entry) : entry.label.isRight = entry.isDir := by
  cases entry <;> rfl

namespace FileTree

lemma Open.hasFolder (h : t.Open names) : HasFolder t names :=
  fun above name heq => ⟨_, h above name heq⟩

lemma attempt_of_pos {allowed : Prop} (h : allowed) : t.attempt allowed t' = (true, t') := if_pos h

lemma attempt_of_neg {allowed : Prop} (h : ¬ allowed) : t.attempt allowed t' = (false, t) :=
  if_neg h

lemma hasFolder_of_look (h : (look t names).isSome) : HasFolder t names := by
  rintro above name rfl
  exact exists_folder_of_look (q := []) h

end FileTree

namespace Represents

lemma look_eq_some (h : Represents vfs t) (hnames : ∀ name ∈ names, IsComponent name)
    (entry : Entry) : look t names = some entry.label ↔ vfs.get (ofNames names) = some entry := by
  rw [h.look_eq names hnames, ← Option.map_some]
  exact (Option.map_injective label_injective).eq_iff

lemma look_eq_none (h : Represents vfs t) (hnames : ∀ name ∈ names, IsComponent name) :
    look t names = none ↔ vfs.get (ofNames names) = none := by
  rw [h.look_eq names hnames, Option.map_eq_none_iff]

lemma open_iff (h : Represents vfs t) (hnames : ∀ name ∈ names, IsComponent name) :
    t.Open names ↔ vfs.ParentWritable (ofNames names) := by
  cases names using List.reverseRecOn with
  | nil => simp [FileTree.Open, ParentWritable]
  | append_singleton above name =>
    have habove : ∀ n ∈ above, IsComponent n := fun n hn => hnames n (List.mem_append_left _ hn)
    have hlook := h.look_eq_some habove (.directory .readWrite)
    rw [ParentWritable, parentOf_ofNames (hnames name (by simp)).isName]
    simp only [Option.some.injEq, forall_eq', ← hlook]
    constructor
    · intro hopen
      exact hopen above name rfl
    · intro hfolder above' name' heq
      obtain ⟨rfl, -⟩ := List.append_inj' heq rfl
      exact hfolder

lemma mayGo_iff (h : Represents vfs t) (hnames : ∀ name ∈ names, IsComponent name) :
    t.MayGo names ↔ vfs.Deletable (ofNames names) := by
  rw [FileTree.MayGo, Deletable, h.open_iff hnames, h.look_eq names hnames]
  simp [Option.map_eq_some_iff]

lemma mayWrite_iff (h : Represents vfs t) (hnames : ∀ name ∈ names, IsComponent name) :
    t.MayWrite names ↔ vfs.checkMutation (ofNames names) .overwrite = .ok () := by
  have hfile (old : List UInt8) := h.look_eq_some hnames (.file old .readWrite)
  simp only [Entry.label] at hfile
  simp only [FileTree.MayWrite, checkMutation_overwrite_eq_ok, hfile, h.look_eq_none hnames,
    h.open_iff hnames]

lemma exists_names (h : Represents vfs t) (hp : vfs.containsKey p) :
    ∃ names, (∀ name ∈ names, IsComponent name) ∧ p = ofNames names := by
  obtain ⟨raw, hraw⟩ := h.keys p hp
  exact exists_names_of_normalizePath hraw

lemma containsKey_iff (h : Represents vfs t) (hnames : ∀ name ∈ names, IsComponent name) :
    vfs.containsKey (ofNames names) = (look t names).isSome := by
  rw [containsKey, h.look_eq names hnames, Option.isSome_map]

/-- Every entry is in a directory. -/
lemma normalTree (h : Represents vfs t) : NormalTree vfs := by
  refine ⟨h.keys, fun p entry hp dir hdir => ?_⟩
  obtain ⟨names, hnames, rfl⟩ := h.exists_names (p := p) (by simp [containsKey, hp])
  cases names using List.reverseRecOn with
  | nil => cases hdir
  | append_singleton above name =>
    have habove : ∀ n ∈ above, IsComponent n := fun n hn => hnames n (List.mem_append_left _ hn)
    rw [parentOf_ofNames (hnames name (by simp)).isName] at hdir
    obtain rfl := Option.some.inj hdir
    obtain ⟨permission, hfolder⟩ := exists_folder_of_look (q := [])
      (Option.isSome_iff_exists.mpr ⟨_, (h.look_eq_some hnames entry).mpr hp⟩)
    exact ⟨.directory permission, (h.look_eq_some habove (.directory permission)).mp hfolder, rfl⟩

lemma insert (h : Represents vfs t) (hnames : ∀ name ∈ names, IsComponent name)
    (hfolder : HasFolder t names) (hempty : ∀ info, look t names ≠ some (.inr info))
    (entry : Entry) : Represents (vfs.insert (ofNames names) entry) (t.put names entry.label) := by
  have hput (q : List Text) : look (t.put names entry.label) q =
      if q = names then some entry.label else look t q := look_put hfolder hempty
  refine ⟨fun p hp => ?_, fun q hq => ?_, fun q hq => ?_⟩
  · rw [containsKey, get_insert] at hp
    split_ifs at hp with heq
    · exact heq ▸ exists_normalizePath_eq hnames
    · exact h.keys p hp
  · rw [hput] at hq
    split_ifs at hq with heq
    · exact heq ▸ hnames
    · exact h.names q hq
  · simp only [hput, get_insert, components_inj hnames hq]
    split_ifs
    · rfl
    · exact h.look_eq q hq

lemma delete (h : Represents vfs t) {paths : List Text}
    (hpaths : ∀ q, (∀ name ∈ q, IsComponent name) → (look t q).isSome →
      (ofNames q ∈ paths ↔ names <+: q)) :
    Represents (vfs.delete paths) (t.cut names) := by
  have hcut (q : List Text) : look (t.cut names) q = if names <+: q then none else look t q :=
    look_cut
  refine ⟨fun p hp => ?_, fun q hq => ?_, fun q hq => ?_⟩
  · rw [containsKey, get_delete] at hp
    split_ifs at hp
    · cases hp
    · exact h.keys p hp
  · rw [hcut] at hq
    split_ifs at hq
    · cases hq
    · exact h.names q hq
  · rw [hcut, get_delete]
    cases hlook : look t q with
    | none =>
      rw [(h.look_eq_none hq).mp hlook]
      simp
    | some l =>
      rw [h.look_eq q hq] at hlook
      simp only [hpaths q hq (by simp [h.look_eq q hq, hlook])]
      split_ifs
      · rfl
      · exact hlook.symm

/-! ### Calls -/

lemma fails (h : Represents vfs t) {r : Except VfsError Vfs} (hr : ∀ v, r ≠ .ok v) :
    r.isOk = false ∧ Represents (vfs.orUnchanged r) t := by
  cases r with
  | error e => exact ⟨rfl, h⟩
  | ok v => exact absurd rfl (hr v)

lemma attempt (h : Represents vfs t) (v' : Vfs) {r : Except VfsError Vfs} {allowed : Prop}
    (hr : ∀ v, r = .ok v ↔ allowed ∧ v = v') (h' : allowed → Represents v' t') :
    r.isOk = (t.attempt allowed t').1 ∧
      Represents (vfs.orUnchanged r) (t.attempt allowed t').2 := by
  by_cases hallowed : allowed
  · rw [(hr v').mpr ⟨hallowed, rfl⟩, FileTree.attempt_of_pos hallowed]
    exact ⟨rfl, h' hallowed⟩
  · rw [FileTree.attempt_of_neg hallowed]
    exact h.fails fun v hv => hallowed ((hr v).mp hv).1

lemma createDir (h : Represents vfs t) (hnames : ∀ name ∈ names, IsComponent name)
    (hpath : normalizePath path = .ok (ofNames names)) (permission : Permission) :
    (vfs.createDir path permission).isOk = (t.createDir names permission).1 ∧
      Represents (vfs.orUnchanged (vfs.createDir path permission))
        (t.createDir names permission).2 := by
  refine h.attempt (vfs.insert (ofNames names) (.directory permission)) (fun v => ?_) ?_
  · simp only [Vfs.createDir, hpath, bind_eq_ok, Except.ok.injEq, exists_eq_left', exists_unit,
      checkMutation_create_eq_ok, h.look_eq_none hnames, h.open_iff hnames, eq_comm (a := v)]
  · rintro ⟨hnone, hopen⟩
    exact h.insert hnames hopen.hasFolder (by simp [hnone]) (.directory permission)

lemma createParts (h : Represents vfs t) (above : List Text)
    (habove : ∀ name ∈ above, IsComponent name) (hnames : ∀ name ∈ names, IsComponent name)
    (permission : Permission) :
    (createParts permission (slashed above) names vfs).1.isOk =
        (FileTree.createDirAll permission t above names).1 ∧
      Represents (Vfs.createParts permission (slashed above) names vfs).2
        (FileTree.createDirAll permission t above names).2 := by
  induction names generalizing above vfs t with
  | nil => exact ⟨rfl, h⟩
  | cons name names ih =>
    have hnext : slashed above ++ '/' :: name = slashed (above ++ [name]) := by simp
    have hall : ∀ n ∈ above ++ [name], IsComponent n := by
      intro n hn
      rcases List.mem_append.mp hn with hn | hn
      · exact habove n hn
      · exact hnames n (by simp_all)
    have hrest : ∀ n ∈ names, IsComponent n := fun n hn => hnames n (List.mem_cons_of_mem _ hn)
    have hslashed : ofNames (above ++ [name]) = slashed (above ++ [name]) :=
      ofNames_of_ne_nil (by simp)
    have hlook := h.look_eq _ hall
    have hcheck : vfs.checkMutation (slashed (above ++ [name])) .create = .ok () ↔
        look t (above ++ [name]) = none ∧ t.Open (above ++ [name]) := by
      rw [h.look_eq_none hall, h.open_iff hall, hslashed, checkMutation_create_eq_ok]
    rw [hslashed] at hlook
    simp only [Vfs.createParts, FileTree.createDirAll, FileTree.createDir, hnext]
    rcases hget : vfs.get (slashed (above ++ [name])) with _ | ⟨content, perm⟩ | ⟨perm⟩
    · rw [hget, Option.map_none] at hlook
      rw [hlook] at hcheck ⊢
      cases hresult : vfs.checkMutation (slashed (above ++ [name])) .create with
      | error e =>
        rw [FileTree.attempt_of_neg fun hallowed => by
          cases hresult.symm.trans (hcheck.mpr hallowed)]
        exact ⟨rfl, h⟩
      | ok _ =>
        obtain ⟨hnone, hopen⟩ := hcheck.mp hresult
        have hrep := h.insert hall hopen.hasFolder (by simp [hlook]) (.directory permission)
        rw [hslashed] at hrep
        rw [FileTree.attempt_of_pos ⟨hnone, hopen⟩]
        exact ih hrep _ hall hrest
    · rw [hlook, hget]
      exact ⟨rfl, h⟩
    · rw [hlook, hget]
      exact ih h _ hall hrest

lemma createDirAll (h : Represents vfs t) (hnames : ∀ name ∈ names, IsComponent name)
    (hpath : normalizePath path = .ok (ofNames names)) (permission : Permission) :
    (vfs.createDirAll path permission).1.isOk =
        (FileTree.createDirAll permission t [] names).1 ∧
      Represents (vfs.createDirAll path permission).2
        (FileTree.createDirAll permission t [] names).2 := by
  simp only [Vfs.createDirAll, hpath, parts_ofNames (isName_of_components hnames)]
  split_ifs with hroot
  · obtain rfl : names = [] := (components_inj (by simp) hnames).mp hroot
    exact ⟨rfl, h⟩
  · exact h.createParts [] (by simp) hnames permission

lemma writeFile (h : Represents vfs t) (hnames : ∀ name ∈ names, IsComponent name)
    (hpath : normalizePath path = .ok (ofNames names)) (content : List UInt8)
    (permission : Permission) :
    (vfs.writeFile path content permission).isOk = (t.writeFile names permission content).1 ∧
      Represents (vfs.orUnchanged (vfs.writeFile path content permission))
        (t.writeFile names permission content).2 := by
  refine h.attempt (vfs.insert (ofNames names) (.file content permission)) (fun v => ?_) ?_
  · simp only [Vfs.writeFile, hpath, bind_eq_ok, Except.ok.injEq, exists_eq_left', exists_unit,
      h.mayWrite_iff hnames, eq_comm (a := v)]
  · rintro (⟨old, hold⟩ | ⟨hnone, hopen⟩)
    · have hfolder := FileTree.hasFolder_of_look (Option.isSome_iff_exists.mpr ⟨_, hold⟩)
      exact h.insert hnames hfolder (by simp [hold]) (.file content permission)
    · exact h.insert hnames hopen.hasFolder (by simp [hnone]) (.file content permission)

lemma appendFile (h : Represents vfs t) (hnames : ∀ name ∈ names, IsComponent name)
    (hpath : normalizePath path = .ok (ofNames names)) (content : List UInt8) :
    (vfs.appendFile path content).isOk = (t.appendFile names content).1 ∧
      Represents (vfs.orUnchanged (vfs.appendFile path content))
        (t.appendFile names content).2 := by
  have hok (v : Vfs) : vfs.appendFile path content = .ok v ↔
      ∃ old permission, vfs.get (ofNames names) = some (.file old permission) ∧
        permission ≠ .readOnly ∧
          v = vfs.insert (ofNames names) (.file (old ++ content) permission) := by
    simp only [Vfs.appendFile, hpath, bind_eq_ok, Except.ok.injEq, exists_eq_left', exists_unit,
      checkMutation_append_eq_ok]
    constructor
    · rintro ⟨⟨old, permission, hold, hperm⟩, hv⟩
      rw [hold] at hv
      exact ⟨old, permission, hold, hperm, (Except.ok.inj hv).symm⟩
    · rintro ⟨old, permission, hold, hperm, rfl⟩
      exact ⟨⟨old, permission, hold, hperm⟩, by rw [hold]⟩
  have hlook := h.look_eq names hnames
  unfold FileTree.appendFile
  rcases hget : vfs.get (ofNames names) with _ | ⟨old, permission⟩ | ⟨permission⟩
  · rw [hlook, hget]
    exact h.fails fun v hv => by simp [hok, hget] at hv
  · rw [hlook, hget]
    refine h.attempt (vfs.insert (ofNames names) (.file (old ++ content) permission))
      (fun v => by simp [hok, hget]) fun _ => ?_
    have hold : look t names = some (.inl (old, permission)) := by rw [hlook, hget]; rfl
    have hfolder := FileTree.hasFolder_of_look (Option.isSome_iff_exists.mpr ⟨_, hold⟩)
    exact h.insert hnames hfolder (by simp [hold]) (.file (old ++ content) permission)
  · rw [hlook, hget]
    exact h.fails fun v hv => by simp [hok, hget] at hv

lemma children_eq_empty_iff (h : Represents vfs t) (hnames : ∀ name ∈ names, IsComponent name) :
    vfs.children (ofNames names) = ∅ ↔ ∀ name, look t (names ++ [name]) = none := by
  rw [Set.eq_empty_iff_forall_notMem]
  constructor
  · intro hempty name
    by_contra hsome
    have hsome := Option.ne_none_iff_isSome.mp hsome
    have hall := h.names _ hsome
    refine hempty _ ⟨parentOf_ofNames (hall name (by simp)).isName, ?_⟩
    rwa [h.containsKey_iff hall]
  · rintro hnone q ⟨hparent, hkey⟩
    obtain ⟨parts, hparts, rfl⟩ := h.exists_names hkey
    cases parts using List.reverseRecOn with
    | nil => cases hparent
    | append_singleton above name =>
      have habove : ∀ n ∈ above, IsComponent n := fun n hn => hparts n (List.mem_append_left _ hn)
      rw [parentOf_ofNames (hparts name (by simp)).isName] at hparent
      obtain rfl := (components_inj hnames habove).mp (Option.some.inj hparent)
      rw [h.containsKey_iff hparts, hnone name] at hkey
      cases hkey

lemma remove (h : Represents vfs t) (hnames : ∀ name ∈ names, IsComponent name)
    (hpath : normalizePath path = .ok (ofNames names))
    (hagain : normalizePath (ofNames names) = .ok (ofNames names)) :
    (vfs.remove path).isOk = (t.remove names).1 ∧
      Represents (vfs.orUnchanged (vfs.remove path)) (t.remove names).2 := by
  have hseen : ¬ vfs.SeenNonempty (ofNames names) ↔ ∀ name, look t (names ++ [name]) = none := by
    rw [← h.children_eq_empty_iff hnames, ← Set.not_nonempty_iff_eq_empty, not_iff_not]
    constructor
    · rintro ⟨q, permission, hq, _, hchildren⟩
      obtain rfl := Except.ok.inj (hagain.symm.trans hq)
      exact hchildren
    · rintro ⟨q, hparent, hkey⟩
      obtain ⟨entry, hentry⟩ := Option.isSome_iff_exists.mp hkey
      obtain ⟨d, hd, hisDir⟩ := h.normalTree.closed q entry hentry _ hparent
      obtain ⟨permission, rfl⟩ := exists_directory hisDir
      exact ⟨_, permission, hagain, hd, q, hparent, hkey⟩
  refine h.attempt (vfs.delete [ofNames names]) (fun v => ?_) ?_
  · simp only [remove_eq_ok_iff h.normalTree.wellFormed, hpath, Except.ok.injEq, exists_eq_left',
      hseen, h.mayGo_iff hnames, and_assoc]
  · rintro ⟨-, hempty⟩
    refine h.delete fun q hq hsome => ?_
    rw [List.mem_singleton, components_inj hnames hq]
    constructor
    · rintro rfl
      exact List.prefix_rfl
    · rintro ⟨rest, rfl⟩
      cases rest with
      | nil => simp
      | cons name rest =>
        rw [← List.singleton_append, ← List.append_assoc] at hsome
        have hchild := isSome_look_of_append hsome
        rw [hempty name] at hchild
        cases hchild

lemma removeRecursive (h : Represents vfs t) (hnames : ∀ name ∈ names, IsComponent name)
    (hpath : normalizePath path = .ok (ofNames names)) (hne : ofNames names ≠ root) :
    (vfs.removeRecursive path).isOk = (t.removeRecursive names).1 ∧
      Represents (vfs.orUnchanged (vfs.removeRecursive path)) (t.removeRecursive names).2 := by
  have hmem (q : List Text) (hq : ∀ name ∈ q, IsComponent name) (hsome : (look t q).isSome) :
      ofNames q ∈ vfs.toDelete (ofNames names) ↔ names <+: q := by
    rw [mem_toDelete_iff h.normalTree (isNormal_of_normalizePath hpath) hne, h.containsKey_iff hq,
      below_ofNames_iff hnames hq, components_inj hnames hq]
    constructor
    · rintro ⟨-, rfl | ⟨hpre, -⟩⟩
      · exact List.prefix_rfl
      · exact hpre
    · intro hpre
      exact ⟨hsome, or_iff_not_imp_left.mpr fun heq => ⟨hpre, heq⟩⟩
  have hall : (∀ q ∈ vfs.toDelete (ofNames names), vfs.Deletable q) ↔
      ∀ below, (look t (names ++ below)).isSome → t.MayGo (names ++ below) := by
    constructor
    · intro hall below hsome
      have hq := h.names _ hsome
      exact (h.mayGo_iff hq).mpr (hall _ ((hmem _ hq hsome).mpr (List.prefix_append _ _)))
    · intro hall q hq
      obtain ⟨hkey, -⟩ := mem_toDelete.mp hq
      obtain ⟨parts, hparts, rfl⟩ := h.exists_names hkey
      rw [h.containsKey_iff hparts] at hkey
      obtain ⟨below, rfl⟩ := (hmem parts hparts hkey).mp hq
      exact (h.mayGo_iff hparts).mp (hall below hkey)
  refine h.attempt (vfs.delete (vfs.toDelete (ofNames names))) (fun v => ?_) fun _ => ?_
  · simp only [removeRecursive_eq_ok, hpath, Except.ok.injEq, exists_eq_left', hall,
      h.containsKey_iff hnames, and_assoc]
  · exact h.delete hmem

/-- Every regular call does to the filesystem what it does to the hierarchy. -/
lemma call (h : Represents vfs t) (hop : op.Regular) :
    vfs.succeeds op = (t.call op).1 ∧ Represents (vfs.step op) (t.call op).2 := by
  obtain ⟨hnone, e, he⟩ | ⟨names, hsome, hnames, hpath⟩ := namesOf_cases op.path
  · obtain ⟨hfails, hstep⟩ := step_of_invalid he
    rw [FileTree.call, hnone, hfails, hstep]
    exact ⟨rfl, h⟩
  · rw [FileTree.call, hsome]
    cases op with
    | createDir path permission => exact h.createDir hnames hpath permission
    | createDirAll path permission => exact h.createDirAll hnames hpath permission
    | writeFile path content permission => exact h.writeFile hnames hpath content permission
    | appendFile path content => exact h.appendFile hnames hpath content
    | remove path => exact h.remove hnames hpath (hop _ hpath)
    | removeRecursive path =>
      refine h.removeRecursive hnames hpath fun hroot => hop ?_
      rw [← hroot]
      exact hpath

lemma run {ops : List Op} (h : Represents vfs t) (hops : ∀ op ∈ ops, op.Regular) :
    Represents (vfs.run ops) (t.run ops) := by
  induction ops generalizing vfs t with
  | nil => exact h
  | cons op ops ih =>
    obtain ⟨hop, hrest⟩ := List.forall_mem_cons.mp hops
    exact ih (h.call hop).2 hrest

/-! ### Queries -/

/-- What is found under a path. -/
lemma entryAt_eq (h : Represents vfs t) (hpath : normalizePath path = .ok p) :
    t.entryAt path = (vfs.get p).map Entry.label := by
  obtain ⟨-, e, he⟩ | ⟨names, hsome, hnames, hok⟩ := namesOf_cases path
  · cases he.symm.trans hpath
  · obtain rfl := Except.ok.inj (hok.symm.trans hpath)
    rw [FileTree.entryAt, hsome, Option.bind_some, h.look_eq names hnames]

lemma entryAt_eq_none {e : VfsError} (he : normalizePath path = .error e) :
    t.entryAt path = none := by
  obtain ⟨hnone, -⟩ | ⟨names, -, -, hok⟩ := namesOf_cases path
  · rw [FileTree.entryAt, hnone, Option.bind_none]
  · cases he.symm.trans hok

lemma isOk_iff {r : Except VfsError Unit} : r.isOk = true ↔ r = .ok () := by
  cases r <;> simp [Except.isOk, Except.toBool]

lemma canWriteTo (h : Represents vfs t) (path : Text) :
    vfs.canWriteTo path = true ↔ ∃ names, namesOf path = some names ∧ t.MayWrite names := by
  obtain ⟨hnone, e, he⟩ | ⟨names, hsome, hnames, hpath⟩ := namesOf_cases path
  · simp [Vfs.canWriteTo, he, hnone]
  · simp only [Vfs.canWriteTo, hpath, hsome, Option.some.injEq, exists_eq_left',
      h.mayWrite_iff hnames, isOk_iff]

lemma canAppendTo (h : Represents vfs t) (path : Text) :
    vfs.canAppendTo path = true ↔ ∃ content permission,
      t.entryAt path = some (.inl (content, permission)) ∧ permission ≠ .readOnly := by
  cases hpath : normalizePath path with
  | error e => simp [Vfs.canAppendTo, hpath, entryAt_eq_none hpath]
  | ok p =>
    have hfile (content : List UInt8) (permission : Permission) :
        (vfs.get p).map Entry.label = some (.inl (content, permission)) ↔
          vfs.get p = some (.file content permission) :=
      (Option.map_injective label_injective).eq_iff (b := some (.file content permission))
    simp only [Vfs.canAppendTo, hpath, isOk_iff, checkMutation_append_eq_ok, h.entryAt_eq hpath,
      hfile]

lemma isComponent_of_key (h : Represents vfs t) (hnames : ∀ name ∈ names, IsName name)
    (hkey : vfs.containsKey (ofNames names)) : ∀ name ∈ names, IsComponent name := by
  obtain ⟨parts, hparts, heq⟩ := h.exists_names hkey
  rw [ofNames_inj hnames (isName_of_components hparts) heq]
  exact hparts

/-- The entries of a folder are what the prefix of its path finds. -/
lemma mem_children_iff (h : Represents vfs t) (hnames : ∀ name ∈ names, IsComponent name)
    {e : DirEntry} : e ∈ vfs.entries.entries.filterMap
      (directChild (ofNames names) (dirPrefix (ofNames names))) ↔ t.IsEntry names e := by
  have hisName := isName_of_components hnames
  rw [List.mem_filterMap]
  constructor
  · rintro ⟨⟨q, entry⟩, hentry, hchild⟩
    obtain ⟨hname, hq⟩ := directChild_eq_some hchild
    obtain rfl : q = ofNames (names ++ [e.name]) := by
      rw [ofNames_concat, ← List.singleton_append, ← List.append_assoc, ← dirPrefix_ofNames hisName]
      exact hq
    have hget := mem_entries_iff.mp hentry
    have hall : ∀ n ∈ names ++ [e.name], IsComponent n := by
      refine h.isComponent_of_key (fun n hn => ?_) (by simp [containsKey, hget])
      rcases List.mem_append.mp hn with hn | hn
      · exact hisName n hn
      · rwa [List.mem_singleton.mp hn]
    rw [directChild_append hisName hname entry] at hchild
    refine ⟨entry.label, (h.look_eq_some hall entry).mpr hget, ?_⟩
    rw [isRight_label, permission_label]
    exact (Option.some.inj hchild).symm
  · rintro ⟨l, hlook, he⟩
    have hall := h.names _ (Option.isSome_iff_exists.mpr ⟨l, hlook⟩)
    obtain ⟨entry, hget, rfl⟩ := Option.map_eq_some_iff.mp ((h.look_eq _ hall).symm.trans hlook)
    rw [isRight_label, permission_label] at he
    refine ⟨⟨_, entry⟩, mem_entries_iff.mpr hget, ?_⟩
    rw [directChild_append hisName (hall e.name (by simp)).isName entry, ← he]

/-- A listing has the entries of the folder, ordered by name. -/
lemma listDir (h : Represents vfs t) {entries : List DirEntry}
    (hlist : vfs.listDir path = .ok entries) :
    entries.Pairwise (·.name < ·.name) ∧
      ∃ names, namesOf path = some names ∧ ∀ e, e ∈ entries ↔ t.IsEntry names e := by
  obtain ⟨hnone, e, he⟩ | ⟨names, hsome, hnames, hpath⟩ := namesOf_cases path
  · simp [Vfs.listDir, bind_eq_ok, he] at hlist
  have hdistinct := (listDir_names hlist).2
  simp only [Vfs.listDir, hpath, bind_eq_ok, Except.ok.injEq, exists_eq_left'] at hlist
  split at hlist
  next permission hget =>
    obtain rfl := Except.ok.inj hlist
    refine ⟨?_, names, hsome, fun e => ?_⟩
    · have hsorted := List.pairwise_insertionSort (fun a b : DirEntry => a.name ≤ b.name)
        (vfs.entries.entries.filterMap (directChild (ofNames names) (dirPrefix (ofNames names))))
      exact (hsorted.and hdistinct).imp fun hle => lt_of_le_of_ne hle.1 hle.2
    · rw [List.mem_insertionSort]
      exact h.mem_children_iff hnames
  next => cases hlist
  next => cases hlist

lemma shows (h : Represents vfs t) : Shows vfs t where
  stat path := by
    cases hpath : normalizePath path with
    | error e =>
      rw [entryAt_eq_none hpath, Vfs.stat, hpath]
      rfl
    | ok p =>
      rw [h.entryAt_eq hpath, Vfs.stat, hpath]
      simp only [bind, Except.bind]
      cases vfs.get p <;> rfl
  pathExists path := by
    cases hpath : normalizePath path with
    | error e =>
      rw [entryAt_eq_none hpath, Vfs.pathExists, hpath]
      rfl
    | ok p =>
      rw [h.entryAt_eq hpath, Vfs.pathExists, hpath, Option.isSome_map]
      rfl
  isFile path := by
    cases hpath : normalizePath path with
    | error e =>
      rw [entryAt_eq_none hpath, Vfs.isFile, hpath]
      rfl
    | ok p =>
      rw [h.entryAt_eq hpath, Vfs.isFile, hpath, Option.any_map]
      simp only [isLeft_label]
  isDir path := by
    cases hpath : normalizePath path with
    | error e =>
      rw [entryAt_eq_none hpath, Vfs.isDir, hpath]
      rfl
    | ok p =>
      rw [h.entryAt_eq hpath, Vfs.isDir, hpath, Option.any_map]
      simp only [isRight_label]
  canWriteTo := h.canWriteTo
  canAppendTo := h.canAppendTo
  listDir_isOk path := by
    cases hpath : normalizePath path with
    | error e =>
      rw [entryAt_eq_none hpath, Vfs.listDir, hpath]
      rfl
    | ok p =>
      rw [h.entryAt_eq hpath, Vfs.listDir, hpath]
      simp only [bind, Except.bind]
      rcases vfs.get p with _ | ⟨content, permission⟩ | ⟨permission⟩ <;> rfl
  listDir _ _ := h.listDir

end Represents

/-! ### Runs -/

open Classical in
/-- The flat map as a map from names. -/
noncomputable def byNames (vfs : Vfs) (names : List Text) : Option Label :=
  if ∀ name ∈ names, IsComponent name then (vfs.get (ofNames names)).map Entry.label else none

/-- The hierarchy that the flat map stands for. -/
noncomputable def tree (vfs : Vfs) : FileTree := ofMap vfs.bound vfs.byNames

lemma byNames_of_components (hnames : ∀ name ∈ names, IsComponent name) :
    vfs.byNames names = (vfs.get (ofNames names)).map Entry.label := if_pos hnames

lemma isComponent_of_byNames (h : (vfs.byNames names).isSome) :
    ∀ name ∈ names, IsComponent name := by
  by_contra hnot
  rw [byNames, if_neg hnot] at h
  cases h

lemma length_le_ofNames (names : List Text) : names.length ≤ (ofNames names).length := by
  have hslashed : names.length ≤ (slashed names).length := by
    induction names with
    | nil => rfl
    | cons name names ih =>
      simp only [slashed_cons, List.length_cons, List.length_append]
      omega
  cases names with
  | nil => exact Nat.zero_le _
  | cons name names => rwa [ofNames_of_ne_nil (by simp)]

lemma NormalTree.inFolders (h : NormalTree vfs) : InFolders vfs.byNames := by
  intro names name hsome
  have hall := isComponent_of_byNames hsome
  have hnames : ∀ n ∈ names, IsComponent n := fun n hn => hall n (List.mem_append_left _ hn)
  rw [byNames_of_components hall, Option.isSome_map] at hsome
  obtain ⟨entry, hentry⟩ := Option.isSome_iff_exists.mp hsome
  have hparent : parentOf (ofNames (names ++ [name])) = some (ofNames names) :=
    parentOf_ofNames (hall name (by simp)).isName
  obtain ⟨d, hd, hisDir⟩ := h.closed _ entry hentry _ hparent
  obtain ⟨permission, rfl⟩ := exists_directory hisDir
  exact ⟨permission, by rw [byNames_of_components hnames, hd]; rfl⟩

/-- A tree with normalised keys stands for a hierarchy. -/
lemma NormalTree.represents_tree (h : NormalTree vfs) : Represents vfs vfs.tree := by
  have hlook (names : List Text) : look vfs.tree names = vfs.byNames names := by
    refine look_ofMap h.inFolders fun q hq => ?_
    refine (length_le_ofNames q).trans_lt (length_lt_bound ?_)
    rwa [byNames_of_components (isComponent_of_byNames hq), Option.isSome_map] at hq
  refine ⟨h.keys, fun names hsome => ?_, fun names hnames => ?_⟩
  · exact isComponent_of_byNames (hlook names ▸ hsome)
  · rw [hlook, byNames_of_components hnames]

/-- The filesystem is its hierarchy: whatever regular calls come one after the other, each succeeds
where it does on the hierarchy, and the queries show what the hierarchy then has. -/
theorem refines_tree (vfs : Vfs) (h : NormalTree vfs) (ops : List Op)
    (hops : ∀ op ∈ ops, op.Regular) :
    Shows (vfs.run ops) (vfs.tree.run ops) ∧ ∀ op : Op, op.Regular →
      (vfs.run ops).succeeds op = ((vfs.tree.run ops).call op).1 :=
  have hrep := h.represents_tree.run hops
  ⟨hrep.shows, fun _ hop => (hrep.call hop).1⟩

/-- A file is removed under another spelling of its path, and a directory with what is inside. -/
def madeAndCleared : List Op :=
  [.createDirAll "/workspace/a/b".toList .readWrite,
   .writeFile "/workspace/a/x".toList [1] .appendOnly,
   .writeFile "/workspace/a/b/y".toList [] .readWrite,
   .remove "/workspace/a/b/./y/".toList,
   .removeRecursive "/workspace/a/b".toList]

lemma regular_madeAndCleared : ∀ op ∈ madeAndCleared, op.Regular := by
  have hremove : Op.Regular (.remove "/workspace/a/b/./y/".toList) := by
    intro p hp
    have hpath : normalizePath "/workspace/a/b/./y/".toList = .ok "/workspace/a/b/y".toList := by
      decide +kernel
    obtain rfl := Except.ok.inj (hpath.symm.trans hp)
    decide +kernel
  have hrecursive : Op.Regular (.removeRecursive "/workspace/a/b".toList) := by
    intro hroot
    have hpath : normalizePath "/workspace/a/b".toList = .ok "/workspace/a/b".toList := by
      decide +kernel
    cases hpath.symm.trans hroot
  simp only [madeAndCleared, List.forall_mem_cons]
  exact ⟨trivial, trivial, trivial, hremove, hrecursive, by simp⟩

lemma normalTree_new : NormalTree new := by
  apply normalTree_of_entries
  decide +kernel

theorem refines_madeAndCleared :
    NormalTree new ∧ (∀ op ∈ madeAndCleared, op.Regular) ∧
      Shows (new.run madeAndCleared) (new.tree.run madeAndCleared) ∧ ∀ op : Op, op.Regular →
        (new.run madeAndCleared).succeeds op = ((new.tree.run madeAndCleared).call op).1 :=
  ⟨normalTree_new, regular_madeAndCleared,
    refines_tree new normalTree_new madeAndCleared regular_madeAndCleared⟩

end AmlaSandbox.Vfs
