import AmlaSandbox.Text.Basic

/-!
# Paths

Paths are normalised before they name an entry. `std::path` sees a path as components between
slashes; a normalised path is the root or a slash before each of its names.
-/

namespace AmlaSandbox.Vfs

/-! ### Components -/

inductive Component
  | rootDir
  | curDir
  | parentDir
  | normal (name : Text)
deriving DecidableEq, Repr

/-- The part between two slashes; empty parts and `.` are skipped. -/
def component? (part : Text) : Option Component :=
  if part = [] ∨ part = ['.'] then none
  else if part = ['.', '.'] then some .parentDir
  else some (.normal part)

/-- The start of a path that is a component of its own, and the rest. -/
def splitLead : Text → Text × Text
  | '/' :: body => (['/'], body)
  | ['.'] => (['.'], [])
  | '.' :: '/' :: body => (['.'], '/' :: body)
  | path => ([], path)

/-- `Path::components`. -/
def components (path : Text) : List Component :=
  let (lead, body) := splitLead path
  let first := if lead = ['/'] then [.rootDir] else if lead = ['.'] then [.curDir] else []
  first ++ (body.splitOn '/').filterMap component?

/-- `Path::parent`: the text before the last component, unless that is the root. -/
def parent (path : Text) : Option Text :=
  let (lead, body) := splitLead path
  match (body.splitOn '/').rdropWhile (component? · = none) with
  | [] => if lead = ['.'] then some [] else none
  | parts =>
    let rest := parts.dropLast.rdropWhile (component? · = none)
    some (lead ++ ['/'].intercalate rest)

/-! ### Normalisation -/

inductive VfsError
  | notFound (path : Text)
  | permissionDenied (message : Text)
  | notADirectory (path : Text)
  | notAFile (path : Text)
  | alreadyExists (path : Text)
  | invalidPath (message : Text)
deriving DecidableEq, Repr

def root : Text := ['/']

/-- The loop over the components, which keeps the names seen so far. -/
def normalizeComponents (path : Text) : List Text → List Component → Except VfsError (List Text)
  | names, [] => .ok names
  | names, .rootDir :: rest | names, .curDir :: rest => normalizeComponents path names rest
  | names, .parentDir :: rest =>
    if names = [] then .error (.invalidPath ("path escapes root: ".toList ++ path))
    else normalizeComponents path names.dropLast rest
  | names, .normal name :: rest =>
    if Char.ofNat 0 ∈ name then
      .error (.invalidPath ("invalid characters in path: ".toList ++ path))
    else normalizeComponents path (names ++ [name]) rest

def normalizePath (path : Text) : Except VfsError Text :=
  let path := path.trim
  if path = [] ∨ path = root then .ok root
  else
    match normalizeComponents path [] (components path) with
    | .error e => .error e
    | .ok [] => .ok root
    | .ok names => .ok ('/' :: ['/'].intercalate names)

def parentOf (normalized : Text) : Option Text :=
  if normalized = root then none
  else
    match Text.rfind '/' normalized with
    | some 0 => some root
    | some idx => some (normalized.take idx)
    | none => none

/-! ### Normalised paths -/

/-- A part between slashes that is not empty. -/
def IsName (name : Text) : Prop := name ≠ [] ∧ '/' ∉ name

/-- A slash before each name. -/
def slashed (names : List Text) : Text := names.flatMap ('/' :: ·)

def ofNames (names : List Text) : Text := if names = [] then root else slashed names

def IsNormal (path : Text) : Prop := ∃ names, (∀ name ∈ names, IsName name) ∧ path = ofNames names

variable {path p q part name : Text} {names rest : List Text}

@[simp] lemma slashed_nil : slashed [] = [] := rfl

@[simp] lemma slashed_cons : slashed (name :: names) = '/' :: (name ++ slashed names) := rfl

@[simp] lemma slashed_append : slashed (names ++ rest) = slashed names ++ slashed rest :=
  List.flatMap_append

@[simp] lemma ofNames_nil : ofNames [] = root := rfl

lemma ofNames_of_ne_nil (h : names ≠ []) : ofNames names = slashed names := if_neg h

lemma cons_intercalate (h : names ≠ []) : '/' :: ['/'].intercalate names = slashed names := by
  induction names with
  | nil => exact absurd rfl h
  | cons name names ih =>
    cases names with
    | nil => simp
    | cons next names =>
      rw [slashed_cons, ← ih (by simp)]
      simp [List.intercalate_cons_cons]

lemma isNormal_root : IsNormal root := ⟨[], by simp, rfl⟩

lemma IsNormal.ne_nil (h : IsNormal p) : p ≠ [] := by
  obtain ⟨names, _, rfl⟩ := h
  cases names <;> simp [ofNames, root]

lemma isName_of_mem_components (h : .normal name ∈ components path) : IsName name := by
  unfold components at h
  rcases hlead : splitLead path with ⟨lead, body⟩
  rw [hlead] at h
  rcases List.mem_append.mp h with hfirst | hbody
  · split_ifs at hfirst <;> simp at hfirst
  · obtain ⟨part, hpart, hname⟩ := List.mem_filterMap.mp hbody
    unfold component? at hname
    split_ifs at hname with hskip hparent
    · cases hname
    · obtain rfl := Component.normal.inj (Option.some.inj hname)
      exact ⟨fun h => hskip (.inl h), Text.not_mem_of_mem_splitOn hpart⟩

lemma isName_of_normalizeComponents {cs : List Component}
    (h : normalizeComponents path names cs = .ok rest) (hnames : ∀ name ∈ names, IsName name)
    (hcs : ∀ name, .normal name ∈ cs → IsName name) : ∀ name ∈ rest, IsName name := by
  induction cs generalizing names with
  | nil =>
    obtain rfl := Except.ok.inj h
    exact hnames
  | cons c cs ih =>
    have hcs' : ∀ name, .normal name ∈ cs → IsName name :=
      fun name hmem => hcs name (List.mem_cons_of_mem _ hmem)
    cases c with
    | rootDir => exact ih h hnames hcs'
    | curDir => exact ih h hnames hcs'
    | parentDir =>
      simp only [normalizeComponents] at h
      split_ifs at h
      exact ih h (fun name hmem => hnames name ((List.dropLast_subset _) hmem)) hcs'
    | normal name =>
      simp only [normalizeComponents] at h
      split_ifs at h
      refine ih h (fun n hmem => ?_) hcs'
      rcases List.mem_append.mp hmem with hmem | hmem
      · exact hnames n hmem
      · obtain rfl := List.mem_singleton.mp hmem
        exact hcs n List.mem_cons_self

theorem isNormal_of_normalizePath (h : normalizePath path = .ok p) : IsNormal p := by
  unfold normalizePath at h
  simp only at h
  split_ifs at h with hroot
  · obtain rfl := Except.ok.inj h
    exact isNormal_root
  · split at h
    · cases h
    · obtain rfl := Except.ok.inj h
      exact isNormal_root
    · rename_i names hne hnames
      obtain rfl := Except.ok.inj h
      refine ⟨names, ?_, ?_⟩
      · exact isName_of_normalizeComponents hnames (by simp) fun _ => isName_of_mem_components
      · rw [ofNames_of_ne_nil (by simpa using hne), cons_intercalate (by simpa using hne)]

/-! ### Parents -/

@[simp] lemma parentOf_root : parentOf root = none := rfl

/-- A path that has a parent is its parent's slash and a last part. -/
lemma exists_of_parentOf (h : parentOf p = some q) :
    ∃ a b, p = a ++ '/' :: b ∧ '/' ∉ b ∧ q = if a = [] then root else a := by
  unfold parentOf at h
  split_ifs at h
  by_cases hmem : '/' ∈ p
  · obtain ⟨a, b, rfl, hb⟩ := Text.exists_append_cons_of_mem hmem
    refine ⟨a, b, rfl, hb, ?_⟩
    rw [Text.rfind_append_cons hb] at h
    cases a with
    | nil => exact (Option.some.inj h).symm
    | cons c a => simpa using h.symm
  · simp [Text.rfind_eq_none hmem] at h

lemma length_lt_of_parentOf (h : parentOf p = some q) : q.length < p.length := by
  obtain ⟨a, b, rfl, _, rfl⟩ := exists_of_parentOf h
  cases a with
  | nil =>
    have hb : b ≠ [] := by
      rintro rfl
      cases h
    have hpos : 0 < b.length := List.length_pos_of_ne_nil hb
    simp [root]
    omega
  | cons c a => simp

lemma parentOf_append_cons {a b : Text} (hb : '/' ∉ b) (hne : a ++ '/' :: b ≠ root) :
    parentOf (a ++ '/' :: b) = some (if a = [] then root else a) := by
  rw [parentOf, if_neg hne, Text.rfind_append_cons hb]
  cases a with
  | nil => rfl
  | cons c a => simp

lemma ofNames_concat (names : List Text) (last : Text) :
    ofNames (names ++ [last]) = slashed names ++ '/' :: last := by
  simp [ofNames_of_ne_nil]

lemma slashed_append_ne_root (hname : name ≠ []) : slashed names ++ '/' :: name ≠ root := by
  intro h
  have hlen := congrArg List.length h
  have hpos : 0 < name.length := List.length_pos_of_ne_nil hname
  simp [root] at hlen
  omega

lemma parentOf_ofNames (hname : IsName name) :
    parentOf (ofNames (names ++ [name])) = some (ofNames names) := by
  rw [ofNames_concat, parentOf_append_cons hname.2 (slashed_append_ne_root hname.1)]
  cases names <;> simp [ofNames]

/-- A normalised path is the root or has a normalised parent. -/
lemma IsNormal.eq_root_or_parentOf (h : IsNormal p) :
    p = root ∨ ∃ q, parentOf p = some q ∧ IsNormal q := by
  obtain ⟨names, hnames, rfl⟩ := h
  cases names using List.reverseRecOn with
  | nil => exact .inl rfl
  | append_singleton names name =>
    refine .inr ⟨ofNames names, parentOf_ofNames (hnames name (by simp)), names, ?_, rfl⟩
    exact fun n hmem => hnames n (List.mem_append_left _ hmem)

end AmlaSandbox.Vfs
