import AmlaSandbox.Shell.Glob
import AmlaSandbox.Text.Basic
import AmlaSandbox.Vfs.BottomUp

/-!
# Path expansion

A pattern is expanded segment by segment. The paths on the way are texts, which every lookup
normalises anew, while the meaning of a pattern goes from directory to directory.
-/

namespace AmlaSandbox.Shell

open Text Vfs

/-! ### The expansion -/

def joinPath (base segment : Text) : Text :=
  if base = root then '/' :: segment else base ++ '/' :: segment

def expandGlobRecursive (vfs : Vfs) : Text → List Text → List Text
  | base, [] => [base]
  | base, segment :: remaining =>
    if isGlobPattern segment then
      match vfs.listDir base with
      | .error _ => []
      | .ok entries => entries.flatMap fun entry =>
        if globMatch segment entry.name then
          let matchedPath := joinPath base entry.name
          if remaining = [] then [matchedPath]
          else if vfs.isDir matchedPath then expandGlobRecursive vfs matchedPath remaining
          else []
        else []
    else
      let nextPath := joinPath base segment
      if vfs.pathExists nextPath then expandGlobRecursive vfs nextPath remaining else []

/-- A path as it is seen from the working directory. -/
def relativeTo (cwd path : Text) : Text :=
  let cwdPrefix := if cwd.getLast? = some '/' then cwd else cwd ++ ['/']
  if cwdPrefix <+: path then path.drop cwdPrefix.length
  else if path = cwd then ['.']
  else path

def isAbsolute (pattern : Text) : Bool := pattern.head? = some '/'

def expandGlob (vfs : Vfs) (cwd pattern : Text) : List Text :=
  if isGlobPattern pattern then
    let segments := parts pattern
    if segments = [] then [pattern]
    else
      let base := if isAbsolute pattern then root else cwd
      let paths := expandGlobRecursive vfs base segments
      let paths := if isAbsolute pattern then paths else paths.map (relativeTo cwd)
      let paths := paths.insertionSort (· ≤ ·)
      if paths = [] then [pattern] else paths
  else [pattern]

/-! ### The meaning of a pattern -/

/-- What a segment denotes as a literal: an escaped character stands for itself. -/
def literal : Text → Text
  | '\\' :: c :: rest => c :: literal rest
  | c :: rest => c :: literal rest
  | [] => []

/-- From a directory along a component of a path. -/
inductive Goes : List Text → Text → List Text → Prop
  | here {dir : List Text} : Goes dir ['.'] dir
  | up {dir : List Text} {name : Text} : Goes (dir ++ [name]) ['.', '.'] dir
  | name {dir : List Text} {name : Text} : IsComponent name → Goes dir name (dir ++ [name])

/-- A component that a segment stands for: an entry that it matches, or its literal. -/
def StandsFor (segment component : Text) : Prop :=
  if isGlobPattern segment then IsComponent component ∧ globMatch segment component
  else component = literal segment

/-- The components lead from a directory to an entry, and match the segments one by one. -/
inductive Leads (vfs : Vfs) : List Text → List Text → List Text → Prop
  | nil {dir : List Text} : vfs.containsKey (ofNames dir) → Leads vfs dir [] []
  | cons {dir dir' : List Text} {segment component : Text} {segments components : List Text}
      {permission : Permission} : vfs.get (ofNames dir) = some (.directory permission) →
      StandsFor segment component → Goes dir component dir' → Leads vfs dir' segments components →
      Leads vfs dir (segment :: segments) (component :: components)

/-- Where a pattern starts: at the root, or in the working directory. -/
structure StartsAt (cwd pattern : Text) (dir : List Text) : Prop where
  components : ∀ name ∈ dir, IsComponent name
  absolute : isAbsolute pattern = true → dir = []
  relative : isAbsolute pattern = false → Vfs.normalizePath cwd = .ok (ofNames dir)

/-- An existing path whose components match the segments of the pattern. -/
def MatchesPath (vfs : Vfs) (cwd pattern : Text) (components : List Text) : Prop :=
  ∃ dir, StartsAt cwd pattern dir ∧ Leads vfs dir (parts pattern) components

/-- The path is expressed as the pattern is. -/
def express (pattern : Text) (components : List Text) : Text :=
  if isAbsolute pattern then slashed components else ['/'].intercalate components

/-- All matching paths, in order, or the pattern if there is none. -/
structure IsExpansion (vfs : Vfs) (cwd pattern : Text) (result : List Text) : Prop where
  sorted : result.Pairwise (· < ·)
  mem_iff : (∃ components, MatchesPath vfs cwd pattern components) → ∀ path, path ∈ result ↔
    ∃ components, MatchesPath vfs cwd pattern components ∧ path = express pattern components
  no_match : (¬ ∃ components, MatchesPath vfs cwd pattern components) → result = [pattern]

/-! ### Texts and directories -/

variable {vfs : Vfs} {base front cwd pattern path segment name component : Text}
  {dir dir' segments components : List Text}

lemma normalizeComponents_append (names : List Text) (rest more : List Component) :
    normalizeComponents path names (rest ++ more) =
      (normalizeComponents path names rest).bind fun names' =>
        normalizeComponents path names' more := by
  induction rest generalizing names with
  | nil => rfl
  | cons c rest ih =>
    cases c with
    | rootDir => exact ih names
    | curDir => exact ih names
    | parentDir =>
      simp only [List.cons_append, normalizeComponents]
      split_ifs
      · rfl
      · exact ih _
    | normal name =>
      simp only [List.cons_append, normalizeComponents]
      split_ifs
      · rfl
      · exact ih _

/-- The path is for the errors only. -/
lemma normalizeComponents_congr {rest : List Component} {names names' : List Text}
    (h : normalizeComponents path names rest = .ok names') (path' : Text) :
    normalizeComponents path' names rest = .ok names' := by
  induction rest generalizing names with
  | nil => exact h
  | cons c rest ih =>
    cases c with
    | rootDir => exact ih h
    | curDir => exact ih h
    | parentDir =>
      simp only [normalizeComponents] at h ⊢
      split_ifs at h ⊢
      exact ih h
    | normal name =>
      simp only [normalizeComponents] at h ⊢
      split_ifs at h ⊢
      exact ih h

/-- A component of a path goes from directory to directory. -/
lemma normalizeComponents_iff (hne : component ≠ []) (hslash : '/' ∉ component) :
    normalizeComponents path dir (component? component).toList = .ok dir' ↔
      Goes dir component dir' := by
  unfold component?
  constructor
  · intro h
    split_ifs at h with hskip hparent
    · obtain rfl := hskip.resolve_left hne
      obtain rfl := Except.ok.inj h
      exact .here
    · subst hparent
      simp only [Option.toList_some, normalizeComponents] at h
      split_ifs at h with hroot
      obtain rfl := Except.ok.inj h
      obtain ⟨above, last, rfl⟩ := (List.eq_nil_or_concat' dir).resolve_left hroot
      rw [List.dropLast_concat]
      exact .up
    · simp only [Option.toList_some, normalizeComponents] at h
      split_ifs at h with hnul
      obtain rfl := Except.ok.inj h
      rw [not_or] at hskip
      exact .name (isComponent_iff.mpr ⟨hne, hskip.2, hparent, hslash, hnul⟩)
  · intro h
    cases h with
    | here => rfl
    | up => simp [normalizeComponents]
    | name hname =>
      obtain ⟨hne, hdot, hdots, -, hnul⟩ := isComponent_iff.mp hname
      rw [if_neg (by simp [hne, hdot]), if_neg hdots]
      simp [normalizeComponents, hnul]

/-- The text before the slash of what is looked up in a directory. -/
def frontOf (base : Text) : Text := if base = root then [] else base

lemma joinPath_eq : joinPath base segment = frontOf base ++ '/' :: segment := by
  unfold joinPath frontOf
  split_ifs <;> rfl

/-- The text stands for the directory, and what is behind it is found from there. -/
structure At (base : Text) (dir : List Text) : Prop where
  components : ∀ name ∈ dir, IsComponent name
  resolves : Vfs.normalizePath base = .ok (ofNames dir)
  head : ∀ c ∈ (frontOf base).head?, c = '/'
  behind : ∀ path rest, normalizeComponents path [] (Vfs.components (frontOf base ++ '/' :: rest)) =
    normalizeComponents path dir ((rest.splitOn '/').filterMap component?)

/-- The text does not end in white space. -/
def EndsPlain (text : Text) : Prop := text.rdropWhile isWhitespace = text

instance (text : Text) : Decidable (EndsPlain text) := inferInstanceAs (Decidable (_ = _))

lemma endsPlain_concat {c : Char} : EndsPlain (segment ++ [c]) ↔ isWhitespace c = false := by
  rw [EndsPlain]
  cases hwhite : isWhitespace c with
  | true =>
    simp only [Bool.true_eq_false, iff_false]
    intro hplain
    rw [List.rdropWhile_concat_pos _ _ _ hwhite] at hplain
    have hlen := (List.rdropWhile_prefix isWhitespace segment).length_le
    rw [hplain, List.length_append, List.length_singleton] at hlen
    omega
  | false => simp [List.rdropWhile_concat_neg _ _ _ (by simp [hwhite] : ¬ isWhitespace c = true)]

lemma endsPlain_of_ofNames (h : EndsPlain (ofNames (dir ++ [name]))) : EndsPlain name := by
  cases name using List.reverseRecOn with
  | nil => rfl
  | append_singleton name last =>
    rw [ofNames_concat, ← List.cons_append, ← List.append_assoc, endsPlain_concat] at h
    exact endsPlain_concat.mpr h

lemma normalizePath_eq_ok (hroot : ¬ (path.trim = [] ∨ path.trim = root)) {p : Text} :
    Vfs.normalizePath path = .ok p ↔ ∃ names,
      normalizeComponents path.trim [] (Vfs.components path.trim) = .ok names ∧
        p = ofNames names := by
  simp only [Vfs.normalizePath, if_neg hroot]
  constructor
  · exact ofNames_eq_of_match
  · rintro ⟨names, hnames, rfl⟩
    rw [hnames]
    cases names with
    | nil => rfl
    | cons name names =>
      rw [ofNames_of_ne_nil (by simp), ← cons_intercalate (by simp)]

lemma append_slash_ne_root (hne : segment ≠ []) :
    ¬ (front ++ '/' :: segment = [] ∨ front ++ '/' :: segment = root) := by
  rintro (hnil | hroot)
  · simp at hnil
  · have hlen := congrArg List.length hroot
    have hpos := List.length_pos_of_ne_nil hne
    simp only [root, List.length_append, List.length_cons, List.length_nil] at hlen
    omega

/-- Where a path behind a front leads. -/
lemma normalizePath_front (hfront : ∀ c ∈ front.head?, c = '/') (hne : segment ≠ [])
    (hplain : EndsPlain segment) {p : Text} :
    Vfs.normalizePath (front ++ '/' :: segment) = .ok p ↔ ∃ names,
      normalizeComponents (front ++ '/' :: segment) []
        (Vfs.components (front ++ '/' :: segment)) = .ok names ∧ p = ofNames names := by
  have htrim : (front ++ '/' :: segment).trim = front ++ '/' :: segment := by
    rw [trim_front hfront, hplain]
  rw [normalizePath_eq_ok (by rw [htrim]; exact append_slash_ne_root hne), htrim]

lemma frontOf_joinPath (hne : segment ≠ []) :
    frontOf (joinPath base segment) = joinPath base segment := by
  rw [frontOf, if_neg]
  rw [joinPath_eq]
  intro heq
  have hlen := congrArg List.length heq
  have hpos := List.length_pos_of_ne_nil hne
  simp only [root, List.length_append, List.length_cons, List.length_nil] at hlen
  omega

lemma filterMap_splitOn (hslash : '/' ∉ segment) :
    (segment.splitOn '/').filterMap component? = (component? segment).toList := by
  rw [List.splitOn_eq_singleton hslash]
  cases h : component? segment <;> simp [h]

/-- Nothing is behind the last name in the text of the working directory. -/
structure PlainCwd (cwd : Text) : Prop where
  endsPlain : EndsPlain cwd
  noSlash : cwd = root ∨ cwd.getLast? ≠ some '/'

lemma head_of_isAbsolute (habsolute : isAbsolute path = true) : ∀ c ∈ path.head?, c = '/' := by
  rw [of_decide_eq_true habsolute]
  exact fun c hc => (Option.some.inj hc).symm

/-- The text of a working directory other than the root ends in a name. -/
lemma PlainCwd.exists_append (h : PlainCwd cwd) (habsolute : isAbsolute cwd = true)
    (hlast : cwd.getLast? ≠ some '/') : ∃ front name, name ≠ [] ∧ (∀ c ∈ front.head?, c = '/') ∧
      EndsPlain name ∧ cwd = front ++ '/' :: name := by
  obtain ⟨body, rfl⟩ : ∃ body, cwd = '/' :: body :=
    List.head?_eq_some_iff.mp (of_decide_eq_true habsolute)
  obtain ⟨front, name, heq, hname⟩ := exists_append_cons_of_mem
    (show '/' ∈ '/' :: body from List.mem_cons_self)
  have hne : name ≠ [] := by
    rintro rfl
    rw [heq, List.getLast?_concat] at hlast
    exact hlast rfl
  refine ⟨front, name, hne, ?_, ?_, heq⟩
  · intro c hc
    obtain ⟨rest, rfl⟩ := List.head?_eq_some_iff.mp hc
    exact (List.cons.inj heq).1.symm
  · have hcwd := h.endsPlain
    obtain ⟨name, last, rfl⟩ := (List.eq_nil_or_concat' name).resolve_left hne
    rw [heq, ← List.cons_append, ← List.append_assoc, endsPlain_concat] at hcwd
    exact endsPlain_concat.mpr hcwd

/-- The components behind a slash. -/
lemma components_append_slash (habsolute : isAbsolute front = true) (rest : Text) :
    Vfs.components (front ++ '/' :: rest) =
      Vfs.components front ++ (rest.splitOn '/').filterMap component? := by
  obtain ⟨body, rfl⟩ : ∃ body, front = '/' :: body :=
    List.head?_eq_some_iff.mp (of_decide_eq_true habsolute)
  simp only [Vfs.components, List.cons_append, splitLead_slash]
  rw [List.splitOn_append_cons_self, List.filterMap_append]
  rfl

namespace At

/-- What a component is looked up as. -/
lemma normalizePath_joinPath (h : At base dir) (hne : segment ≠ []) (hslash : '/' ∉ segment)
    (hplain : EndsPlain segment) {p : Text} :
    Vfs.normalizePath (joinPath base segment) = .ok p ↔ ∃ dir', Goes dir segment dir' ∧
      p = ofNames dir' := by
  rw [joinPath_eq, normalizePath_front h.head hne hplain, h.behind, filterMap_splitOn hslash]
  simp only [normalizeComponents_iff hne hslash]

/-- The text of a component stands for the directory that it leads to. -/
lemma goes (h : At base dir) (hne : segment ≠ []) (hslash : '/' ∉ segment)
    (hplain : EndsPlain segment) (hgoes : Goes dir segment dir') :
    At (joinPath base segment) dir' where
  components := by
    cases hgoes with
    | here => exact h.components
    | up => exact fun name hname => h.components name (List.mem_append_left _ hname)
    | name hcomponent =>
      intro name hname
      obtain hname | hname := List.mem_append.mp hname
      · exact h.components name hname
      · rwa [List.mem_singleton.mp hname]
  resolves := (h.normalizePath_joinPath hne hslash hplain).mpr ⟨dir', hgoes, rfl⟩
  head := by
    rw [frontOf_joinPath hne, joinPath_eq]
    intro c hc
    cases hfront : frontOf base with
    | nil =>
      rw [hfront] at hc
      exact (Option.some.inj hc).symm
    | cons d front =>
      rw [hfront] at hc
      exact h.head c (by rw [hfront]; exact hc)
  behind := by
    intro path rest
    rw [frontOf_joinPath hne, joinPath_eq, List.append_assoc, List.cons_append, h.behind,
      List.splitOn_append_cons_self_of_not_mem hslash, List.filterMap_cons]
    have hstep : normalizeComponents path dir (component? segment).toList = .ok dir' :=
      (normalizeComponents_iff hne hslash).mpr hgoes
    have happend : normalizeComponents path dir ((component? segment).toList ++ _) = _ :=
      normalizeComponents_append dir (component? segment).toList
        ((rest.splitOn '/').filterMap component?)
    rw [hstep] at happend
    cases hcomponent : component? segment with
    | none =>
      rw [hcomponent] at happend
      exact happend
    | some c =>
      rw [hcomponent] at happend
      exact happend

lemma atRoot : At root [] where
  components := by simp
  resolves := by decide
  head := by simp [frontOf]
  behind := by
    intro path rest
    rw [frontOf, if_pos rfl]
    rfl

/-- A working directory. -/
lemma ofCwd (habsolute : isAbsolute cwd = true) (h : PlainCwd cwd)
    (hcwd : Vfs.normalizePath cwd = .ok path) : ∃ dir, At cwd dir := by
  obtain rfl | hlast := h.noSlash
  · exact ⟨[], atRoot⟩
  · obtain ⟨front, name, hne, hfront, hplain, heq⟩ := h.exists_append habsolute hlast
    have hroot : cwd ≠ root := by
      rintro rfl
      exact hlast rfl
    obtain ⟨dir, hcomponents, rfl⟩ : ∃ names,
        normalizeComponents cwd [] (Vfs.components cwd) = .ok names ∧ path = ofNames names := by
      rw [heq] at hcwd ⊢
      exact (normalizePath_front hfront hne hplain).mp hcwd
    refine ⟨dir, ?_, hcwd, ?_, ?_⟩
    · exact isComponent_of_normalizeComponents hcomponents (by simp)
        fun _ => component_of_mem_components
    · rw [frontOf, if_neg hroot]
      exact head_of_isAbsolute habsolute
    · intro path rest
      rw [frontOf, if_neg hroot, components_append_slash habsolute, normalizeComponents_append,
        normalizeComponents_congr hcomponents path]
      rfl

end At

/-- Nothing is behind a working directory that is not a path. -/
lemma pathExists_of_error (habsolute : isAbsolute cwd = true) (h : PlainCwd cwd) {e : VfsError}
    (hcwd : Vfs.normalizePath cwd = .error e) : vfs.pathExists (joinPath cwd segment) = false := by
  obtain rfl | hlast := h.noSlash
  · cases hcwd
  · obtain ⟨front, name, hne, hfront, hplain, heq⟩ := h.exists_append habsolute hlast
    have hroot : cwd ≠ root := by
      rintro rfl
      exact hlast rfl
    rw [pathExists, joinPath_eq, frontOf, if_neg hroot]
    cases hpath : Vfs.normalizePath (cwd ++ '/' :: segment) with
    | error e => rfl
    | ok p =>
      have htrim := trim_front (head_of_isAbsolute habsolute) segment
      have hlong : ¬ (cwd ++ '/' :: segment.rdropWhile isWhitespace = [] ∨
          cwd ++ '/' :: segment.rdropWhile isWhitespace = root) := by
        rw [heq, List.append_assoc, List.cons_append]
        exact append_slash_ne_root (by simp)
      rw [normalizePath_eq_ok (by rwa [htrim]), htrim, components_append_slash habsolute,
        normalizeComponents_append] at hpath
      obtain ⟨names, hnames, -⟩ := hpath
      cases hdir : normalizeComponents (cwd ++ '/' :: segment.rdropWhile isWhitespace) []
          (Vfs.components cwd) with
      | error e =>
        rw [hdir] at hnames
        cases hnames
      | ok dir =>
        have hok : Vfs.normalizePath cwd = .ok (ofNames dir) := by
          have hdir' := normalizeComponents_congr hdir cwd
          rw [heq] at hdir' ⊢
          exact (normalizePath_front hfront hne hplain).mpr ⟨dir, hdir', rfl⟩
        rw [hcwd] at hok
        cases hok

/-! ### Listings -/

/-- The entries of a directory. -/
lemma exists_listDir_ofNames (htree : NormalTree vfs) (hnames : ∀ name ∈ dir, IsName name)
    (hbase : Vfs.normalizePath base = .ok (ofNames dir)) {permission : Permission}
    (hdir : vfs.get (ofNames dir) = some (.directory permission)) :
    ∃ entries, vfs.listDir base = .ok entries ∧ ∀ name, name ∈ entries.map (·.name) ↔
      IsComponent name ∧ vfs.containsKey (ofNames (dir ++ [name])) := by
  have hlist : vfs.listDir base = .ok ((vfs.entries.entries.filterMap
      (directChild (ofNames dir) (dirPrefix (ofNames dir)))).insertionSort
        fun a b => a.name ≤ b.name) := by
    simp only [listDir, hbase, bind, Except.bind, hdir]
    rfl
  refine ⟨_, hlist, fun name => ?_⟩
  rw [((List.perm_insertionSort _ _).map _).mem_iff, List.mem_map]
  simp only [List.mem_filterMap]
  constructor
  · rintro ⟨child, ⟨entry, hentry, hchild⟩, rfl⟩
    obtain ⟨hname, hpath⟩ := directChild_eq_some hchild
    rw [dirPrefix_ofNames hnames, List.append_assoc, List.singleton_append, ← ofNames_concat]
      at hpath
    have hkey : vfs.containsKey (ofNames (dir ++ [child.name])) := by
      rw [← hpath, containsKey, mem_entries_iff.mp hentry]
      rfl
    obtain ⟨raw, hraw⟩ := htree.keys _ hkey
    obtain ⟨names, hcomponents, heq⟩ := exists_names_of_normalizePath hraw
    have hparts : ∀ name ∈ dir ++ [child.name], IsName name := by
      intro name hmem
      obtain hmem | hmem := List.mem_append.mp hmem
      · exact hnames name hmem
      · rwa [List.mem_singleton.mp hmem]
    rw [← ofNames_inj hparts (fun name hmem => (hcomponents name hmem).isName) heq] at hcomponents
    exact ⟨hcomponents _ (by simp), hkey⟩
  · rintro ⟨hname, hkey⟩
    obtain ⟨entry, hentry⟩ := Option.isSome_iff_exists.mp hkey
    obtain ⟨child, hchild, heq⟩ := exists_directChild hnames hname.isName entry
    exact ⟨child, ⟨_, mem_entries_iff.mpr hentry, hchild⟩, heq⟩

lemma exists_listDir (htree : NormalTree vfs) (h : At base dir) {permission : Permission}
    (hdir : vfs.get (ofNames dir) = some (.directory permission)) :
    ∃ entries, vfs.listDir base = .ok entries ∧ ∀ name, name ∈ entries.map (·.name) ↔
      IsComponent name ∧ vfs.containsKey (ofNames (dir ++ [name])) :=
  exists_listDir_ofNames htree (fun name hname => (h.components name hname).isName) h.resolves hdir

lemma listDir_eq_error (h : At base dir)
    (hdir : ∀ permission, vfs.get (ofNames dir) ≠ some (.directory permission)) :
    ∃ e, vfs.listDir base = .error e := by
  simp only [listDir, h.resolves, bind, Except.bind]
  cases hget : vfs.get (ofNames dir) with
  | none => exact ⟨_, rfl⟩
  | some entry =>
    cases entry with
    | file content permission => exact ⟨_, rfl⟩
    | directory permission => exact absurd hget (hdir permission)

end AmlaSandbox.Shell
