import AmlaSandbox.Shell.Expand

/-!
# The paths that match a pattern

What the expansion finds is compared with the meaning of the pattern, from the first segment to
the last, wherever the texts that are looked up are the paths that are meant.
-/

namespace AmlaSandbox.Shell

open Text Vfs

variable {vfs : Vfs} {base cwd pattern path segment name component : Text}
  {dir dir' segments components : List Text}

/-! ### Plain patterns -/

/-- A segment that stays in a directory or goes up from it. -/
def IsStep (segment : Text) : Prop := segment = ['.'] ∨ segment = ['.', '.']

/-- The next segment is not `.` or `..`, unless it is taken from a directory. -/
def StepsFromDir (vfs : Vfs) (dir segments : List Text) : Prop :=
  ∀ step ∈ segments.head?, IsStep step →
    ∃ permission, vfs.get (ofNames dir) = some (.directory permission)

/-- From a directory on, the paths that are looked up as texts are those that are meant: literals
have no escapes, neither they nor the names that are passed end in white space, and no `.` or `..`
is behind a file. -/
inductive PlainFrom (vfs : Vfs) : List Text → List Text → Prop
  | nil {dir : List Text} : PlainFrom vfs dir []
  | plain {dir segments : List Text} {segment : Text} : isGlobPattern segment = false →
      literal segment = segment → EndsPlain segment →
      (∀ dir', Goes dir segment dir' → vfs.containsKey (ofNames dir') →
        StepsFromDir vfs dir' segments) →
      (∀ dir', Goes dir segment dir' → vfs.containsKey (ofNames dir') →
        PlainFrom vfs dir' segments) →
      PlainFrom vfs dir (segment :: segments)
  | glob {dir segments : List Text} {segment : Text} : isGlobPattern segment = true →
      (segments ≠ [] → ∀ name, IsComponent name → vfs.containsKey (ofNames (dir ++ [name])) →
        globMatch segment name → EndsPlain name) →
      (∀ name permission, IsComponent name →
        vfs.get (ofNames (dir ++ [name])) = some (.directory permission) →
        globMatch segment name → PlainFrom vfs (dir ++ [name]) segments) →
      PlainFrom vfs dir (segment :: segments)

structure PlainPattern (vfs : Vfs) (cwd pattern : Text) : Prop where
  segments : ∀ dir, StartsAt cwd pattern dir → PlainFrom vfs dir (parts pattern)
  start : isAbsolute pattern = false → ∀ dir, StartsAt cwd pattern dir →
    StepsFromDir vfs dir (parts pattern)
  cwd : isAbsolute pattern = false → PlainCwd cwd

/-! ### The recursion -/

/-- What the expansion goes on from. -/
structure Ready (vfs : Vfs) (dir segments : List Text) : Prop where
  exists_entry : segments = [] → vfs.containsKey (ofNames dir)
  steps : StepsFromDir vfs dir segments

lemma PlainFrom.of_glob (h : PlainFrom vfs dir (segment :: segments))
    (hglob : isGlobPattern segment = true) :
    (segments ≠ [] → ∀ name, IsComponent name → vfs.containsKey (ofNames (dir ++ [name])) →
        globMatch segment name → EndsPlain name) ∧
      ∀ name permission, IsComponent name →
        vfs.get (ofNames (dir ++ [name])) = some (.directory permission) →
        globMatch segment name → PlainFrom vfs (dir ++ [name]) segments := by
  cases h with
  | plain hliteral => simp [hglob] at hliteral
  | glob _ hnames hdirs => exact ⟨hnames, hdirs⟩

lemma PlainFrom.of_literal (h : PlainFrom vfs dir (segment :: segments))
    (hglob : isGlobPattern segment = false) :
    (literal segment = segment ∧ EndsPlain segment) ∧
      ∀ dir', Goes dir segment dir' → vfs.containsKey (ofNames dir') →
        StepsFromDir vfs dir' segments ∧ PlainFrom vfs dir' segments := by
  cases h with
  | plain _ hliteral hends hsteps hrest =>
    exact ⟨⟨hliteral, hends⟩, fun dir' hgoes hkey =>
      ⟨hsteps dir' hgoes hkey, hrest dir' hgoes hkey⟩⟩
  | glob hmark => simp [hglob] at hmark

/-- The parent of an entry is a directory. -/
lemma get_above (htree : NormalTree vfs) (hname : IsName name)
    (hkey : vfs.containsKey (ofNames (dir ++ [name]))) :
    ∃ permission, vfs.get (ofNames dir) = some (.directory permission) := by
  obtain ⟨entry, hentry⟩ := Option.isSome_iff_exists.mp hkey
  obtain ⟨d, hd, hisDir⟩ := htree.closed _ entry hentry _ (parentOf_ofNames hname)
  obtain ⟨permission, rfl⟩ := exists_directory hisDir
  exact ⟨permission, hd⟩

lemma containsKey_of_get {entry : Entry} (h : vfs.get path = some entry) :
    vfs.containsKey path := by
  rw [containsKey, h]
  rfl

/-- A literal is taken from a directory. -/
lemma directory_of_goes (htree : NormalTree vfs)
    (hsteps : StepsFromDir vfs dir (segment :: segments)) (hgoes : Goes dir segment dir')
    (hkey : vfs.containsKey (ofNames dir')) :
    ∃ permission, vfs.get (ofNames dir) = some (.directory permission) := by
  cases hgoes with
  | here => exact hsteps _ rfl (.inl rfl)
  | up => exact hsteps _ rfl (.inr rfl)
  | name hname => exact get_above htree hname.isName hkey

lemma goes_unique {dir₁ dir₂ : List Text} (hname : IsName component) (h : Goes dir component dir₁)
    (h' : Goes dir component dir₂) : dir₁ = dir₂ := by
  have hok : normalizeComponents [] dir _ = .ok dir₁ :=
    (normalizeComponents_iff hname.1 hname.2).mpr h
  have hok' : normalizeComponents [] dir _ = .ok dir₂ :=
    (normalizeComponents_iff hname.1 hname.2).mpr h'
  exact Except.ok.inj (hok.symm.trans hok')

lemma Leads.exists_entry (h : Leads vfs dir segments components) :
    vfs.containsKey (ofNames dir) := by
  cases h with
  | nil hkey => exact hkey
  | cons hdir _ _ _ =>
    rw [containsKey, hdir]
    rfl

/-- The text of a path below a base. -/
def pathOf (base : Text) (components : List Text) : Text :=
  if components = [] then base else frontOf base ++ slashed components

lemma pathOf_cons (hne : component ≠ []) :
    pathOf base (component :: components) = pathOf (joinPath base component) components := by
  rw [pathOf, if_neg (by simp), pathOf, frontOf_joinPath hne, joinPath_eq]
  split_ifs with hnil
  · rw [hnil]
    simp
  · simp

lemma pathExists_joinPath (h : At base dir) (hname : IsName segment) (hplain : EndsPlain segment) :
    vfs.pathExists (joinPath base segment) = true ↔
    ∃ dir', Goes dir segment dir' ∧ vfs.containsKey (ofNames dir') := by
  have hiff (p : Text) : Vfs.normalizePath (joinPath base segment) = .ok p ↔ _ :=
    h.normalizePath_joinPath hname.1 hname.2 hplain
  rw [pathExists]
  cases hnormal : Vfs.normalizePath (joinPath base segment) with
  | error e =>
    simp only [Bool.false_eq_true, false_iff]
    rintro ⟨dir', hgoes, -⟩
    have hok := (hiff _).mpr ⟨dir', hgoes, rfl⟩
    rw [hnormal] at hok
    cases hok
  | ok p =>
    obtain ⟨dir', hgoes, rfl⟩ := (hiff p).mp hnormal
    constructor
    · exact fun hkey => ⟨dir', hgoes, hkey⟩
    · rintro ⟨dir'', hgoes', hkey⟩
      rwa [goes_unique hname hgoes hgoes']

lemma isDir_joinPath (h : At base dir) (hname : IsName segment) (hplain : EndsPlain segment)
    (hgoes : Goes dir segment dir') :
    vfs.isDir (joinPath base segment) = true ↔
      ∃ permission, vfs.get (ofNames dir') = some (.directory permission) := by
  have hok := (h.normalizePath_joinPath hname.1 hname.2 hplain).mpr ⟨dir', hgoes, rfl⟩
  rw [isDir, hok]
  dsimp only
  cases hget : vfs.get (ofNames dir') with
  | none => simp
  | some entry => cases entry <;> simp [Entry.isDir]

/-- A path to which segments lead from a directory goes through what the first stands for. -/
lemma exists_leads_cons_iff (hne : ∀ component, StandsFor segment component → component ≠ []) :
    (∃ components, Leads vfs dir (segment :: segments) components ∧
        path = pathOf base components) ↔
      (∃ permission, vfs.get (ofNames dir) = some (.directory permission)) ∧
        ∃ component, StandsFor segment component ∧ ∃ dir', Goes dir component dir' ∧
          ∃ components, Leads vfs dir' segments components ∧
            path = pathOf (joinPath base component) components := by
  constructor
  · rintro ⟨_, hleads, rfl⟩
    cases hleads with
    | @cons _ dir' _ component _ components _ hdir hstands hgoes hleads =>
      exact ⟨⟨_, hdir⟩, component, hstands, dir', hgoes, components, hleads,
        pathOf_cons (hne component hstands)⟩
  · rintro ⟨⟨permission, hdir⟩, component, hstands, dir', hgoes, components, hleads, rfl⟩
    exact ⟨component :: components, .cons hdir hstands hgoes hleads,
      (pathOf_cons (hne component hstands)).symm⟩

/-- What is found behind a name that matches. -/
lemma mem_matched (path : Text) (h : At base dir) (hname : IsComponent name)
    (hkey : vfs.containsKey (ofNames (dir ++ [name])))
    (hends : segments ≠ [] → EndsPlain name)
    (hbehind : ∀ permission, vfs.get (ofNames (dir ++ [name])) = some (.directory permission) →
      At (joinPath base name) (dir ++ [name]) →
        (path ∈ expandGlobRecursive vfs (joinPath base name) segments ↔
          ∃ components, Leads vfs (dir ++ [name]) segments components ∧
            path = pathOf (joinPath base name) components)) :
    (path ∈ if segments = [] then [joinPath base name]
      else if vfs.isDir (joinPath base name) then
        expandGlobRecursive vfs (joinPath base name) segments
      else []) ↔
      ∃ components, Leads vfs (dir ++ [name]) segments components ∧
        path = pathOf (joinPath base name) components := by
  split_ifs with hlast hisDir
  · rw [hlast, List.mem_singleton]
    constructor
    · rintro rfl
      exact ⟨[], .nil hkey, rfl⟩
    · rintro ⟨_, hleads, rfl⟩
      cases hleads
      rfl
  · obtain ⟨permission, hdir⟩ :=
      (isDir_joinPath h hname.isName (hends hlast) (.name hname)).mp hisDir
    exact hbehind permission hdir
      (h.goes hname.isName.1 hname.noSlash (hends hlast) (.name hname))
  · simp only [List.not_mem_nil, false_iff]
    rintro ⟨_, hleads, -⟩
    apply hisDir
    rw [isDir_joinPath h hname.isName (hends hlast) (.name hname)]
    cases hleads with
    | nil _ => exact absurd rfl hlast
    | cons hdir _ _ _ => exact ⟨_, hdir⟩

/-- The paths that are found are those that the segments lead to. -/
lemma mem_expandGlobRecursive (htree : NormalTree vfs) (h : At base dir)
    (hnames : ∀ segment ∈ segments, IsName segment) (hplain : PlainFrom vfs dir segments)
    (hready : Ready vfs dir segments) :
    path ∈ expandGlobRecursive vfs base segments ↔
      ∃ components, Leads vfs dir segments components ∧ path = pathOf base components := by
  induction segments generalizing base dir path with
  | nil =>
    rw [expandGlobRecursive, List.mem_singleton]
    constructor
    · rintro rfl
      exact ⟨[], .nil (hready.exists_entry rfl), rfl⟩
    · rintro ⟨components, hleads, rfl⟩
      cases hleads
      rfl
  | cons segment segments ih =>
    obtain ⟨hsegment, hrest⟩ := List.forall_mem_cons.mp hnames
    rw [expandGlobRecursive]
    cases hglob : isGlobPattern segment with
    | false =>
      obtain ⟨⟨hliteral, hends⟩, hbehind⟩ := hplain.of_literal hglob
      have hstands (component : Text) : StandsFor segment component ↔ component = segment := by
        rw [StandsFor, hglob, if_neg (by simp), hliteral]
      have hexists : vfs.pathExists (joinPath base segment) = true ↔ _ :=
        pathExists_joinPath h hsegment hends
      rw [if_neg (by simp), exists_leads_cons_iff fun component hcomponent =>
        (hstands component).mp hcomponent ▸ hsegment.1]
      simp only [hstands, exists_eq_left]
      split_ifs with hpath
      · obtain ⟨dir', hgoes, hkey⟩ := hexists.mp hpath
        obtain ⟨permission, hdir⟩ := directory_of_goes htree hready.steps hgoes hkey
        obtain ⟨hsteps, hplain'⟩ := hbehind dir' hgoes hkey
        rw [ih (h.goes hsegment.1 hsegment.2 hends hgoes) hrest hplain' ⟨fun _ => hkey, hsteps⟩]
        constructor
        · exact fun hleads => ⟨⟨permission, hdir⟩, dir', hgoes, hleads⟩
        · rintro ⟨-, dir'', hgoes', hleads⟩
          rwa [goes_unique hsegment hgoes hgoes']
      · simp only [List.not_mem_nil, false_iff]
        rintro ⟨-, dir', hgoes, _, hleads, -⟩
        exact hpath (hexists.mpr ⟨dir', hgoes, hleads.exists_entry⟩)
    | true =>
      obtain ⟨hends, hbehind⟩ := hplain.of_glob hglob
      have hstands (component : Text) :
          StandsFor segment component ↔ IsComponent component ∧ globMatch segment component := by
        rw [StandsFor, hglob, if_pos rfl]
      rw [if_pos rfl, exists_leads_cons_iff fun component hcomponent =>
        ((hstands component).mp hcomponent).1.isName.1]
      simp only [hstands]
      by_cases hdir : ∃ permission, vfs.get (ofNames dir) = some (.directory permission)
      · obtain ⟨permission, hdir⟩ := hdir
        obtain ⟨entries, hlist, hentries⟩ := exists_listDir htree h hdir
        have hmatched (name : Text) (hname : IsComponent name) (hmatch : globMatch segment name)
            (hkey : vfs.containsKey (ofNames (dir ++ [name]))) :=
          mem_matched path h hname hkey (fun hlast => hends hlast name hname hkey hmatch)
            fun permission hdir hat => ih hat hrest (hbehind name permission hname hdir hmatch)
              ⟨fun _ => hkey, fun _ _ _ => ⟨permission, hdir⟩⟩
        rw [hlist]
        dsimp only
        rw [List.mem_flatMap]
        constructor
        · rintro ⟨entry, hmem, hpath⟩
          obtain ⟨hname, hkey⟩ := (hentries entry.name).mp (List.mem_map_of_mem hmem)
          by_cases hmatch : globMatch segment entry.name = true
          · rw [if_pos hmatch, hmatched _ hname hmatch hkey] at hpath
            exact ⟨⟨permission, hdir⟩, _, ⟨hname, hmatch⟩, _, .name hname, hpath⟩
          · rw [if_neg hmatch] at hpath
            cases hpath
        · rintro ⟨-, name, ⟨hname, hmatch⟩, dir', hgoes, hleads⟩
          obtain rfl := goes_unique hname.isName (.name hname) hgoes
          have hkey := hleads.choose_spec.1.exists_entry
          obtain ⟨entry, hmem, rfl⟩ := List.mem_map.mp ((hentries name).mpr ⟨hname, hkey⟩)
          refine ⟨entry, hmem, ?_⟩
          rw [if_pos hmatch]
          exact (hmatched _ hname hmatch hkey).mpr hleads
      · obtain ⟨e, herror⟩ := listDir_eq_error h (not_exists.mp hdir)
        rw [herror]
        exact iff_of_false List.not_mem_nil fun hleads => hdir hleads.1

/-- Each path that is found goes below the base, along names. -/
lemma exists_pathOf (hnames : ∀ segment ∈ segments, IsName segment)
    (h : path ∈ expandGlobRecursive vfs base segments) :
    ∃ components, (∀ component ∈ components, IsName component) ∧ path = pathOf base components := by
  induction segments generalizing base with
  | nil =>
    rw [expandGlobRecursive, List.mem_singleton] at h
    exact ⟨[], by simp, h⟩
  | cons segment segments ih =>
    obtain ⟨hsegment, hrest⟩ := List.forall_mem_cons.mp hnames
    have hstep (name : Text) (hname : IsName name)
        (h : path ∈ expandGlobRecursive vfs (joinPath base name) segments) :
        ∃ components, (∀ component ∈ components, IsName component) ∧
          path = pathOf base components := by
      obtain ⟨components, hcomponents, rfl⟩ := ih hrest h
      exact ⟨name :: components, List.forall_mem_cons.mpr ⟨hname, hcomponents⟩,
        (pathOf_cons hname.1).symm⟩
    rw [expandGlobRecursive] at h
    dsimp only at h
    by_cases hglob : isGlobPattern segment = true
    · rw [if_pos hglob] at h
      cases hlist : vfs.listDir base with
      | error e =>
        rw [hlist] at h
        cases h
      | ok entries =>
        rw [hlist] at h
        obtain ⟨entry, hentry, hpath⟩ := List.mem_flatMap.mp h
        refine hstep entry.name ((listDir_names hlist).1 entry hentry) ?_
        split_ifs at hpath with _ hlast _
        · rw [hlast]
          exact hpath
        · exact hpath
        · cases hpath
        · cases hpath
    · rw [if_neg hglob] at h
      split_ifs at h with hexists
      · exact hstep segment hsegment h
      · cases h

/-- Paths along different names are different. -/
lemma pathOf_cons_inj {name' : Text} {components' : List Text}
    (hnames : ∀ n ∈ name :: components, IsName n) (hnames' : ∀ n ∈ name' :: components', IsName n)
    (h : pathOf base (name :: components) = pathOf base (name' :: components')) :
    name :: components = name' :: components' := by
  rw [pathOf, pathOf, if_neg (by simp), if_neg (by simp)] at h
  apply ofNames_inj hnames hnames'
  rw [ofNames_of_ne_nil (by simp), ofNames_of_ne_nil (by simp)]
  exact List.append_cancel_left h

/-- No path is found twice. -/
lemma nodup_expandGlobRecursive (hnames : ∀ segment ∈ segments, IsName segment) :
    (expandGlobRecursive vfs base segments).Nodup := by
  induction segments generalizing base with
  | nil =>
    rw [expandGlobRecursive]
    exact List.nodup_singleton base
  | cons segment segments ih =>
    obtain ⟨-, hrest⟩ := List.forall_mem_cons.mp hnames
    rw [expandGlobRecursive]
    dsimp only
    by_cases hglob : isGlobPattern segment = true
    · rw [if_pos hglob]
      cases hlist : vfs.listDir base with
      | error e => exact List.nodup_nil
      | ok entries =>
        obtain ⟨hentries, hpairwise⟩ := listDir_names hlist
        -- what is found through an entry starts with its name
        have hfound : ∀ entry ∈ entries, ∀ path ∈ (if globMatch segment entry.name then
            if segments = [] then [joinPath base entry.name]
            else if vfs.isDir (joinPath base entry.name) then
              expandGlobRecursive vfs (joinPath base entry.name) segments
            else []
          else []), ∃ components, (∀ n ∈ entry.name :: components, IsName n) ∧
            path = pathOf base (entry.name :: components) := by
          intro entry hentry path hpath
          have hname := hentries entry hentry
          have hmem : path ∈ expandGlobRecursive vfs (joinPath base entry.name) segments := by
            split_ifs at hpath with _ hlast _
            · rw [hlast]
              exact hpath
            · exact hpath
            · cases hpath
            · cases hpath
          obtain ⟨components, hcomponents, rfl⟩ := exists_pathOf hrest hmem
          exact ⟨components, List.forall_mem_cons.mpr ⟨hname, hcomponents⟩,
            (pathOf_cons hname.1).symm⟩
        dsimp only
        rw [List.nodup_flatMap]
        constructor
        · intro entry _
          split_ifs
          · exact List.nodup_singleton _
          · exact ih hrest
          · exact List.nodup_nil
          · exact List.nodup_nil
        · refine hpairwise.imp_of_mem fun {a b} ha hb hne => ?_
          intro path hpath hpath'
          obtain ⟨components, hcomponents, rfl⟩ := hfound a ha path hpath
          obtain ⟨components', hcomponents', heq⟩ := hfound b hb _ hpath'
          exact hne (List.cons.inj (pathOf_cons_inj hcomponents hcomponents' heq)).1
    · rw [if_neg hglob]
      split_ifs with hexists
      · exact ih hrest
      · exact List.nodup_nil

/-! ### Patterns -/

lemma isGlobPattern_escape (c : Char) (rest : Text) :
    isGlobPattern ('\\' :: c :: rest) = isGlobPattern rest := by
  rw [isGlobPattern.eq_def]
  rfl

lemma isGlobPattern_cons {c : Char} (hescape : c ≠ '\\') (rest : Text) :
    isGlobPattern (c :: rest) =
      ((c = '*' ∨ c = '?') || (c = '[' ∧ rest ≠ []) || isGlobPattern rest) := by
  rw [isGlobPattern.eq_def]
  dsimp only
  rw [if_neg hescape]
  split_ifs <;> simp_all

/-- A metacharacter of a part is one of the whole. -/
lemma isGlobPattern_append {front : Text} (h : isGlobPattern front = true) (rest : Text) :
    isGlobPattern (front ++ rest) = true := by
  fun_induction isGlobPattern front with
  | case1 => cases h
  | case2 => cases h
  | case3 c front ih =>
    rw [List.cons_append, List.cons_append, isGlobPattern_escape]
    exact ih h
  | case4 c front hescape hmark => simp [isGlobPattern_cons hescape, hmark]
  | case5 c front hescape hmark hbracket =>
    rw [List.cons_append, isGlobPattern_cons hescape]
    simp [hbracket.1, hbracket.2]
  | case6 c front hescape hmark _ ih => simp [isGlobPattern_cons hescape, ih h]

/-- An escape does not reach over a slash into the next segment. -/
lemma isGlobPattern_slash (h : isGlobPattern segment = true) (front : Text) :
    isGlobPattern (front ++ '/' :: segment) = true := by
  fun_induction isGlobPattern front with
  | case1 => simp [isGlobPattern_cons (by decide : '/' ≠ '\\'), h]
  | case2 =>
    rw [List.singleton_append, isGlobPattern_escape]
    exact h
  | case3 c front ih =>
    rw [List.cons_append, List.cons_append, isGlobPattern_escape]
    exact ih
  | case4 c front hescape hmark => simp [isGlobPattern_cons hescape, hmark]
  | case5 c front hescape hmark hbracket =>
    rw [List.cons_append, isGlobPattern_cons hescape]
    simp [hbracket.1, hbracket.2]
  | case6 c front hescape hmark _ ih => simp [isGlobPattern_cons hescape, ih]

lemma isGlobPattern_of_segment (hmem : segment ∈ parts pattern)
    (h : isGlobPattern segment = true) : isGlobPattern pattern = true := by
  obtain ⟨front, back, hsplit⟩ := List.append_of_mem (List.mem_filter.mp hmem).1
  have hpattern : ['/'].intercalate (pattern.splitOn '/') = pattern := List.intercalate_splitOn '/'
  rw [hsplit, intercalate_append_cons] at hpattern
  rw [← hpattern]
  have hsegment := isGlobPattern_append h (back.flatMap (['/'] ++ ·))
  cases front using List.reverseRecOn with
  | nil => exact hsegment
  | append_singleton front last =>
    have hslash := isGlobPattern_slash hsegment (front.flatMap (· ++ ['/']) ++ last)
    simpa using hslash

lemma isName_of_mem_parts (h : segment ∈ parts pattern) : IsName segment := by
  obtain ⟨hmem, hne⟩ := List.mem_filter.mp h
  exact ⟨of_decide_eq_true hne, not_mem_of_mem_splitOn hmem⟩

/-- A path below the working directory. -/
lemma relativeTo_pathOf (hcwd : cwd = root ∨ cwd.getLast? ≠ some '/') (hne : components ≠ []) :
    relativeTo cwd (pathOf cwd components) = ['/'].intercalate components := by
  have hprefix :
      (if cwd.getLast? = some '/' then cwd else cwd ++ ['/']) = frontOf cwd ++ ['/'] := by
    obtain rfl | hlast := hcwd
    · rfl
    · rw [if_neg hlast, frontOf, if_neg]
      rintro rfl
      exact hlast rfl
  have hpath : pathOf cwd components = frontOf cwd ++ ['/'] ++ ['/'].intercalate components := by
    rw [pathOf, if_neg hne, ← cons_intercalate hne, List.append_assoc, List.singleton_append]
  rw [relativeTo, hprefix, hpath, if_pos (List.prefix_append _ _), List.drop_left]

/-- Without a root there is no directory, and nothing is found. -/
lemma expandGlobRecursive_eq_nil (hnone : ∀ dir permission,
      vfs.get (ofNames dir) ≠ some (.directory permission)) (h : At base dir)
    (hnames : ∀ segment ∈ segments, IsName segment) (hplain : PlainFrom vfs dir segments)
    (hglob : ∃ segment ∈ segments, isGlobPattern segment = true) :
    expandGlobRecursive vfs base segments = [] := by
  induction segments generalizing base dir with
  | nil => simp at hglob
  | cons segment segments ih =>
    obtain ⟨hsegment, hrest⟩ := List.forall_mem_cons.mp hnames
    rw [expandGlobRecursive]
    cases hmark : isGlobPattern segment with
    | true =>
      obtain ⟨e, herror⟩ := listDir_eq_error h (hnone dir)
      rw [if_pos rfl, herror]
    | false =>
      obtain ⟨⟨-, hends⟩, hbehind⟩ := hplain.of_literal hmark
      rw [if_neg (by simp)]
      dsimp only
      split_ifs with hexists
      · obtain ⟨dir', hgoes, hkey⟩ := (pathExists_joinPath h hsegment hends).mp hexists
        refine ih (h.goes hsegment.1 hsegment.2 hends hgoes) hrest (hbehind dir' hgoes hkey).2 ?_
        obtain ⟨glob, hmem, hglob⟩ := hglob
        obtain rfl | hmem := List.mem_cons.mp hmem
        · rw [hmark] at hglob
          cases hglob
        · exact ⟨glob, hmem, hglob⟩
      · rfl

/-- Every directory is below the root. -/
lemma get_root (htree : NormalTree vfs) {permission : Permission}
    (hdir : vfs.get path = some (.directory permission)) :
    ∃ permission, vfs.get root = some (.directory permission) := by
  obtain ⟨raw, hraw⟩ := htree.keys path (containsKey_of_get hdir)
  obtain ⟨names, hnames, rfl⟩ := exists_names_of_normalizePath hraw
  induction names using List.reverseRecOn generalizing permission raw with
  | nil => exact ⟨permission, hdir⟩
  | append_singleton names name ih =>
    obtain ⟨permission', habove⟩ :=
      get_above htree (hnames name (by simp)).isName (containsKey_of_get hdir)
    obtain ⟨raw', hraw'⟩ := htree.keys _ (containsKey_of_get habove)
    exact ih raw' (fun n hn => hnames n (List.mem_append_left _ hn)) habove hraw'

/-- Behind a working directory that is not a path nothing is found. -/
lemma expandGlobRecursive_of_error (habsolute : isAbsolute cwd = true) (h : PlainCwd cwd)
    {e : VfsError} (hcwd : Vfs.normalizePath cwd = .error e) :
    expandGlobRecursive vfs cwd (segment :: segments) = [] := by
  have herror : vfs.listDir cwd = .error e := by
    rw [listDir, hcwd]
    rfl
  rw [expandGlobRecursive, herror]
  dsimp only
  rw [pathExists_of_error habsolute h hcwd, if_neg Bool.false_ne_true, ite_self]

lemma Leads.ne_nil (h : Leads vfs dir segments components) (hne : segments ≠ []) :
    components ≠ [] := by
  cases h with
  | nil => exact absurd rfl hne
  | cons => simp

lemma Leads.directory (h : Leads vfs dir segments components) (hne : segments ≠ []) :
    ∃ permission, vfs.get (ofNames dir) = some (.directory permission) := by
  cases h with
  | nil => exact absurd rfl hne
  | cons hdir => exact ⟨_, hdir⟩

/-! ### The two kinds of patterns -/

lemma isName_parts (pattern : Text) : ∀ segment ∈ parts pattern, IsName segment :=
  fun _ => isName_of_mem_parts

lemma startsAt_absolute (hpattern : isAbsolute pattern = true) :
    StartsAt cwd pattern dir ↔ dir = [] := by
  constructor
  · exact fun h => h.absolute hpattern
  · rintro rfl
    exact ⟨by simp, fun _ => rfl, fun hrelative => by simp [hpattern] at hrelative⟩

/-- An absolute pattern finds the paths that match it. -/
lemma mem_found_absolute (htree : NormalTree vfs) (hpattern : isAbsolute pattern = true)
    (hglob : ∃ segment ∈ parts pattern, isGlobPattern segment = true)
    (hplain : PlainPattern vfs cwd pattern) :
    path ∈ expandGlobRecursive vfs root (parts pattern) ↔
      ∃ components, MatchesPath vfs cwd pattern components ∧ path = express pattern components := by
  have hne : parts pattern ≠ [] := by
    obtain ⟨segment, hmem, -⟩ := hglob
    exact List.ne_nil_of_mem hmem
  have hfrom : PlainFrom vfs [] (parts pattern) :=
    hplain.segments [] ((startsAt_absolute hpattern).mpr rfl)
  have hmatches (components : List Text) :
      MatchesPath vfs cwd pattern components ↔ Leads vfs [] (parts pattern) components := by
    simp only [MatchesPath, startsAt_absolute hpattern, exists_eq_left]
  simp only [hmatches]
  by_cases hroot : ∃ permission, vfs.get root = some (.directory permission)
  · have hready : Ready vfs [] (parts pattern) := ⟨fun hnil => absurd hnil hne, fun _ _ _ => hroot⟩
    rw [mem_expandGlobRecursive htree .atRoot (isName_parts pattern) hfrom hready]
    refine exists_congr fun components => and_congr_right fun hleads => ?_
    rw [pathOf, if_neg (hleads.ne_nil hne), express, if_pos hpattern]
    rfl
  · have hnone (dir : List Text) (permission : Permission) :
        vfs.get (ofNames dir) ≠ some (.directory permission) :=
      fun hdir => hroot (get_root htree hdir)
    rw [expandGlobRecursive_eq_nil hnone .atRoot (isName_parts pattern) hfrom hglob]
    simp only [List.not_mem_nil, false_iff]
    rintro ⟨components, hleads, -⟩
    obtain ⟨permission, hdir⟩ := hleads.directory hne
    exact hnone [] permission hdir

/-- A relative pattern finds the paths below the working directory that match it. -/
lemma mem_found_relative (htree : NormalTree vfs) (habsolute : isAbsolute cwd = true)
    (hpattern : isAbsolute pattern = false) (hne : parts pattern ≠ [])
    (hplain : PlainPattern vfs cwd pattern) :
    path ∈ expandGlobRecursive vfs cwd (parts pattern) ↔
      ∃ components ≠ [], MatchesPath vfs cwd pattern components ∧ path = pathOf cwd components := by
  have hcwd := hplain.cwd hpattern
  cases hnormal : Vfs.normalizePath cwd with
  | error e =>
    obtain ⟨segment, segments, hparts⟩ := List.exists_cons_of_ne_nil hne
    rw [hparts, expandGlobRecursive_of_error habsolute hcwd hnormal]
    simp only [List.not_mem_nil, false_iff]
    rintro ⟨components, -, ⟨dir, hstart, -⟩, -⟩
    have hok := hstart.relative hpattern
    rw [hnormal] at hok
    cases hok
  | ok p =>
    obtain ⟨dir, hat⟩ := At.ofCwd habsolute hcwd hnormal
    have hstart : StartsAt cwd pattern dir :=
      ⟨hat.components, fun h => by simp [hpattern] at h, fun _ => hat.resolves⟩
    have hmatches (components : List Text) :
        MatchesPath vfs cwd pattern components ↔ Leads vfs dir (parts pattern) components := by
      constructor
      · rintro ⟨dir', hstart', hleads⟩
        have heq := hat.resolves.symm.trans (hstart'.relative hpattern)
        rwa [ofNames_inj (fun name hname => (hat.components name hname).isName)
          (fun name hname => (hstart'.components name hname).isName) (Except.ok.inj heq)]
      · exact fun hleads => ⟨dir, hstart, hleads⟩
    have hready : Ready vfs dir (parts pattern) :=
      ⟨fun hnil => absurd hnil hne, hplain.start hpattern dir hstart⟩
    rw [mem_expandGlobRecursive htree hat (isName_parts pattern) (hplain.segments dir hstart)
      hready]
    refine exists_congr fun components => ?_
    rw [hmatches]
    constructor
    · exact fun ⟨hleads, heq⟩ => ⟨hleads.ne_nil hne, hleads, heq⟩
    · exact fun ⟨_, hleads, heq⟩ => ⟨hleads, heq⟩

/-- Sorted, and without duplicates. -/
lemma pairwise_lt_insertionSort {paths : List Text} (h : paths.Nodup) :
    (paths.insertionSort (· ≤ ·)).Pairwise (· < ·) := by
  have hsorted := List.pairwise_insertionSort (· ≤ ·) paths
  have hne := (List.perm_insertionSort (· ≤ ·) paths).nodup_iff.mpr h
  exact hsorted.imp₂ (fun a b hle hne => lt_of_le_of_ne hle hne) hne

/-- An expansion is read off the paths that are found. -/
lemma isExpansion_of_found {paths : List Text} (hnodup : paths.Nodup)
    (hfound : ∀ path, path ∈ paths ↔
      ∃ components, MatchesPath vfs cwd pattern components ∧ path = express pattern components) :
    IsExpansion vfs cwd pattern
      (if paths.insertionSort (· ≤ ·) = [] then [pattern] else paths.insertionSort (· ≤ ·)) := by
  have hmem (path : Text) : path ∈ paths.insertionSort (· ≤ ·) ↔ path ∈ paths :=
    List.mem_insertionSort (· ≤ ·)
  split_ifs with hnil
  · have hnone : ¬ ∃ components, MatchesPath vfs cwd pattern components := by
      rintro ⟨components, hmatches⟩
      have hpath := (hmem _).mpr ((hfound _).mpr ⟨components, hmatches, rfl⟩)
      rw [hnil] at hpath
      cases hpath
    exact ⟨List.pairwise_singleton _ _, fun hsome => absurd hsome hnone, fun _ => rfl⟩
  · refine ⟨pairwise_lt_insertionSort hnodup, fun _ path => (hmem path).trans (hfound path), ?_⟩
    intro hnone
    obtain ⟨path, hpath⟩ := List.exists_mem_of_ne_nil _ hnil
    obtain ⟨components, hmatches, -⟩ := (hfound path).mp ((hmem path).mp hpath)
    exact absurd ⟨components, hmatches⟩ hnone

/-- The expansion gives exactly the paths that match, if each is looked up as it is meant. -/
theorem isExpansion (vfs : Vfs) (htree : NormalTree vfs) (cwd pattern : Text)
    (habsolute : isAbsolute cwd = true)
    (hglob : ∃ segment ∈ parts pattern, isGlobPattern segment = true)
    (hplain : PlainPattern vfs cwd pattern) :
    IsExpansion vfs cwd pattern (expandGlob vfs cwd pattern) := by
  obtain ⟨segment, hmem, hmark⟩ := id hglob
  have hne : parts pattern ≠ [] := List.ne_nil_of_mem hmem
  have hnodup (base : Text) : (expandGlobRecursive vfs base (parts pattern)).Nodup :=
    nodup_expandGlobRecursive (isName_parts pattern)
  rw [expandGlob, if_pos (isGlobPattern_of_segment hmem hmark)]
  dsimp only
  rw [if_neg hne]
  cases hpattern : isAbsolute pattern with
  | true =>
    exact isExpansion_of_found (hnodup root) fun path =>
      mem_found_absolute htree hpattern hglob hplain
  | false =>
    have hcwd := (hplain.cwd hpattern).noSlash
    have hfound (path : Text) : path ∈ expandGlobRecursive vfs cwd (parts pattern) ↔ _ :=
      mem_found_relative htree habsolute hpattern hne hplain
    have hexpress (components : List Text) :
        express pattern components = ['/'].intercalate components := by
      rw [express, if_neg (by simp [hpattern])]
    apply isExpansion_of_found
    · -- a path is known from its relative form
      refine List.Nodup.map_on ?_ (hnodup cwd)
      intro path hpath path' hpath' heq
      obtain ⟨components, hsome, -, rfl⟩ := (hfound path).mp hpath
      obtain ⟨components', hsome', -, rfl⟩ := (hfound path').mp hpath'
      rw [relativeTo_pathOf hcwd hsome, relativeTo_pathOf hcwd hsome'] at heq
      rw [pathOf, pathOf, if_neg hsome, if_neg hsome', ← cons_intercalate hsome, heq,
        cons_intercalate hsome']
    · intro path
      simp only [if_neg (by simp : ¬ false = true), List.mem_map, hfound, hexpress]
      constructor
      · rintro ⟨_, ⟨components, hsome, hmatches, rfl⟩, rfl⟩
        exact ⟨components, hmatches, relativeTo_pathOf hcwd hsome⟩
      · rintro ⟨components, hmatches, rfl⟩
        obtain ⟨dir, -, hleads⟩ := id hmatches
        have hsome := hleads.ne_nil hne
        exact ⟨_, ⟨components, hsome, hmatches, rfl⟩, relativeTo_pathOf hcwd hsome⟩

/-- A glob segment in front of a literal one. -/
theorem isExpansion_oneFile :
    let vfs := new.run [.createDir "/tmp/d".toList .readWrite,
      .writeFile "/tmp/d/x".toList [] .readWrite]
    IsExpansion vfs "/tmp".toList "*/x".toList (expandGlob vfs "/tmp".toList "*/x".toList) := by
  intro vfs
  have htree : NormalTree vfs := normalTree_of_entries (by decide +kernel)
  have hkeys : ∀ key, vfs.containsKey key → EndsPlain key := by
    have hentries : ∀ entry ∈ vfs.entries.entries, EndsPlain entry.1 := by decide +kernel
    intro key hkey
    obtain ⟨entry, hentry⟩ := Option.isSome_iff_exists.mp hkey
    exact hentries _ (mem_entries_iff.mpr hentry)
  have hplain (dir : List Text) : PlainFrom vfs dir ["*".toList, "x".toList] := by
    refine .glob (by decide) (fun _ name _ hkey _ => endsPlain_of_ofNames (hkeys _ hkey)) ?_
    intro name permission _ _ _
    exact .plain (by decide) (by decide) (by decide) (fun _ _ _ => by simp [StepsFromDir])
      fun _ _ _ => .nil
  have hparts : parts "*/x".toList = ["*".toList, "x".toList] := by decide
  apply isExpansion vfs htree
  · decide
  · decide
  · refine ⟨?_, ?_, ?_⟩
    · rw [hparts]
      exact fun dir _ => hplain dir
    · rw [hparts]
      rintro - dir - step hstep (rfl | rfl)
      · simp at hstep
      · simp at hstep
    · exact fun _ => ⟨by decide, .inr (by decide)⟩

/-- A directory whose name has to be escaped. -/
theorem not_isExpansion :
    ¬ ∀ (vfs : Vfs) (cwd pattern : Text), NormalTree vfs → isAbsolute cwd = true →
      (∃ segment ∈ parts pattern, isGlobPattern segment = true) →
        IsExpansion vfs cwd pattern (expandGlob vfs cwd pattern) := by
  intro hall
  let vfs := new.run [.createDir "/tmp/*d".toList .readWrite,
    .writeFile "/tmp/*d/x".toList [] .readWrite]
  have htree : NormalTree vfs := normalTree_of_entries (by decide +kernel)
  have hexpansion := hall vfs "/tmp".toList "\\*d/*".toList htree (by decide) (by decide)
  have hresult : expandGlob vfs "/tmp".toList "\\*d/*".toList = ["\\*d/*".toList] := by
    decide +kernel
  have hmatches : MatchesPath vfs "/tmp".toList "\\*d/*".toList ["*d".toList, "x".toList] := by
    have hparts : parts "\\*d/*".toList = ["\\*d".toList, "*".toList] := by decide
    have htmp : vfs.get (ofNames ["tmp".toList]) = some (.directory .readWrite) := by
      decide +kernel
    have hdir : vfs.get (ofNames ["tmp".toList, "*d".toList]) = some (.directory .readWrite) := by
      decide +kernel
    have hfile : vfs.containsKey (ofNames ["tmp".toList, "*d".toList, "x".toList]) := by
      decide +kernel
    have hname : IsComponent "*d".toList := isComponent_iff.mpr (by decide)
    have hname' : IsComponent "x".toList := isComponent_iff.mpr (by decide)
    have hliteral : StandsFor "\\*d".toList "*d".toList := by
      rw [StandsFor, if_neg (by decide)]
      decide
    have hglob : StandsFor "*".toList "x".toList := by
      have hmatch : globMatch "*".toList "x".toList = true := Cursor.run_of_rounds (n := 3) rfl
      rw [StandsFor, if_pos (by decide)]
      exact ⟨hname', hmatch⟩
    refine ⟨["tmp".toList], ⟨?_, ?_, ?_⟩, ?_⟩
    · exact List.forall_mem_singleton.mpr (isComponent_iff.mpr (by decide))
    · decide
    · decide
    · rw [hparts]
      exact .cons htmp hliteral (.name hname) (.cons hdir hglob (.name hname') (.nil hfile))
  rw [hresult] at hexpansion
  have hmem := (hexpansion.mem_iff ⟨_, hmatches⟩ "*d/x".toList).mpr ⟨_, hmatches, by decide⟩
  revert hmem
  decide

end AmlaSandbox.Shell
