import Mathlib.Algebra.Order.BigOperators.Group.List
import Mathlib.Algebra.Order.Group.Nat
import AmlaSandbox.Library.Pieces
import AmlaSandbox.Shell.Expansion
import AmlaSandbox.Shell.Handles
import AmlaSandbox.Shell.Interpret

/-!
# find

`find` walks down the tree with two paths, that of the entry and that which it prints. The matcher
of names tries every suffix behind a star.
-/

namespace AmlaSandbox.Commands.Find

open Library Shell Shell.Handles Text Vfs

structure FindOptions where
  namePattern : Option Text
  fileType : Option Char
  maxDepth : Option ℕ
  minDepth : ℕ

/-! ### The matcher -/

/-- The loop behind a star: the rest of the pattern is tried on each suffix of the name. -/
def starLoop (rest : Text → Bool) (onlyStars : Bool) : Text → Bool
  | [] => rest [] || onlyStars
  | c :: name => rest (c :: name) || starLoop rest onlyStars name

def matchesGlobInner : Text → Text → Bool
  | [], [] => true
  | [], _ :: _ => false
  | '*' :: pattern, name => starLoop (matchesGlobInner pattern) (pattern.all (· = '*')) name
  | '?' :: pattern, _ :: name => matchesGlobInner pattern name
  | '?' :: _, [] => false
  | p :: pattern, n :: name => if p = n then matchesGlobInner pattern name else false
  | _ :: _, [] => false

def matchesGlob (name pattern : Text) : Bool := matchesGlobInner pattern name

/-! ### The walk -/

inductive ListError
  | notFound (path : Text)
  | notDir (path : Text)
  | vfs (e : VfsError)

/-- What is printed: a path, or an error. -/
inductive Line
  | path (displayPath : Text)
  | failed (displayPath : Text) (e : ListError)
  | noSuchFile (pathArg : Text)

section

variable (files : Files) (path : Text)

def exists? : Bool :=
  let path := resolvePath files.cwd path
  files.vfs.pathExists path || files.vfs.isMounted path

def isDir : Bool := files.vfs.isDir (resolvePath files.cwd path)

def isFile : Bool :=
  let path := resolvePath files.cwd path
  (match Vfs.normalizePath path with
  | .ok path => (files.vfs.get path).any Entry.isFile
  | .error _ => false) || files.vfs.isMounted path

/-- List directory contents. -/
def listDir : Except ListError (List DirEntry) :=
  let path := resolvePath files.cwd path
  if ¬ files.vfs.pathExists path then .error (.notFound path)
  else if ¬ files.vfs.isDir path then .error (.notDir path)
  else (files.vfs.listDir path).mapError .vfs

/-- What is behind the last slash. -/
def lastComponent (path : Text) : Text := (path.splitOn '/').getLastD path

def matchesCriteria (absPath displayPath : Text) (opts : FindOptions) : Bool :=
  (match opts.fileType with
  | some 'f' => isFile files absPath
  | some 'd' => isDir files absPath
  | _ => true) &&
    match opts.namePattern with
    | some pattern => matchesGlob (lastComponent displayPath) pattern
    | none => true

/-- Find files matching the criteria, unless there is too little fuel. -/
def findRecursive (opts : FindOptions) : ℕ → Text → Text → ℕ → Option (List Line)
  | 0, _, _, _ => none
  | fuel + 1, absPath, displayPath, depth =>
    if opts.maxDepth.any (· < depth) then some []
    else
      let printed :=
        if opts.minDepth ≤ depth ∧ matchesCriteria files absPath displayPath opts then
          [.path displayPath]
        else []
      if isDir files absPath then
        if opts.maxDepth.any (· ≤ depth) then some printed
        else
          match listDir files absPath with
          | .ok entries =>
            (entries.mapM fun entry => findRecursive opts fuel (joinPath absPath entry.name)
              (joinPath displayPath entry.name) (depth + 1)).map fun below =>
                printed ++ below.flatten
          | .error e => some (printed ++ [.failed displayPath e])
      else some printed

/-- The search from one path argument. -/
def find (opts : FindOptions) (fuel : ℕ) (pathArg : Text) : Option (List Line) :=
  let startPath := resolvePath files.cwd pathArg
  if ¬ exists? files startPath then some [.noSuchFile pathArg]
  else findRecursive files opts fuel startPath pathArg 0

end

/-! ### What should be found -/

def piece (c : Char) : Piece Char :=
  if c = '*' then .run else if c = '?' then .letter fun _ => true else .letter (c = ·)

/-- How a path below the start is printed. -/
def printedPath (start : Text) (names : List Text) : Text := names.foldl joinPath start

/-- The names lead from the directory to an entry that is asked for, and may be printed. -/
structure Selected (vfs : Vfs) (opts : FindOptions) (dir : List Text) (start : Text) (depth : ℕ)
    (names : List Text) : Prop where
  isName : ∀ name ∈ names, IsName name
  entry : ∃ entry, vfs.get (ofNames (dir ++ names)) = some entry ∧
    (opts.fileType = some 'f' → entry.isFile = true) ∧
      (opts.fileType = some 'd' → entry.isDir = true)
  minDepth : opts.minDepth ≤ depth + names.length
  maxDepth : ∀ maxDepth, opts.maxDepth = some maxDepth → depth + names.length ≤ maxDepth
  name : ∀ pattern, opts.namePattern = some pattern →
    Piece.Matches (pattern.map piece) (lastComponent (printedPath start names))

/-- All entries that are asked for, once each, and none behind one that is inside it. -/
structure Enumerates (vfs : Vfs) (opts : FindOptions) (dir : List Text) (start : Text) (depth : ℕ)
    (found : List (List Text)) : Prop where
  mem_iff : ∀ names, names ∈ found ↔ Selected vfs opts dir start depth names
  parents_first : found.Pairwise fun names names' => ¬ names' <+: names
  nodup : (found.map (printedPath start)).Nodup

/-! ### Names -/

section

variable {pattern name : Text} {rest : Text → Bool} {onlyStars : Bool}

lemma starLoop_iff : starLoop rest onlyStars name = true ↔
    (∃ suffix, suffix <:+ name ∧ rest suffix = true) ∨ onlyStars = true := by
  induction name with
  | nil => simp [starLoop]
  | cons c name ih =>
    rw [starLoop, Bool.or_eq_true, ih, ← or_assoc]
    refine or_congr_left ?_
    constructor
    · rintro (h | ⟨suffix, hsuffix, h⟩)
      · exact ⟨_, List.suffix_refl _, h⟩
      · exact ⟨suffix, hsuffix.trans (List.suffix_cons ..), h⟩
    · rintro ⟨suffix, hsuffix, h⟩
      rcases List.suffix_cons_iff.mp hsuffix with rfl | hsuffix
      · exact .inl h
      · exact .inr ⟨suffix, hsuffix, h⟩

/-- Stars alone match what is left, which is nothing. -/
lemma matches_stars (h : pattern.all (· = '*') = true) : Piece.Matches (pattern.map piece) [] := by
  rw [Piece.matches_empty_iff, List.all_map]
  refine List.all_eq_true.mpr fun c hc => ?_
  rw [of_decide_eq_true (List.all_eq_true.mp h c hc)]
  rfl

lemma matchesGlobInner_iff :
    matchesGlobInner pattern name = true ↔ Piece.Matches (pattern.map piece) name := by
  induction pattern generalizing name with
  | nil => cases name <;> simp [matchesGlobInner]
  | cons p pattern ih =>
    rw [List.map_cons, piece]
    by_cases hstar : p = '*'
    · subst hstar
      rw [if_pos rfl, matchesGlobInner, starLoop_iff, Piece.matches_run_iff]
      simp only [ih]
      constructor
      · rintro (h | h)
        · exact h
        · exact ⟨[], List.nil_suffix, matches_stars h⟩
      · exact .inl
    · rw [if_neg hstar]
      by_cases hany : p = '?'
      · subst hany
        rw [if_pos rfl, Piece.matches_letter_iff]
        cases name with
        | nil => simp [matchesGlobInner]
        | cons c name => simp [matchesGlobInner, ih]
      · rw [if_neg hany, Piece.matches_letter_iff]
        cases name with
        | nil => simp [matchesGlobInner]
        | cons c name =>
          have hcons : matchesGlobInner (p :: pattern) (c :: name) =
              if p = c then matchesGlobInner pattern name else false := by
            rw [matchesGlobInner] <;> assumption
          rw [hcons]
          by_cases heq : p = c
          · simp [heq, ih]
          · simp [heq]

end

/-! ### Paths below the start -/

section

variable {start name : Text} {names names' dir : List Text}

lemma printedPath_cons : printedPath start (name :: names) =
    printedPath (joinPath start name) names := rfl

lemma printedPath_eq (h : ∀ name ∈ names, IsName name) (hne : names ≠ []) :
    printedPath start names = frontOf start ++ slashed names := by
  induction names generalizing start with
  | nil => exact absurd rfl hne
  | cons name names ih =>
    obtain ⟨hname, hnames⟩ := List.forall_mem_cons.mp h
    rw [printedPath_cons, slashed_cons]
    cases names with
    | nil => rw [printedPath, List.foldl_nil, joinPath_eq, slashed_nil, List.append_nil]
    | cons next names =>
      rw [ih hnames (List.cons_ne_nil _ _), frontOf_joinPath hname.1, joinPath_eq,
        List.append_assoc, List.cons_append]

/-- No path is printed for two entries. -/
lemma printedPath_inj (h : ∀ name ∈ names, IsName name) (h' : ∀ name ∈ names', IsName name)
    (heq : printedPath start names = printedPath start names') : names = names' := by
  have hstart {names : List Text} (h : ∀ name ∈ names, IsName name)
      (heq : printedPath start [] = printedPath start names) : names = [] := by
    by_contra hne
    rw [printedPath_eq h hne, printedPath, List.foldl_nil] at heq
    obtain ⟨name, names, rfl⟩ := List.exists_cons_of_ne_nil hne
    have hpos := List.length_pos_of_ne_nil (h name List.mem_cons_self).1
    have hlen := congrArg List.length heq
    rw [List.length_append, slashed_cons, List.length_cons, List.length_append, frontOf] at hlen
    split_ifs at hlen with hroot
    · simp only [hroot, root, List.length_cons, List.length_nil] at hlen
      omega
    · omega
  by_cases hne : names = []
  · rw [hne] at heq ⊢
    exact (hstart h' heq).symm
  · by_cases hne' : names' = []
    · rw [hne'] at heq
      exact absurd (hstart h heq.symm) hne
    · rw [printedPath_eq h hne, printedPath_eq h' hne'] at heq
      apply ofNames_inj h h'
      rw [ofNames_of_ne_nil hne, ofNames_of_ne_nil hne']
      exact List.append_cancel_left heq

lemma frontOf_ofNames (h : ∀ name ∈ dir, IsName name) : frontOf (ofNames dir) = slashed dir := by
  cases dir with
  | nil => rfl
  | cons name dir =>
    have hname := (h name List.mem_cons_self).1
    have hroot : slashed (name :: dir) ≠ root := by simp [root, hname]
    rw [ofNames_of_ne_nil (List.cons_ne_nil _ _), frontOf, if_neg hroot]

lemma joinPath_ofNames (h : ∀ name ∈ dir, IsName name) (name : Text) :
    joinPath (ofNames dir) name = ofNames (dir ++ [name]) := by
  rw [joinPath_eq, frontOf_ofNames h, ofNames_concat]

lemma resolvePath_ofNames (h : ∀ name ∈ dir, IsComponent name) (cwd : Text) :
    resolvePath cwd (ofNames dir) = ofNames dir := by
  have hplain : ∀ part ∈ dir, IsPlain part := fun part hpart => by
    obtain ⟨hnil, hdot, hdots, hslash, -⟩ := isComponent_iff.mp (h part hpart)
    exact ⟨hnil, hdot, hdots, hslash⟩
  have hpath : ofNames dir = '/' :: ['/'].intercalate dir := by
    cases dir with
    | nil => rfl
    | cons name dir =>
      rw [ofNames_of_ne_nil (List.cons_ne_nil _ _), ← cons_intercalate (List.cons_ne_nil _ _)]
  have hhead : ('/' :: ['/'].intercalate dir).head? = some '/' := rfl
  rw [hpath, resolvePath, if_pos hhead, normalizePath_intercalate hplain]

end

/-! ### One directory -/

section

variable {vfs : Vfs} {opts : FindOptions} {start name : Text} {dir names rest : List Text}
  {depth : ℕ} {own : List (List Text)} {below : Text → List (List Text)}

lemma selected_cons_iff : Selected vfs opts dir start depth (name :: rest) ↔
    IsName name ∧ Selected vfs opts (dir ++ [name]) (joinPath start name) (depth + 1) rest := by
  have hlen : depth + (name :: rest).length = depth + 1 + rest.length := by
    rw [List.length_cons]
    omega
  have hdir : dir ++ name :: rest = dir ++ [name] ++ rest := by simp
  constructor
  · rintro ⟨hnames, hentry, hmin, hmax, hname⟩
    obtain ⟨hfirst, hrest⟩ := List.forall_mem_cons.mp hnames
    rw [hdir] at hentry
    rw [hlen] at hmin
    simp only [hlen] at hmax
    exact ⟨hfirst, hrest, hentry, hmin, hmax, hname⟩
  · rintro ⟨hfirst, hrest, hentry, hmin, hmax, hname⟩
    rw [← hdir] at hentry
    rw [← hlen] at hmin
    simp only [← hlen] at hmax
    exact ⟨List.forall_mem_cons.mpr ⟨hfirst, hrest⟩, hentry, hmin, hmax, hname⟩

lemma Enumerates.of_mem_iff {found : List (List Text)}
    (hmem : ∀ names, names ∈ found ↔ Selected vfs opts dir start depth names)
    (hfirst : found.Pairwise fun names names' => ¬ names' <+: names) :
    Enumerates vfs opts dir start depth found := by
  refine ⟨hmem, hfirst, List.Nodup.map_on ?_ (hfirst.imp fun hprefix heq => ?_)⟩
  · intro names h names' h' heq
    exact printedPath_inj ((hmem names).mp h).isName ((hmem names').mp h').isName heq
  · rw [heq] at hprefix
    exact hprefix (List.prefix_refl _)

lemma mem_children_iff (hown : own = [[]] ∧ Selected vfs opts dir start depth [] ∨
      own = [] ∧ ¬ Selected vfs opts dir start depth [])
    (hnames : ∀ name rest, Selected vfs opts dir start depth (name :: rest) → name ∈ names)
    (hbelow : ∀ name ∈ names, IsName name ∧
      Enumerates vfs opts (dir ++ [name]) (joinPath start name) (depth + 1) (below name))
    (path : List Text) :
    path ∈ own ++ names.flatMap (fun name => (below name).map (name :: ·)) ↔
      Selected vfs opts dir start depth path := by
  rw [List.mem_append, List.mem_flatMap]
  cases path with
  | nil =>
    constructor
    · rintro (hmem | ⟨name, -, hmem⟩)
      · exact (hown.resolve_right fun h => List.not_mem_nil (h.1 ▸ hmem)).2
      · obtain ⟨rest, -, heq⟩ := List.mem_map.mp hmem
        cases heq
    · intro hselected
      refine .inl ?_
      rw [(hown.resolve_right fun h => h.2 hselected).1]
      exact List.mem_singleton_self _
  | cons name rest =>
    constructor
    · rintro (hmem | ⟨name', hname', hmem⟩)
      · rcases hown with ⟨rfl, -⟩ | ⟨rfl, -⟩
        · cases List.mem_singleton.mp hmem
        · exact absurd hmem List.not_mem_nil
      · obtain ⟨rest', hrest', heq⟩ := List.mem_map.mp hmem
        obtain ⟨rfl, rfl⟩ := List.cons.inj heq
        obtain ⟨hname, hfound⟩ := hbelow name' hname'
        exact selected_cons_iff.mpr ⟨hname, (hfound.mem_iff rest').mp hrest'⟩
    · intro hselected
      have hname := hnames name rest hselected
      have hrest := (selected_cons_iff.mp hselected).2
      have hfound := ((hbelow name hname).2.mem_iff rest).mpr hrest
      exact .inr ⟨name, hname, List.mem_map_of_mem hfound⟩

/-- The directory itself, and then what is below each of its entries. -/
lemma Enumerates.of_children (hown : own = [[]] ∧ Selected vfs opts dir start depth [] ∨
      own = [] ∧ ¬ Selected vfs opts dir start depth [])
    (hnodup : names.Nodup)
    (hnames : ∀ name rest, Selected vfs opts dir start depth (name :: rest) → name ∈ names)
    (hbelow : ∀ name ∈ names, IsName name ∧
      Enumerates vfs opts (dir ++ [name]) (joinPath start name) (depth + 1) (below name)) :
    Enumerates vfs opts dir start depth
      (own ++ names.flatMap fun name => (below name).map (name :: ·)) := by
  apply Enumerates.of_mem_iff (mem_children_iff hown hnames hbelow)
  refine List.pairwise_append.mpr ⟨?_, List.pairwise_flatMap.mpr ⟨fun name hname => ?_, ?_⟩, ?_⟩
  · rcases hown with ⟨rfl, -⟩ | ⟨rfl, -⟩
    · exact List.pairwise_singleton ..
    · exact List.Pairwise.nil
  · refine List.pairwise_map.mpr ((hbelow name hname).2.parents_first.imp fun hprefix h => ?_)
    exact hprefix ((List.prefix_cons_inj name).mp h)
  · refine hnodup.imp fun hne path hpath path' hpath' hprefix => ?_
    obtain ⟨rest, -, rfl⟩ := List.mem_map.mp hpath
    obtain ⟨rest', -, rfl⟩ := List.mem_map.mp hpath'
    exact hne (List.cons_prefix_cons.mp hprefix).1.symm
  · rintro path hpath path' hpath' hprefix
    obtain ⟨name, -, hmem⟩ := List.mem_flatMap.mp hpath'
    obtain ⟨rest, -, rfl⟩ := List.mem_map.mp hmem
    rcases hown with ⟨rfl, -⟩ | ⟨rfl, -⟩
    · rw [List.mem_singleton.mp hpath] at hprefix
      cases List.prefix_nil.mp hprefix
    · exact List.not_mem_nil hpath

lemma Enumerates.of_leaf (hown : own = [[]] ∧ Selected vfs opts dir start depth [] ∨
      own = [] ∧ ¬ Selected vfs opts dir start depth [])
    (hnone : ∀ name rest, ¬ Selected vfs opts dir start depth (name :: rest)) :
    Enumerates vfs opts dir start depth own := by
  have hbelow (name : Text) (hmem : name ∈ []) : IsName name ∧ Enumerates vfs opts (dir ++ [name])
      (joinPath start name) (depth + 1) ((fun _ => []) name) :=
    absurd hmem List.not_mem_nil
  have henumerates := Enumerates.of_children hown List.nodup_nil
    (fun name rest hselected => absurd hselected (hnone name rest)) hbelow
  rwa [List.flatMap_nil, List.append_nil] at henumerates

end

/-! ### The tree -/

/-- A tree without mounts, whose paths are found as they are stored. -/
structure IsPlainTree (files : Files) : Prop where
  tree : NormalTree files.vfs
  fixed : ∀ q, files.vfs.containsKey q → Vfs.normalizePath q = .ok q
  mounts : files.vfs.mounts = ∅

section

variable {files : Files} {opts : FindOptions} {start name : Text} {dir names rest : List Text}
  {depth : ℕ} {entry : Entry}

lemma containsKey_of_append {vfs : Vfs} (htree : NormalTree vfs)
    (hrest : ∀ name ∈ rest, IsName name)
    (hkey : vfs.containsKey (ofNames (dir ++ rest))) : vfs.containsKey (ofNames dir) := by
  induction rest using List.reverseRecOn with
  | nil => rwa [List.append_nil] at hkey
  | append_singleton rest name ih =>
    rw [← List.append_assoc] at hkey
    obtain ⟨permission, hget⟩ := get_above htree (hrest name (by simp)) hkey
    exact ih (fun n hn => hrest n (List.mem_append_left _ hn)) (containsKey_of_get hget)

lemma isComponent_of_key (htree : NormalTree files.vfs) (hnames : ∀ name ∈ dir, IsName name)
    (hkey : files.vfs.containsKey (ofNames dir)) : ∀ name ∈ dir, IsComponent name := by
  obtain ⟨raw, hraw⟩ := htree.keys _ hkey
  obtain ⟨names, hcomponents, heq⟩ := exists_names_of_normalizePath hraw
  rwa [ofNames_inj hnames (fun name hname => (hcomponents name hname).isName) heq]

namespace IsPlainTree

lemma resolvePath_eq (h : IsPlainTree files) (hnames : ∀ name ∈ dir, IsName name)
    (hget : files.vfs.get (ofNames dir) = some entry) :
    resolvePath files.cwd (ofNames dir) = ofNames dir ∧
      Vfs.normalizePath (ofNames dir) = .ok (ofNames dir) := by
  have hkey := containsKey_of_get hget
  exact ⟨resolvePath_ofNames (isComponent_of_key h.tree hnames hkey) _, h.fixed _ hkey⟩

lemma isDir_eq (h : IsPlainTree files) (hnames : ∀ name ∈ dir, IsName name)
    (hget : files.vfs.get (ofNames dir) = some entry) :
    Find.isDir files (ofNames dir) = entry.isDir := by
  obtain ⟨hresolve, hnormal⟩ := h.resolvePath_eq hnames hget
  rw [Find.isDir, hresolve, Vfs.isDir, hnormal]
  dsimp only
  rw [hget]
  rfl

lemma isFile_eq (h : IsPlainTree files) (hnames : ∀ name ∈ dir, IsName name)
    (hget : files.vfs.get (ofNames dir) = some entry) :
    Find.isFile files (ofNames dir) = entry.isFile := by
  obtain ⟨hresolve, hnormal⟩ := h.resolvePath_eq hnames hget
  rw [Find.isFile, hresolve, isMounted, hnormal]
  dsimp only
  rw [hget, h.mounts, AList.lookup_empty]
  exact Bool.or_false _

lemma matchesCriteria_iff (h : IsPlainTree files) (hnames : ∀ name ∈ dir, IsName name)
    (hget : files.vfs.get (ofNames dir) = some entry) :
    matchesCriteria files (ofNames dir) start opts = true ↔
      ((opts.fileType = some 'f' → entry.isFile = true) ∧
        (opts.fileType = some 'd' → entry.isDir = true)) ∧
      ∀ pattern, opts.namePattern = some pattern →
        Piece.Matches (pattern.map piece) (lastComponent start) := by
  rw [matchesCriteria, Bool.and_eq_true, h.isFile_eq hnames hget, h.isDir_eq hnames hget]
  refine and_congr ?_ ?_
  · split
    · rename_i heq
      simp [heq]
    · rename_i heq
      simp [heq]
    · rename_i hf hd
      exact iff_of_true rfl ⟨fun heq => absurd heq hf, fun heq => absurd heq hd⟩
  · cases opts.namePattern with
    | none => simp
    | some pattern => simp [matchesGlob, matchesGlobInner_iff]

/-- The start is selected if it matches and is deep enough. -/
lemma selected_nil_iff (h : IsPlainTree files) (hnames : ∀ name ∈ dir, IsName name)
    (hget : files.vfs.get (ofNames dir) = some entry)
    (hmax : opts.maxDepth.any (· < depth) = false) :
    Selected files.vfs opts dir start depth [] ↔
      opts.minDepth ≤ depth ∧ matchesCriteria files (ofNames dir) start opts = true := by
  rw [h.matchesCriteria_iff hnames hget]
  constructor
  · rintro ⟨-, ⟨entry', hget', htype⟩, hmin, -, hname⟩
    rw [List.append_nil, hget] at hget'
    obtain rfl := Option.some.inj hget'
    exact ⟨hmin, htype, hname⟩
  · rintro ⟨hmin, htype, hname⟩
    refine ⟨fun _ hmem => absurd hmem List.not_mem_nil, ⟨entry, by rwa [List.append_nil], htype⟩,
      hmin, fun maxDepth heq => ?_, hname⟩
    rw [heq] at hmax
    exact Nat.le_of_not_lt (of_decide_eq_false hmax)

/-- What is below an entry is in a directory, and so are the directories on the way. -/
lemma directory_of_below (h : IsPlainTree files) (hnames : ∀ name ∈ dir, IsName name)
    (hselected : Selected files.vfs opts dir start depth (name :: rest)) :
    IsComponent name ∧ files.vfs.containsKey (ofNames (dir ++ [name])) ∧
      ∃ permission, files.vfs.get (ofNames dir) = some (.directory permission) := by
  obtain ⟨hname, hbelow⟩ := selected_cons_iff.mp hselected
  obtain ⟨entry, hget, -⟩ := hbelow.entry
  have hkey := containsKey_of_append h.tree hbelow.isName (containsKey_of_get hget)
  have hall : ∀ n ∈ dir ++ [name], IsName n := by
    intro n hn
    rcases List.mem_append.mp hn with hn | hn
    · exact hnames n hn
    · rwa [List.mem_singleton.mp hn]
  exact ⟨isComponent_of_key h.tree hall hkey name (by simp), hkey, get_above h.tree hname hkey⟩

lemma listDir_eq (h : IsPlainTree files) (hnames : ∀ name ∈ dir, IsName name)
    {permission : Permission} (hget : files.vfs.get (ofNames dir) = some (.directory permission)) :
    ∃ entries, Find.listDir files (ofNames dir) = .ok entries ∧
      (entries.map (·.name)).Nodup ∧ ∀ name, name ∈ entries.map (·.name) ↔
        IsComponent name ∧ files.vfs.containsKey (ofNames (dir ++ [name])) := by
  obtain ⟨hresolve, hnormal⟩ := h.resolvePath_eq hnames hget
  obtain ⟨entries, hlist, hmem⟩ := exists_listDir_ofNames h.tree hnames hnormal hget
  have hexists : files.vfs.pathExists (ofNames dir) = true := by
    rw [pathExists, hnormal]
    exact containsKey_of_get hget
  have hdir : files.vfs.isDir (ofNames dir) = true := by
    rw [Vfs.isDir, hnormal]
    dsimp only
    rw [hget]
    rfl
  refine ⟨entries, ?_, ?_, hmem⟩
  · rw [Find.listDir, hresolve, hexists, hdir, hlist]
    rfl
  · exact List.pairwise_map.mpr (listDir_names hlist).2

end IsPlainTree

end

/-! ### The walk -/

section

variable {files : Files} {opts : FindOptions} {start : Text} {dir : List Text} {depth bound : ℕ}
  {entry : Entry}

lemma mapM_eq_some {α β : Type} {f : α → Option β} {g : α → β} {l : List α}
    (h : ∀ a ∈ l, f a = some (g a)) : l.mapM f = some (l.map g) := by
  induction l with
  | nil => rfl
  | cons a l ih =>
    obtain ⟨ha, hl⟩ := List.forall_mem_cons.mp h
    rw [List.mapM_cons, ha, ih hl]
    rfl

/-- The lines of a directory are its own and those of its entries. -/
lemma lines_children {walk : Text → Option (List Line)} {entries : List DirEntry}
    {own : List (List Text)} {below : Text → List (List Text)}
    (h : ∀ name ∈ entries.map (·.name), walk name =
      some (((below name).map (printedPath (joinPath start name))).map .path)) :
    ((entries.mapM fun entry => walk entry.name).map fun below =>
        (own.map (printedPath start)).map .path ++ below.flatten) =
      some (((own ++ (entries.map (·.name)).flatMap fun name =>
        (below name).map (name :: ·)).map (printedPath start)).map .path) := by
  rw [mapM_eq_some fun entry hentry => h entry.name (List.mem_map_of_mem hentry), Option.map_some,
    List.map_append, List.map_append, List.flatMap_map, List.map_flatMap, List.map_flatMap,
    List.flatMap_def]
  simp only [List.map_map, Function.comp_def, printedPath_cons]

lemma exists_bound (vfs : Vfs) : ∃ bound, ∀ q, vfs.containsKey q → q.length < bound :=
  ⟨vfs.bound, fun _ => length_lt_bound⟩

/-- The line of an entry, if it is asked for. -/
lemma exists_own (start : Text) (h : IsPlainTree files) (hnames : ∀ name ∈ dir, IsName name)
    (hget : files.vfs.get (ofNames dir) = some entry)
    (hmax : opts.maxDepth.any (· < depth) = false) : ∃ own : List (List Text),
      (if opts.minDepth ≤ depth ∧ matchesCriteria files (ofNames dir) start opts = true then
        [Line.path start] else []) = (own.map (printedPath start)).map .path ∧
      (own = [[]] ∧ Selected files.vfs opts dir start depth [] ∨
        own = [] ∧ ¬ Selected files.vfs opts dir start depth []) := by
  rw [h.selected_nil_iff hnames hget hmax]
  split_ifs with hmatches
  · exact ⟨[[]], rfl, .inl ⟨rfl, hmatches⟩⟩
  · exact ⟨[], rfl, .inr ⟨rfl, hmatches⟩⟩

/-- From some fuel on, the walk from a directory prints what is asked for. -/
def Finds (files : Files) (opts : FindOptions) (bound : ℕ) (dir : List Text) (start : Text)
    (depth : ℕ) : Prop :=
  ∃ found, (∀ fuel ≥ bound, findRecursive files opts fuel (ofNames dir) start depth =
      some ((found.map (printedPath start)).map .path)) ∧
    Enumerates files.vfs opts dir start depth found

lemma Finds.succ (found : List (List Text))
    (hfound : ∀ fuel ≥ bound, findRecursive files opts (fuel + 1) (ofNames dir) start depth =
      some ((found.map (printedPath start)).map .path))
    (henumerates : Enumerates files.vfs opts dir start depth found) :
    Finds files opts (bound + 1) dir start depth := by
  refine ⟨found, fun fuel hfuel => ?_, henumerates⟩
  obtain ⟨fuel, rfl⟩ := Nat.exists_eq_add_of_le' (Nat.le_of_add_left_le hfuel)
  exact hfound fuel (Nat.le_of_succ_le_succ hfuel)

/-- Below the greatest depth nothing is asked for, and nothing is printed. -/
lemma finds_deep (hmax : opts.maxDepth.any (· < depth) = true) :
    Finds files opts (bound + 1) dir start depth := by
  obtain ⟨maxDepth, hsome, hlt⟩ := (Option.any_eq_true _ _).mp hmax
  refine .succ [] (fun fuel _ => by rw [findRecursive, if_pos hmax]; rfl)
    (.of_mem_iff (fun names => ?_) .nil)
  refine iff_of_false List.not_mem_nil fun hselected => ?_
  have hle := hselected.maxDepth maxDepth hsome
  have hlt := of_decide_eq_true hlt
  omega

/-- The walk from a file, and from a directory at the greatest depth. -/
lemma finds_leaf (h : IsPlainTree files) (hnames : ∀ name ∈ dir, IsName name)
    (hget : files.vfs.get (ofNames dir) = some entry)
    (hmax : ¬ opts.maxDepth.any (· < depth) = true)
    (hleaf : entry.isDir = true → opts.maxDepth.any (· ≤ depth) = true) :
    Finds files opts (bound + 1) dir start depth := by
  obtain ⟨own, hprinted, hown⟩ :=
    exists_own start h hnames hget (Bool.eq_false_of_not_eq_true hmax)
  apply Finds.succ own
  · intro fuel _
    rw [findRecursive, if_neg hmax, hprinted, h.isDir_eq hnames hget]
    split_ifs with hisDir hend
    · rfl
    · exact absurd (hleaf hisDir) hend
    · rfl
  · apply Enumerates.of_leaf hown
    intro name rest hselected
    obtain ⟨-, -, permission, hdir⟩ := h.directory_of_below hnames hselected
    obtain rfl := Option.some.inj (hget.symm.trans hdir)
    obtain ⟨maxDepth, hsome, hle⟩ := (Option.any_eq_true _ _).mp (hleaf rfl)
    have hdepth := hselected.maxDepth maxDepth hsome
    have hle := of_decide_eq_true hle
    rw [List.length_cons] at hdepth
    omega

/-- The walk from a directory, after those from its entries. -/
lemma finds_directory (h : IsPlainTree files) (hnames : ∀ name ∈ dir, IsName name)
    {permission : Permission} (hget : files.vfs.get (ofNames dir) = some (.directory permission))
    (hmax : ¬ opts.maxDepth.any (· < depth) = true)
    (hend : ¬ opts.maxDepth.any (· ≤ depth) = true)
    (hchild : ∀ name, IsComponent name → files.vfs.containsKey (ofNames (dir ++ [name])) →
      Finds files opts bound (dir ++ [name]) (joinPath start name) (depth + 1)) :
    Finds files opts (bound + 1) dir start depth := by
  obtain ⟨own, hprinted, hown⟩ :=
    exists_own start h hnames hget (Bool.eq_false_of_not_eq_true hmax)
  obtain ⟨entries, hlist, hnodup, hmem⟩ := h.listDir_eq hnames hget
  have hisDir : isDir files (ofNames dir) = true := h.isDir_eq hnames hget
  have hbelow (name : Text) (hname : name ∈ entries.map (·.name)) :
      Finds files opts bound (dir ++ [name]) (joinPath start name) (depth + 1) := by
    obtain ⟨hcomponent, hkey⟩ := (hmem name).mp hname
    exact hchild name hcomponent hkey
  choose! below hfound henumerates using hbelow
  apply Finds.succ (own ++ (entries.map (·.name)).flatMap fun name => (below name).map (name :: ·))
  · intro fuel hfuel
    rw [findRecursive, if_neg hmax, hprinted, if_pos hisDir, if_neg hend, hlist]
    simp only [joinPath_ofNames hnames]
    exact lines_children fun name hname => hfound name hname fuel hfuel
  · apply Enumerates.of_children hown hnodup
    · intro name rest hselected
      obtain ⟨hcomponent, hkey, -⟩ := h.directory_of_below hnames hselected
      exact (hmem name).mpr ⟨hcomponent, hkey⟩
    · intro name hname
      exact ⟨((hmem name).mp hname).1.isName, henumerates name hname⟩

/-- Fuel for the longest path is enough: an entry is shorter than what is below it. -/
lemma finds_of_bound (h : IsPlainTree files) (hnames : ∀ name ∈ dir, IsName name)
    (hget : files.vfs.get (ofNames dir) = some entry)
    (hbound : ∀ q, files.vfs.containsKey q → q.length < (ofNames dir).length + bound) :
    Finds files opts bound dir start depth := by
  induction bound generalizing dir start depth entry with
  | zero => exact absurd (hbound _ (containsKey_of_get hget)) (lt_irrefl _)
  | succ bound ih =>
    by_cases hmax : opts.maxDepth.any (· < depth) = true
    · exact finds_deep hmax
    · cases entry with
      | file content permission =>
        exact finds_leaf h hnames hget hmax fun hisDir => absurd hisDir Bool.false_ne_true
      | directory permission =>
        by_cases hend : opts.maxDepth.any (· ≤ depth) = true
        · exact finds_leaf h hnames hget hmax fun _ => hend
        · apply finds_directory h hnames hget hmax hend
          intro name hcomponent hkey
          obtain ⟨child, hchild⟩ := Option.isSome_iff_exists.mp hkey
          have hall : ∀ n ∈ dir ++ [name], IsName n :=
            List.forall_mem_append.mpr ⟨hnames, List.forall_mem_singleton.mpr hcomponent.isName⟩
          have hparent : parentOf (ofNames (dir ++ [name])) = some (ofNames dir) :=
            parentOf_ofNames hcomponent.isName
          have hlt := length_lt_of_parentOf hparent
          refine ih hall hchild fun q hq => ?_
          have hq := hbound q hq
          omega

/-- From a stored path, the walk ends, and prints what is asked for once, parents first. -/
theorem find_enumerates (files : Files) (opts : FindOptions) (pathArg : Text)
    (h : IsPlainTree files) (hstored : files.vfs.containsKey (resolvePath files.cwd pathArg)) :
    ∃ (dir : List Text) (found : List (List Text)) (bound : ℕ),
      (∀ name ∈ dir, IsName name) ∧ resolvePath files.cwd pathArg = ofNames dir ∧
        (∀ fuel ≥ bound, find files opts fuel pathArg =
          some ((found.map (printedPath pathArg)).map .path)) ∧
        Enumerates files.vfs opts dir pathArg 0 found := by
  obtain ⟨raw, hraw⟩ := h.tree.keys _ hstored
  obtain ⟨dir, hcomponents, hdir⟩ := exists_names_of_normalizePath hraw
  rw [hdir] at hstored
  have hnames : ∀ name ∈ dir, IsName name := fun name hname => (hcomponents name hname).isName
  obtain ⟨entry, hget⟩ := Option.isSome_iff_exists.mp hstored
  obtain ⟨bound, hbound⟩ := exists_bound files.vfs
  obtain ⟨found, hfound, henumerates⟩ := finds_of_bound h hnames hget fun q hq =>
    (hbound q hq).trans_le (Nat.le_add_left ..)
  refine ⟨dir, found, bound, hnames, hdir, fun fuel hfuel => ?_, henumerates⟩
  obtain ⟨hresolve, hnormal⟩ := h.resolvePath_eq hnames hget
  have hexists : exists? files (ofNames dir) = true := by
    rw [exists?, hresolve, pathExists, hnormal]
    dsimp only
    rw [hstored]
    exact Bool.true_or _
  rw [find, hdir, if_neg (not_not_intro hexists)]
  exact hfound fuel hfuel

theorem find_enumerates_tmp :
    let files : Files := ⟨new.run [.createDir "/tmp/d".toList .readWrite,
      .writeFile "/tmp/d/x".toList [] .readWrite], fun _ => .ok [], "/tmp".toList⟩
    let opts : FindOptions := ⟨some "?".toList, some 'f', none, 1⟩
    ∃ (dir : List Text) (found : List (List Text)) (bound : ℕ),
      (∀ name ∈ dir, IsName name) ∧ resolvePath files.cwd ".".toList = ofNames dir ∧
        (∀ fuel ≥ bound, find files opts fuel ".".toList =
          some ((found.map (printedPath ".".toList)).map .path)) ∧
        Enumerates files.vfs opts dir ".".toList 0 found := by
  intro files opts
  have htree : NormalTree files.vfs := normalTree_of_entries (by decide +kernel)
  have hfixed : ∀ q, files.vfs.containsKey q → Vfs.normalizePath q = .ok q := by
    have hentries : ∀ entry ∈ files.vfs.entries.entries,
        Vfs.normalizePath entry.1 = .ok entry.1 := by decide +kernel
    intro q hq
    obtain ⟨entry, hentry⟩ := Option.isSome_iff_exists.mp hq
    exact hentries _ (mem_entries_iff.mpr hentry)
  exact find_enumerates files opts ".".toList ⟨htree, hfixed, rfl⟩ (by decide +kernel)

end

end AmlaSandbox.Commands.Find
