import AmlaSandbox.Vfs.Basic

/-!
# Names on a normalised path

A normalised path is made of names, and normalising it once more only looks at the last one.
-/

namespace AmlaSandbox.Vfs

variable {path p q name last : Text} {names parts : List Text}

/-! ### Names of normalised paths -/

/-- A name that a component of a path can have. -/
structure IsComponent (name : Text) : Prop where
  normal : component? name = some (.normal name)
  noSlash : '/' ∉ name
  noNul : Char.ofNat 0 ∉ name

lemma IsComponent.isName (h : IsComponent name) : IsName name := by
  refine ⟨?_, h.noSlash⟩
  rintro rfl
  exact absurd h.normal (by decide)

lemma isComponent_iff : IsComponent name ↔
    name ≠ [] ∧ name ≠ ['.'] ∧ name ≠ ['.', '.'] ∧ '/' ∉ name ∧ Char.ofNat 0 ∉ name := by
  have hnormal : component? name = some (.normal name) ↔
      name ≠ [] ∧ name ≠ ['.'] ∧ name ≠ ['.', '.'] := by
    unfold component?
    split_ifs with hskip hparent
    · simp only [false_iff]
      rintro ⟨hnil, hdot, _⟩
      exact hskip.elim hnil hdot
    · simp [hparent]
    · simp [not_or.mp hskip, hparent]
  constructor
  · intro h
    obtain ⟨hnil, hdot, hdots⟩ := hnormal.mp h.normal
    exact ⟨hnil, hdot, hdots, h.noSlash, h.noNul⟩
  · rintro ⟨hnil, hdot, hdots, hslash, hnul⟩
    exact ⟨hnormal.mpr ⟨hnil, hdot, hdots⟩, hslash, hnul⟩

lemma isComponent_of_normalizeComponents {cs : List Component}
    (h : normalizeComponents path names cs = .ok parts) (hnames : ∀ name ∈ names, IsComponent name)
    (hcs : ∀ name, .normal name ∈ cs → component? name = some (.normal name) ∧ '/' ∉ name) :
    ∀ name ∈ parts, IsComponent name := by
  induction cs generalizing names with
  | nil =>
    obtain rfl := Except.ok.inj h
    exact hnames
  | cons c cs ih =>
    have hcs' : ∀ name, .normal name ∈ cs → component? name = some (.normal name) ∧ '/' ∉ name :=
      fun name hmem => hcs name (List.mem_cons_of_mem _ hmem)
    cases c with
    | rootDir => exact ih h hnames hcs'
    | curDir => exact ih h hnames hcs'
    | parentDir =>
      simp only [normalizeComponents] at h
      split_ifs at h
      exact ih h (fun name hmem => hnames name (List.dropLast_subset _ hmem)) hcs'
    | normal name =>
      simp only [normalizeComponents] at h
      split_ifs at h with hnul
      refine ih h (fun n hmem => ?_) hcs'
      rcases List.mem_append.mp hmem with hmem | hmem
      · exact hnames n hmem
      · obtain rfl := List.mem_singleton.mp hmem
        obtain ⟨hnormal, hslash⟩ := hcs n List.mem_cons_self
        exact ⟨hnormal, hslash, hnul⟩

lemma component_of_mem_components (h : .normal name ∈ components path) :
    component? name = some (.normal name) ∧ '/' ∉ name := by
  refine ⟨?_, (isName_of_mem_components h).2⟩
  unfold components at h
  rcases List.mem_append.mp h with hfirst | hbody
  · split_ifs at hfirst <;> simp at hfirst
  · obtain ⟨part, _, hname⟩ := List.mem_filterMap.mp hbody
    have hpart := hname
    unfold component? at hname
    split_ifs at hname with hskip hparent
    · cases hname
    · obtain rfl := Component.normal.inj (Option.some.inj hname)
      exact hpart

/-- A normalised path consists of names. -/
theorem exists_names_of_normalizePath (h : normalizePath path = .ok p) :
    ∃ names, (∀ name ∈ names, IsComponent name) ∧ p = ofNames names := by
  unfold normalizePath at h
  simp only at h
  split_ifs at h with hroot
  · exact ⟨[], by simp, (Except.ok.inj h).symm⟩
  · split at h
    · cases h
    · exact ⟨[], by simp, (Except.ok.inj h).symm⟩
    · rename_i names hne hnames
      refine ⟨names, ?_, ?_⟩
      · exact isComponent_of_normalizeComponents hnames (by simp)
          fun _ => component_of_mem_components
      · rw [ofNames_of_ne_nil (by simpa using hne), ← cons_intercalate (by simpa using hne)]
        exact (Except.ok.inj h).symm

/-- The parts of a path of names, of which the last may be anything without a slash. -/
lemma splitOn_intercalate_append (hnames : ∀ name ∈ names, '/' ∉ name) (hlast : '/' ∉ last) :
    (['/'].intercalate (names ++ [last])).splitOn '/' = names ++ [last] := by
  apply List.splitOn_intercalate
  · intro part hpart
    rcases List.mem_append.mp hpart with hpart | hpart
    · exact hnames part hpart
    · obtain rfl := List.mem_singleton.mp hpart
      exact hlast
  · simp

lemma slashed_append_cons : slashed names ++ '/' :: last =
    '/' :: ['/'].intercalate (names ++ [last]) := by
  rw [cons_intercalate (by simp)]
  simp

/-- Behind a slash at the front, trimming only shortens the end. -/
lemma trim_front {front : Text} (hfront : ∀ c ∈ front.head?, c = '/') (last : Text) :
    (front ++ '/' :: last).trim = front ++ '/' :: last.rdropWhile Text.isWhitespace := by
  have hslash : Text.isWhitespace '/' = false := by decide
  have hlead : (front ++ '/' :: last).dropWhile Text.isWhitespace = front ++ '/' :: last := by
    cases front with
    | nil => exact List.dropWhile_cons_of_neg (by simp [hslash])
    | cons c front =>
      obtain rfl := hfront c rfl
      exact List.dropWhile_cons_of_neg (by simp [hslash])
  rw [Text.trim, hlead, List.rdropWhile, List.reverse_append, List.reverse_cons,
    List.append_assoc, List.dropWhile_append]
  split_ifs with hempty
  · rw [List.isEmpty_iff] at hempty
    simp [List.rdropWhile, hempty, hslash]
  · simp [List.rdropWhile]

/-- Trimming a path of names only shortens its last name. -/
lemma trim_slashed (names : List Text) (last : Text) :
    (slashed names ++ '/' :: last).trim =
      slashed names ++ '/' :: last.rdropWhile Text.isWhitespace := by
  apply trim_front
  cases names <;> simp

lemma splitLead_slash (body : Text) : splitLead ('/' :: body) = (['/'], body) := rfl

lemma components_slashed (hnames : ∀ name ∈ names, IsComponent name) (hlast : '/' ∉ last) :
    components (slashed names ++ '/' :: last) =
      .rootDir :: (names.map .normal ++ (component? last).toList) := by
  have hmap : names.filterMap component? = names.map .normal := by
    induction names with
    | nil => rfl
    | cons name names ih =>
      rw [List.filterMap_cons, (hnames name List.mem_cons_self).normal, List.map_cons,
        ih fun n hn => hnames n (List.mem_cons_of_mem _ hn)]
  rw [slashed_append_cons]
  simp only [components, splitLead_slash]
  rw [splitOn_intercalate_append (fun name hname => (hnames name hname).noSlash) hlast,
    List.filterMap_append, hmap]
  cases h : component? last <;> simp [h]

lemma normalizeComponents_normal (hnames : ∀ name ∈ names, IsComponent name) (parts : List Text)
    (rest : List Component) : normalizeComponents path parts (names.map .normal ++ rest) =
      normalizeComponents path (parts ++ names) rest := by
  induction names generalizing parts with
  | nil => simp
  | cons name names ih =>
    have hnul := (hnames name List.mem_cons_self).noNul
    simp only [List.map_cons, List.cons_append, normalizeComponents, if_neg hnul]
    rw [ih fun n hn => hnames n (List.mem_cons_of_mem _ hn)]
    simp

lemma ofNames_eq_of_match {result : Except VfsError (List Text)} (h : (match result with
      | .error e => .error e
      | .ok [] => .ok root
      | .ok names => .ok ('/' :: ['/'].intercalate names)) = (.ok p : Except VfsError Text)) :
    ∃ names, result = .ok names ∧ p = ofNames names := by
  split at h
  · cases h
  · exact ⟨[], rfl, (Except.ok.inj h).symm⟩
  · rename_i names hne
    refine ⟨names, rfl, ?_⟩
    rw [ofNames_of_ne_nil (by simpa using hne), ← cons_intercalate (by simpa using hne)]
    exact (Except.ok.inj h).symm

/-- Normalising a normalised path again may trim its last name, and so drop it or go up by one. -/
theorem normalizePath_ofNames (hnames : ∀ name ∈ names, IsComponent name) (hlast : '/' ∉ last)
    (h : normalizePath (ofNames (names ++ [last])) = .ok p) :
    p = ofNames names ∨ p = ofNames names.dropLast ∨
      p = ofNames (names ++ [last.rdropWhile Text.isWhitespace]) := by
  rw [ofNames_concat, normalizePath, trim_slashed] at h
  generalize hx : last.rdropWhile Text.isWhitespace = x at h ⊢
  have hslash : '/' ∉ x := by
    intro hmem
    rw [← hx] at hmem
    exact hlast (List.rdropWhile_prefix _ _ |>.mem hmem)
  split_ifs at h with hroot
  · obtain rfl := Except.ok.inj h
    left
    rcases hroot with hnil | hroot
    · simp at hnil
    · cases names with
      | nil => rfl
      | cons name names =>
        have hlen := congrArg List.length hroot
        have hpos : 0 < name.length :=
          List.length_pos_of_ne_nil (hnames name List.mem_cons_self).isName.1
        simp [root] at hlen
  · obtain ⟨names', hnames', rfl⟩ := ofNames_eq_of_match h
    rw [components_slashed hnames hslash, normalizeComponents, normalizeComponents_normal hnames,
      List.nil_append] at hnames'
    unfold component? at hnames'
    split_ifs at hnames' with hskip hparent
    · obtain rfl := Except.ok.inj hnames'
      exact .inl rfl
    · simp only [Option.toList_some, normalizeComponents] at hnames'
      split_ifs at hnames'
      obtain rfl := Except.ok.inj hnames'
      exact .inr (.inl rfl)
    · simp only [Option.toList_some, normalizeComponents] at hnames'
      split_ifs at hnames'
      obtain rfl := Except.ok.inj hnames'
      exact .inr (.inr rfl)

/-- A path of names stays as it is, unless the last one ends in a blank. -/
lemma normalizePath_of_components (hnames : ∀ name ∈ names, IsComponent name)
    (hlast : IsComponent last) (htrim : last.rdropWhile Text.isWhitespace = last) :
    normalizePath (ofNames (names ++ [last])) = .ok (ofNames (names ++ [last])) := by
  have hroot : ¬ (slashed names ++ '/' :: last = [] ∨ slashed names ++ '/' :: last = root) := by
    rintro (hnil | hroot)
    · simp at hnil
    · exact slashed_append_ne_root hlast.isName.1 hroot
  rw [ofNames_concat, normalizePath, trim_slashed, htrim]
  simp only [if_neg hroot]
  rw [components_slashed hnames hlast.noSlash, hlast.normal, normalizeComponents,
    normalizeComponents_normal hnames]
  simp only [Option.toList_some, normalizeComponents, if_neg hlast.noNul, List.nil_append]
  rw [slashed_append_cons]
  cases names <;> rfl

/-- Names make a normalised path, whatever they end in. -/
lemma exists_normalizePath_eq (hnames : ∀ name ∈ names, IsComponent name) :
    ∃ raw, normalizePath raw = .ok (ofNames names) := by
  cases names using List.reverseRecOn with
  | nil => exact ⟨root, rfl⟩
  | append_singleton front last =>
    have hne : front ++ [last] ≠ [] := by simp
    generalize front ++ [last] = names at hnames hne
    refine ⟨slashed names ++ ['/', '.'], ?_⟩
    have hroot : ¬ (slashed names ++ ['/', '.'] = [] ∨ slashed names ++ ['/', '.'] = root) := by
      rintro (hnil | hroot)
      · simp at hnil
      · exact slashed_append_ne_root (by simp) hroot
    rw [normalizePath, trim_slashed]
    simp only [List.rdropWhile_singleton, if_neg (show ¬ Text.isWhitespace '.' by decide),
      if_neg hroot]
    rw [components_slashed hnames (by decide), normalizeComponents,
      normalizeComponents_normal hnames, List.nil_append, ofNames_of_ne_nil hne,
      ← cons_intercalate hne]
    cases names with
    | nil => exact absurd rfl hne
    | cons name names => rfl

/-! ### Parts -/

lemma parts_ofNames (hnames : ∀ name ∈ names, IsName name) : Vfs.parts (ofNames names) = names := by
  cases names using List.reverseRecOn with
  | nil => rfl
  | append_singleton names last =>
    have hslash : ∀ name ∈ names, '/' ∉ name :=
      fun name hname => (hnames name (List.mem_append_left _ hname)).2
    have hlast : '/' ∉ last := (hnames last (by simp)).2
    rw [ofNames_concat, slashed_append_cons, Vfs.parts, List.splitOn_cons_eq_if_modifyHead,
      if_pos (by simp), splitOn_intercalate_append hslash hlast, List.filter_cons, if_neg (by simp),
      List.filter_eq_self]
    intro name hname
    simpa using (hnames name hname).1

/-- Different names make different paths. -/
lemma ofNames_inj (hnames : ∀ name ∈ names, IsName name) (hparts : ∀ name ∈ parts, IsName name)
    (h : ofNames names = ofNames parts) : names = parts := by
  rw [← parts_ofNames hnames, ← parts_ofNames hparts, h]

/-- The paths of the directories that `insertParts` passes. -/
def dirsTo : Text → List Text → List Text
  | _, [] => []
  | current, part :: parts => (current ++ '/' :: part) :: dirsTo (current ++ '/' :: part) parts

lemma exists_of_mem_dirsTo {current : Text} (h : q ∈ dirsTo current parts) :
    ∃ names, names ≠ [] ∧ names <+: parts ∧ q = current ++ slashed names := by
  induction parts generalizing current with
  | nil => simp [dirsTo] at h
  | cons part parts ih =>
    rw [dirsTo, List.mem_cons] at h
    rcases h with rfl | h
    · exact ⟨[part], by simp, ⟨parts, rfl⟩, by simp⟩
    · obtain ⟨names, _, hprefix, rfl⟩ := ih h
      exact ⟨part :: names, by simp, List.prefix_cons_inj part |>.mpr hprefix, by simp⟩

lemma mem_dirsTo (hne : parts ≠ []) (current : Text) :
    current ++ slashed parts ∈ dirsTo current parts := by
  induction parts generalizing current with
  | nil => exact absurd rfl hne
  | cons part parts ih =>
    rw [dirsTo, List.mem_cons]
    cases parts with
    | nil => exact .inl (by simp)
    | cons next parts =>
      have hnext := ih (by simp) (current ++ '/' :: part)
      rw [List.append_assoc] at hnext
      exact .inr hnext

end AmlaSandbox.Vfs
