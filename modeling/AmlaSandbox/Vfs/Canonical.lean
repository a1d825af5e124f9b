import AmlaSandbox.Vfs.AsyncVfs
import AmlaSandbox.Vfs.Names

/-!
# Canonical paths

A path is normalised by resolving its parts from left to right. Both implementations do this, with
different texts for an error, and a path that they return is one that normalisation leaves alone
unless its last name ends in a blank.
-/

namespace AmlaSandbox.Vfs

/-! ### Resolving parts -/

inductive Rejection
  | escapesRoot
  | nul
deriving DecidableEq

/-- What becomes of the parts between slashes, after the names that are there already. -/
def resolve (names : List Text) : List Text → Except Rejection (List Text)
  | [] => .ok names
  | part :: parts =>
    match component? part with
    | some .parentDir =>
      if names = [] then .error .escapesRoot else resolve names.dropLast parts
    | some (.normal name) =>
      if Char.ofNat 0 ∈ name then .error .nul else resolve (names ++ [name]) parts
    | some .rootDir | some .curDir | none => resolve names parts

/-- The parts of a path that is normalised. -/
def partsOf (path : Text) : List Text := path.trim.splitOn '/'

/-- At some part the way up was longer than the way down, by more than `depth`. -/
def Escapes (depth : ℕ) (parts : List Text) : Prop :=
  ∃ before, before <+: parts ∧
    depth + before.countP (fun part => component? part = some (.normal part)) <
      before.countP fun part => component? part = some .parentDir

/-- Parts that cancel out: after them one is where one was before. -/
inductive Cancels : List Text → Prop
  | nil : Cancels []
  | skip {part : Text} {parts : List Text} : component? part = none → Cancels parts →
    Cancels (part :: parts)
  | up {name up : Text} {inner parts : List Text} : component? name = some (.normal name) →
    Cancels inner → component? up = some .parentDir → Cancels parts →
    Cancels (name :: (inner ++ up :: parts))

def rejectionText (nul : String) (path : Text) : Rejection → VfsError
  | .escapesRoot => .invalidPath ("path escapes root: ".toList ++ path)
  | .nul => .invalidPath (nul.toList ++ path)

variable {path p q part name last : Text} {names names' parts rest before after : List Text}
variable {r : Rejection} {n : ℕ}

lemma component?_cases (part : Text) : component? part = none ∨
    component? part = some .parentDir ∨ component? part = some (.normal part) := by
  unfold component?
  split_ifs
  · exact .inl rfl
  · exact .inr (.inl rfl)
  · exact .inr (.inr rfl)

lemma resolve_skip (h : component? part = none) :
    resolve names (part :: parts) = resolve names parts := by
  rw [resolve, h]

lemma resolve_up (h : component? part = some .parentDir) :
    resolve names (part :: parts) =
      if names = [] then .error .escapesRoot else resolve names.dropLast parts := by
  rw [resolve, h]

lemma resolve_name (h : component? part = some (.normal part)) :
    resolve names (part :: parts) =
      if Char.ofNat 0 ∈ part then .error .nul else resolve (names ++ [part]) parts := by
  rw [resolve, h]

/-! ### The two implementations -/

lemma normalizeComponents_eq (path : Text) (names parts : List Text) :
    normalizeComponents path names (parts.filterMap component?) =
      (resolve names parts).mapError (rejectionText "invalid characters in path: " path) := by
  induction parts generalizing names with
  | nil => rfl
  | cons part parts ih =>
    rcases component?_cases part with h | h | h
    · rw [List.filterMap_cons_none h, resolve_skip h, ih]
    · rw [List.filterMap_cons_some h, resolve_up h, normalizeComponents]
      split_ifs
      · rfl
      · exact ih _
    · rw [List.filterMap_cons_some h, resolve_name h, normalizeComponents]
      split_ifs
      · rfl
      · exact ih _

lemma splitLead_cases (text : Text) : (∃ body, text = '/' :: body) ∨ text = ['.'] ∨
    (∃ body, text = '.' :: '/' :: body) ∨ splitLead text = ([], text) := by
  unfold splitLead
  split
  · exact .inl ⟨_, rfl⟩
  · exact .inr (.inl rfl)
  · exact .inr (.inr (.inl ⟨_, rfl⟩))
  · exact .inr (.inr (.inr rfl))

/-- The components are the parts, but for a start that is skipped. -/
lemma normalizeComponents_components (path text : Text) :
    normalizeComponents path [] (components text) =
      (resolve [] (text.splitOn '/')).mapError
        (rejectionText "invalid characters in path: " path) := by
  have hslash : ∀ body : Text, ('/' :: body).splitOn '/' = [] :: body.splitOn '/' := fun body => by
    rw [List.splitOn_cons_eq_if_modifyHead, if_pos (by simp)]
  rcases splitLead_cases text with ⟨body, rfl⟩ | rfl | ⟨body, rfl⟩ | hlead
  · rw [hslash, resolve_skip rfl]
    exact normalizeComponents_eq path [] _
  · rfl
  · have hdot : ('.' :: '/' :: body).splitOn '/' = ['.'] :: body.splitOn '/' := by
      rw [List.splitOn_cons_eq_if_modifyHead, if_neg (by simp), hslash]
      rfl
    have hcomponents : components ('.' :: '/' :: body) =
        .curDir :: (([] :: body.splitOn '/').filterMap component?) := by
      rw [← hslash]
      rfl
    rw [hdot, resolve_skip rfl, hcomponents, normalizeComponents, normalizeComponents_eq,
      resolve_skip rfl]
  · have hcomponents : components text = (text.splitOn '/').filterMap component? := by
      simp [components, hlead]
    rw [hcomponents, normalizeComponents_eq]

lemma normalizeParts_eq (path : Text) (names parts : List Text) :
    AsyncVfs.normalizeParts path names parts =
      (resolve names parts).mapError (rejectionText "null byte in path: " path) := by
  induction parts generalizing names with
  | nil => rfl
  | cons part parts ih =>
    rw [AsyncVfs.normalizeParts]
    split_ifs with hskip hup hnames hnul
    · rw [resolve_skip (if_pos hskip), ih]
    · have hpart : component? part = some .parentDir := by rw [component?, if_neg hskip, if_pos hup]
      rw [resolve_up hpart, if_pos hnames]
      rfl
    · have hpart : component? part = some .parentDir := by rw [component?, if_neg hskip, if_pos hup]
      rw [resolve_up hpart, if_neg hnames, ih]
    · have hpart : component? part = some (.normal part) := by
        rw [component?, if_neg hskip, if_neg hup]
      rw [resolve_name hpart, if_pos hnul]
      rfl
    · have hpart : component? part = some (.normal part) := by
        rw [component?, if_neg hskip, if_neg hup]
      rw [resolve_name hpart, if_neg hnul, ih]

/-- The last step, which puts the slashes back. -/
lemma join_eq {result : Except VfsError (List Text)} : (match result with
      | .error e => .error e
      | .ok [] => .ok root
      | .ok names => .ok ('/' :: ['/'].intercalate names)) = result.map ofNames := by
  split
  · rfl
  · rfl
  · rename_i names hne
    have hnames : names ≠ [] := by simpa using hne
    rw [cons_intercalate hnames, Except.map, ofNames_of_ne_nil hnames]

lemma resolve_of_root (h : path = [] ∨ path = root) : resolve [] (path.splitOn '/') = .ok [] := by
  rcases h with rfl | rfl
  · rfl
  · rfl

lemma normalizePath_eq (path : Text) : normalizePath path =
    ((resolve [] (partsOf path)).mapError
      (rejectionText "invalid characters in path: " path.trim)).map ofNames := by
  rw [normalizePath, partsOf]
  split_ifs with hroot
  · rw [resolve_of_root hroot]
    rfl
  · exact join_eq.trans (congrArg _ (normalizeComponents_components _ _))

lemma asyncNormalizePath_eq (path : Text) : AsyncVfs.normalizePath path =
    ((resolve [] (partsOf path)).mapError
      (rejectionText "null byte in path: " path.trim)).map ofNames := by
  rw [AsyncVfs.normalizePath, partsOf]
  split_ifs with hroot
  · rw [resolve_of_root hroot]
    rfl
  · exact join_eq.trans (congrArg _ (normalizeParts_eq _ _ _))

lemma normalizePath_eq_ok : normalizePath path = .ok q ↔
    ∃ names, resolve [] (partsOf path) = .ok names ∧ q = ofNames names := by
  rw [normalizePath_eq]
  cases resolve [] (partsOf path) with
  | error r => simp [Except.mapError, Except.map]
  | ok names => simp [Except.mapError, Except.map, eq_comm]

/-- The two differ exactly in the text about a NUL. -/
lemma asyncNormalizePath_eq_iff (path : Text) :
    AsyncVfs.normalizePath path = normalizePath path ↔ resolve [] (partsOf path) ≠ .error .nul := by
  rw [asyncNormalizePath_eq, normalizePath_eq]
  cases resolve [] (partsOf path) with
  | error r =>
    cases r with
    | escapesRoot => simp [Except.mapError, Except.map, rejectionText]
    | nul => simp [Except.mapError, Except.map, rejectionText]
  | ok names => simp [Except.mapError, Except.map]

/-! ### Paths that are rejected -/

lemma not_escapes_nil : ¬ Escapes n [] := by
  rintro ⟨before, hbefore, hlt⟩
  rw [List.prefix_nil.mp hbefore] at hlt
  simp at hlt

lemma Escapes.append (h : Escapes n before) : Escapes n (before ++ after) := by
  obtain ⟨start, hstart, hlt⟩ := h
  exact ⟨start, hstart.trans (List.prefix_append before after), hlt⟩

lemma escapes_cons_iff : Escapes n (part :: parts) ↔ ∃ before, before <+: parts ∧
    n + (part :: before).countP (fun part => component? part = some (.normal part)) <
      (part :: before).countP fun part => component? part = some .parentDir := by
  constructor
  · rintro ⟨before, hbefore, hlt⟩
    rcases List.prefix_cons_iff.mp hbefore with rfl | ⟨rest, rfl, hrest⟩
    · simp at hlt
    · exact ⟨rest, hrest, hlt⟩
  · rintro ⟨before, hbefore, hlt⟩
    exact ⟨part :: before, List.prefix_cons_inj part |>.mpr hbefore, hlt⟩

lemma escapes_skip (h : component? part = none) : Escapes n (part :: parts) ↔ Escapes n parts := by
  rw [escapes_cons_iff]
  simp [Escapes, h]

lemma escapes_name (h : component? part = some (.normal part)) :
    Escapes n (part :: parts) ↔ Escapes (n + 1) parts := by
  rw [escapes_cons_iff]
  simp only [List.countP_cons, h, decide_true, if_true, Option.some.injEq, reduceCtorEq,
    decide_false, Bool.false_eq_true, if_false, Nat.add_zero, Escapes]
  simp only [Nat.add_assoc, Nat.add_comm 1]

lemma escapes_up (h : component? part = some .parentDir) :
    Escapes n (part :: parts) ↔ n = 0 ∨ Escapes (n - 1) parts := by
  rw [escapes_cons_iff]
  simp only [List.countP_cons, h, decide_true, if_true, Option.some.injEq, reduceCtorEq,
    decide_false, Bool.false_eq_true, if_false, Nat.add_zero, Escapes]
  constructor
  · rintro ⟨before, hbefore, hlt⟩
    rcases Nat.eq_zero_or_pos n with hn | hn
    · exact .inl hn
    · exact .inr ⟨before, hbefore, by omega⟩
  · rintro (rfl | ⟨before, hbefore, hlt⟩)
    · exact ⟨[], List.nil_prefix, by simp⟩
    · exact ⟨before, hbefore, by omega⟩

lemma not_nul_of_skip (h : component? part = none) : Char.ofNat 0 ∉ part := by
  unfold component? at h
  split_ifs at h with hskip
  rcases hskip with rfl | rfl <;> decide

lemma not_nul_of_up (h : component? part = some .parentDir) : Char.ofNat 0 ∉ part := by
  unfold component? at h
  split_ifs at h with hskip hup
  · rw [hup]
    decide
  · cases h

/-- Where a list is cut, its head is the element or comes before it. -/
lemma exists_cut_cons_iff {α : Type} {a : α} {l : List α} {P : α → Prop} {Q : List α → Prop} :
    (∃ before b after, a :: l = before ++ b :: after ∧ P b ∧ Q before) ↔
      P a ∧ Q [] ∨ ∃ before b after, l = before ++ b :: after ∧ P b ∧ Q (a :: before) := by
  constructor
  · rintro ⟨before, b, after, heq, hP, hQ⟩
    cases before with
    | nil =>
      obtain ⟨rfl, rfl⟩ := List.cons.inj heq
      exact .inl ⟨hP, hQ⟩
    | cons c before =>
      obtain ⟨rfl, rfl⟩ := List.cons.inj heq
      exact .inr ⟨before, b, after, rfl, hP, hQ⟩
  · rintro (⟨hP, hQ⟩ | ⟨before, b, after, rfl, hP, hQ⟩)
    · exact ⟨[], a, l, rfl, hP, hQ⟩
    · exact ⟨a :: before, b, after, rfl, hP, hQ⟩

/-- A NUL is reported if it comes before the path escapes. -/
lemma resolve_eq_nul_iff : resolve names parts = .error .nul ↔
    ∃ before part after, parts = before ++ part :: after ∧ Char.ofNat 0 ∈ part ∧
      ¬ Escapes names.length before := by
  induction parts generalizing names with
  | nil => simp [resolve]
  | cons part parts ih =>
    rw [exists_cut_cons_iff]
    rcases component?_cases part with h | h | h
    · rw [resolve_skip h, ih]
      simp only [not_nul_of_skip h, escapes_skip h, false_and, false_or]
    · rw [resolve_up h]
      simp only [not_nul_of_up h, escapes_up h, false_and, false_or, List.length_eq_zero_iff,
        not_or]
      split_ifs with hnames
      · simp [hnames]
      · rw [ih, List.length_dropLast]
        simp [hnames]
    · rw [resolve_name h]
      simp only [escapes_name h, not_escapes_nil, not_false_eq_true, and_true]
      split_ifs with hnul
      · simp [hnul]
      · rw [ih, List.length_append]
        simp [hnul]

lemma not_escapes_of_resolve (h : resolve names parts = .ok names') :
    ¬ Escapes names.length parts := by
  induction parts generalizing names with
  | nil => exact not_escapes_nil
  | cons part parts ih =>
    rcases component?_cases part with hpart | hpart | hpart
    · rw [resolve_skip hpart] at h
      rw [escapes_skip hpart]
      exact ih h
    · rw [resolve_up hpart] at h
      split_ifs at h with hnames
      rw [escapes_up hpart, List.length_eq_zero_iff]
      rintro (hnil | hescapes)
      · exact hnames hnil
      · exact ih h (by rwa [List.length_dropLast])
    · rw [resolve_name hpart] at h
      split_ifs at h
      rw [escapes_name hpart]
      simpa using ih h

lemma exists_resolve (hnul : ∀ part ∈ parts, Char.ofNat 0 ∉ part)
    (h : ¬ Escapes names.length parts) : ∃ names', resolve names parts = .ok names' := by
  induction parts generalizing names with
  | nil => exact ⟨names, rfl⟩
  | cons part parts ih =>
    obtain ⟨hpartnul, hrestnul⟩ := List.forall_mem_cons.mp hnul
    rcases component?_cases part with hpart | hpart | hpart
    · rw [escapes_skip hpart] at h
      rw [resolve_skip hpart]
      exact ih hrestnul h
    · rw [escapes_up hpart, List.length_eq_zero_iff, not_or] at h
      rw [resolve_up hpart, if_neg h.1]
      exact ih hrestnul (by rw [List.length_dropLast]; exact h.2)
    · rw [escapes_name hpart] at h
      rw [resolve_name hpart, if_neg hpartnul]
      exact ih hrestnul (by simpa using h)

/-! ### Parts that cancel out -/

lemma resolve_append (h : resolve names before = .ok names') :
    resolve names (before ++ after) = resolve names' after := by
  induction before generalizing names with
  | nil =>
    obtain rfl := Except.ok.inj h
    rfl
  | cons part before ih =>
    rw [List.cons_append]
    rcases component?_cases part with hpart | hpart | hpart
    · rw [resolve_skip hpart] at h ⊢
      exact ih h
    · rw [resolve_up hpart] at h ⊢
      split_ifs at h ⊢
      exact ih h
    · rw [resolve_name hpart] at h ⊢
      split_ifs at h ⊢
      exact ih h

/-- A path of which all is resolved is resolved in two steps. -/
lemma exists_resolve_of_append (h : resolve names (before ++ after) = .ok rest) :
    ∃ names', resolve names before = .ok names' ∧ resolve names' after = .ok rest := by
  induction before generalizing names with
  | nil => exact ⟨names, rfl, h⟩
  | cons part before ih =>
    rw [List.cons_append] at h
    rcases component?_cases part with hpart | hpart | hpart
    · rw [resolve_skip hpart] at h ⊢
      exact ih h
    · rw [resolve_up hpart] at h ⊢
      split_ifs at h ⊢
      exact ih h
    · rw [resolve_name hpart] at h ⊢
      split_ifs at h ⊢
      exact ih h

namespace Cancels

lemma append (h : Cancels before) (h' : Cancels after) : Cancels (before ++ after) := by
  induction h with
  | nil => exact h'
  | skip hpart _ ih => exact .skip hpart ih
  | up hname hinner hup _ _ ih =>
    rw [List.cons_append, List.append_assoc, List.cons_append]
    exact .up hname hinner hup ih

/-- Parts that cancel out leave the names as they are. -/
lemma resolve_eq (h : Cancels parts) (hnul : ∀ part ∈ parts, Char.ofNat 0 ∉ part) :
    resolve names parts = .ok names := by
  induction h generalizing names with
  | nil => rfl
  | skip hpart _ ih =>
    rw [resolve_skip hpart]
    exact ih (List.forall_mem_cons.mp hnul).2
  | up hname _ hup _ ihinner ih =>
    obtain ⟨hnamenul, hrest⟩ := List.forall_mem_cons.mp hnul
    rw [List.forall_mem_append] at hrest
    rw [resolve_name hname, if_neg hnamenul, resolve_append (ihinner hrest.1), resolve_up hup,
      if_neg (by simp), List.dropLast_concat]
    exact ih (List.forall_mem_cons.mp hrest.2).2

end Cancels

/-- The last name that remains is followed by parts that cancel out. -/
lemma exists_cut_of_resolve (h : resolve [] parts = .ok (names ++ [last])) :
    ∃ before after, parts = before ++ last :: after ∧ component? last = some (.normal last) ∧
      Cancels after ∧ resolve [] before = .ok names := by
  induction hlength : parts.length using Nat.strong_induction_on generalizing parts names last with
  | _ length ih =>
    cases parts using List.reverseRecOn with
    | nil => simp [resolve] at h
    | append_singleton parts part =>
      obtain ⟨names', hnames', hpart⟩ := exists_resolve_of_append h
      have hshort : parts.length < length := by
        rw [← hlength]
        simp
      rcases component?_cases part with hskip | hup | hname
      · rw [resolve_skip hskip] at hpart
        obtain rfl := Except.ok.inj hpart
        obtain ⟨before, after, rfl, hlast, hafter, hbefore⟩ := ih _ hshort hnames' rfl
        exact ⟨before, after ++ [part], by simp, hlast, hafter.append (.skip hskip .nil), hbefore⟩
      · -- one name is dropped, and before it stands the last one that remains
        rw [resolve_up hup] at hpart
        split_ifs at hpart with hne
        have hdrop : names'.dropLast = names ++ [last] := Except.ok.inj hpart
        have hsplit : names' = (names ++ [last]) ++ [names'.getLast hne] := by
          rw [← hdrop, List.dropLast_append_getLast]
        rw [hsplit] at hnames'
        obtain ⟨before, after, rfl, hname, hafter, hbefore⟩ := ih _ hshort hnames' rfl
        have hshorter : before.length < length := Nat.lt_of_le_of_lt (by simp) hshort
        obtain ⟨before', after', rfl, hlast, hafter', hbefore'⟩ := ih _ hshorter hbefore rfl
        exact ⟨before', after' ++ names'.getLast hne :: (after ++ [part]), by simp, hlast,
          hafter'.append (.up hname hafter hup .nil), hbefore'⟩
      · rw [resolve_name hname] at hpart
        split_ifs at hpart
        obtain ⟨rfl, hlast⟩ := List.append_inj' (Except.ok.inj hpart) rfl
        obtain rfl := List.singleton_inj.mp hlast
        exact ⟨parts, [], rfl, hname, .nil, hnames'⟩

/-! ### What normalisation returns -/

def EndsInBlank (name : Text) : Prop := ∃ c ∈ name.getLast?, Text.isWhitespace c

/-- What is returned is canonical, normalisation leaves it alone, and both implementations agree. -/
structure Normalizes (path : Text) : Prop where
  canonical : ∀ q, normalizePath path = .ok q → ∃ names, q = ofNames names ∧
    ∀ name ∈ names, IsName name ∧ name ≠ ['.'] ∧ name ≠ ['.', '.'] ∧ Char.ofNat 0 ∉ name
  idempotent : ∀ q, normalizePath path = .ok q → normalizePath q = .ok q
  agrees : AsyncVfs.normalizePath path = normalizePath path

/-- Before a NUL the path escapes from the root, and unless it does, a name that ends in a blank is
followed by more than parts that cancel out. -/
structure Tidy (path : Text) : Prop where
  nul : ∀ before part after, partsOf path = before ++ part :: after → Char.ofNat 0 ∈ part →
    Escapes 0 before
  blank : ¬ Escapes 0 (partsOf path) → ∀ before name after,
    partsOf path = before ++ name :: after → component? name = some (.normal name) →
      EndsInBlank name → ¬ Cancels after

lemma rdropWhile_eq_self_iff : name.rdropWhile Text.isWhitespace = name ↔ ¬ EndsInBlank name := by
  rw [List.rdropWhile_eq_self_iff]
  constructor
  · rintro h ⟨c, hc, hblank⟩
    obtain ⟨hne, rfl⟩ := List.mem_getLast?_eq_getLast hc
    exact h hne hblank
  · intro h hne hblank
    exact h ⟨_, List.getLast?_eq_some_getLast hne, hblank⟩

lemma not_nul_of_tidy (hnul : ∀ before part after, partsOf path = before ++ part :: after →
    Char.ofNat 0 ∈ part → Escapes 0 before) (h : ¬ Escapes 0 (partsOf path)) :
    ∀ part ∈ partsOf path, Char.ofNat 0 ∉ part := by
  intro part hmem hpart
  obtain ⟨before, after, hsplit⟩ := List.append_of_mem hmem
  exact h (hsplit ▸ (hnul before part after hsplit hpart).append)

lemma length_ofNames_concat (names : List Text) (last : Text) :
    (ofNames (names ++ [last])).length = (slashed names).length + 1 + last.length := by
  simp [ofNames_of_ne_nil, Nat.add_assoc, Nat.add_comm]

/-- A path whose last name ends in a blank is not left alone. -/
lemma not_endsInBlank (hnames : ∀ name ∈ names, IsComponent name) (hlast : IsComponent last)
    (h : normalizePath (ofNames (names ++ [last])) = .ok (ofNames (names ++ [last]))) :
    ¬ EndsInBlank last := by
  rw [← rdropWhile_eq_self_iff]
  have hisName : ∀ name ∈ names, IsName name := fun name hname => (hnames name hname).isName
  have hall : ∀ name ∈ names ++ [last], IsName name := by
    intro name hname
    rcases List.mem_append.mp hname with hname | hname
    · exact hisName name hname
    · obtain rfl := List.mem_singleton.mp hname
      exact hlast.isName
  rcases normalizePath_ofNames hnames hlast.noSlash h with heq | heq | heq
  · have hlength := congrArg List.length (ofNames_inj hall hisName heq)
    simp at hlength
  · have hdrop : ∀ name ∈ names.dropLast, IsName name := fun name hname =>
      hisName name (List.dropLast_subset _ hname)
    have hlength := congrArg List.length (ofNames_inj hall hdrop heq)
    rw [List.length_append, List.length_singleton, List.length_dropLast] at hlength
    omega
  · have hlength := congrArg List.length heq
    rw [length_ofNames_concat, length_ofNames_concat] at hlength
    exact List.IsPrefix.eq_of_length (List.rdropWhile_prefix _ _) (by omega)

lemma not_nul_of_resolve (h : resolve names parts = .ok names') :
    ∀ part ∈ parts, Char.ofNat 0 ∉ part := by
  induction parts generalizing names with
  | nil => simp
  | cons part parts ih =>
    rw [List.forall_mem_cons]
    rcases component?_cases part with hpart | hpart | hpart
    · rw [resolve_skip hpart] at h
      exact ⟨not_nul_of_skip hpart, ih h⟩
    · rw [resolve_up hpart] at h
      split_ifs at h
      exact ⟨not_nul_of_up hpart, ih h⟩
    · rw [resolve_name hpart] at h
      split_ifs at h with hnul
      exact ⟨hnul, ih h⟩

lemma isComponent_of_resolve (h : resolve names parts = .ok names')
    (hnames : ∀ name ∈ names, IsComponent name) (hparts : ∀ part ∈ parts, '/' ∉ part) :
    ∀ name ∈ names', IsComponent name := by
  induction parts generalizing names with
  | nil =>
    obtain rfl := Except.ok.inj h
    exact hnames
  | cons part parts ih =>
    obtain ⟨hslash, hparts⟩ := List.forall_mem_cons.mp hparts
    rcases component?_cases part with hpart | hpart | hpart
    · rw [resolve_skip hpart] at h
      exact ih h hnames hparts
    · rw [resolve_up hpart] at h
      split_ifs at h
      exact ih h (fun name hname => hnames name (List.dropLast_subset _ hname)) hparts
    · rw [resolve_name hpart] at h
      split_ifs at h with hnul
      refine ih h (fun name hname => ?_) hparts
      rcases List.mem_append.mp hname with hname | hname
      · exact hnames name hname
      · obtain rfl := List.mem_singleton.mp hname
        exact ⟨hpart, hslash, hnul⟩

/-- A name that is followed by parts that cancel out is the last one that remains. -/
lemma exists_eq_concat (h : resolve [] (before ++ name :: after) = .ok names)
    (hname : component? name = some (.normal name)) (hafter : Cancels after) :
    ∃ start, names = start ++ [name] := by
  obtain ⟨start, _, hrest⟩ := exists_resolve_of_append h
  have hnul := (List.forall_mem_cons.mp (not_nul_of_resolve hrest)).2
  rw [resolve_name hname] at hrest
  split_ifs at hrest
  rw [hafter.resolve_eq hnul] at hrest
  exact ⟨start, (Except.ok.inj hrest).symm⟩

/-- Normalisation leaves the result alone if the last name does not end in a blank. -/
lemma idempotent_iff (h : resolve [] (partsOf path) = .ok names) :
    normalizePath (ofNames names) = .ok (ofNames names) ↔
      ∀ before name after, partsOf path = before ++ name :: after →
        component? name = some (.normal name) → EndsInBlank name → ¬ Cancels after := by
  have hcomponents := isComponent_of_resolve h (by simp) fun _ => Text.not_mem_of_mem_splitOn
  cases names using List.reverseRecOn with
  | nil =>
    refine iff_of_true (by decide) fun before name after hcut hname _ hafter => ?_
    rw [hcut] at h
    obtain ⟨start, hstart⟩ := exists_eq_concat h hname hafter
    simp at hstart
  | append_singleton names last =>
    have hnames : ∀ name ∈ names, IsComponent name :=
      fun name hname => hcomponents name (List.mem_append_left _ hname)
    have hlast : IsComponent last := hcomponents last (by simp)
    constructor
    · intro hnormal before name after hcut hname hblank hafter
      rw [hcut] at h
      obtain ⟨start, hstart⟩ := exists_eq_concat h hname hafter
      obtain rfl : last = name := by simpa using congrArg List.getLast? hstart
      exact not_endsInBlank hnames hlast hnormal hblank
    · intro hblank
      obtain ⟨before, after, hcut, hname, hafter, _⟩ := exists_cut_of_resolve h
      have htrim := rdropWhile_eq_self_iff.mpr fun hend =>
        hblank before last after hcut hname hend hafter
      exact normalizePath_of_components hnames hlast htrim

/-- Normalisation is canonical, idempotent and the same in both implementations exactly for the
tidy paths. -/
theorem normalizes_iff_tidy (path : Text) : Normalizes path ↔ Tidy path := by
  constructor
  · rintro ⟨_, hidempotent, hagrees⟩
    have hnul : ∀ before part after, partsOf path = before ++ part :: after →
        Char.ofNat 0 ∈ part → Escapes 0 before := by
      intro before part after hcut hpart
      by_contra hescapes
      exact (asyncNormalizePath_eq_iff path).mp hagrees
        (resolve_eq_nul_iff.mpr ⟨before, part, after, hcut, hpart, hescapes⟩)
    refine ⟨hnul, fun hescapes => ?_⟩
    have hstays : ¬ Escapes (List.length ([] : List Text)) (partsOf path) := hescapes
    obtain ⟨names, hnames⟩ := exists_resolve (not_nul_of_tidy hnul hescapes) hstays
    exact (idempotent_iff hnames).mp
      (hidempotent _ (normalizePath_eq_ok.mpr ⟨names, hnames, rfl⟩))
  · rintro ⟨hnul, hblank⟩
    refine ⟨fun q hq => ?_, fun q hq => ?_, ?_⟩
    · obtain ⟨names, hnames, rfl⟩ := exists_names_of_normalizePath hq
      refine ⟨names, rfl, fun name hname => ?_⟩
      have hcomponent := hnames name hname
      refine ⟨hcomponent.isName, ?_, ?_, hcomponent.noNul⟩
      · rintro rfl
        exact absurd hcomponent.normal (by decide)
      · rintro rfl
        exact absurd hcomponent.normal (by decide)
    · obtain ⟨names, hnames, rfl⟩ := normalizePath_eq_ok.mp hq
      exact (idempotent_iff hnames).mpr (hblank (not_escapes_of_resolve hnames))
    · rw [asyncNormalizePath_eq_iff, Ne, resolve_eq_nul_iff]
      rintro ⟨before, part, after, hcut, hpart, hescapes⟩
      exact hescapes (hnul before part after hcut hpart)

/-- A blank before a slash at the end is trimmed when the path is normalised again. -/
theorem not_normalizes_trailingBlank : ¬ ∀ path, Normalizes path := by
  intro hall
  have hfirst : normalizePath "/a /".toList = .ok "/a ".toList := by decide +kernel
  have hagain := (hall _).idempotent _ hfirst
  exact absurd hagain (by decide +kernel)

end AmlaSandbox.Vfs
