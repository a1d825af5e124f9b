import Mathlib.Algebra.GroupWithZero.Nat
import Mathlib.Algebra.Order.BigOperators.Group.List
import Mathlib.Algebra.Order.Group.Nat
import AmlaSandbox.Library.ParentTree
import AmlaSandbox.Library.Reachability
import AmlaSandbox.Vfs.Permissions

/-!
# The flat map is a tree

Every entry but the root has a directory as its parent, as long as no directory is deleted while
it has entries. `remove` looks for entries at the path it has normalised a second time, and
`removeRecursive` takes the root's prefix to be two slashes.
-/

namespace AmlaSandbox.Vfs

open Library

/-- Every entry other than the root has a parent, which is a directory. -/
def Tree (vfs : Vfs) : Prop :=
  ∀ p entry, vfs.get p = some entry → p ≠ root →
    ∃ dir permission, parentOf p = some dir ∧ vfs.get dir = some (.directory permission)

/-- The invariant behind it: all keys are normalised. -/
structure WellFormed (vfs : Vfs) : Prop where
  normal : ∀ p entry, vfs.get p = some entry → IsNormal p
  closed : ParentClosed parentOf (fun entry => entry.isDir) vfs.get

variable {vfs v : Vfs} {path p q dir : Text}

lemma exists_directory {entry : Entry} (h : entry.isDir) :
    ∃ permission, entry = .directory permission := by
  cases entry with
  | file content permission => cases h
  | directory permission => exact ⟨permission, rfl⟩

namespace WellFormed

lemma tree (h : WellFormed vfs) : vfs.Tree := by
  intro p entry hp hroot
  obtain rfl | ⟨dir, hdir, _⟩ := (h.normal p entry hp).eq_root_or_parentOf
  · exact absurd rfl hroot
  · obtain ⟨d, hd, hisDir⟩ := h.closed p entry hp dir hdir
    obtain ⟨permission, rfl⟩ := exists_directory hisDir
    exact ⟨dir, permission, hdir, hd⟩

lemma insert {entry : Entry} (h : WellFormed vfs) (hp : IsNormal p)
    (hparent : ∀ dir, parentOf p = some dir → ∃ d, vfs.get dir = some d ∧ d.isDir)
    (hkeep : ∀ d, vfs.get p = some d → d.isDir → entry.isDir) :
    WellFormed (vfs.insert p entry) := by
  refine ⟨fun q e hq => ?_, h.closed.set (fun q => vfs.get_insert p q entry) hparent hkeep⟩
  rw [get_insert] at hq
  split_ifs at hq with heq
  · exact heq ▸ hp
  · exact h.normal q e hq

/-- A file is replaced by any entry. -/
lemma insert_of_file {entry : Entry} {content : List UInt8} {permission : Permission}
    (h : WellFormed vfs) (hp : vfs.get p = some (.file content permission)) :
    WellFormed (vfs.insert p entry) := by
  refine h.insert (h.normal p _ hp) (h.closed p _ hp) fun d hd hisDir => ?_
  obtain rfl := Option.some.inj (hp.symm.trans hd)
  cases hisDir

lemma write (h : WellFormed vfs) (hw : Write vfs v) : WellFormed v := by
  cases hw with
  | create entry hp hnone hparent =>
    refine h.insert hp (fun dir hdir => ⟨_, hparent dir hdir, rfl⟩) fun d hd => ?_
    rw [hnone] at hd
    cases hd
  | overwrite content permission hp => exact h.insert_of_file hp
  | append content hp _ => exact h.insert_of_file hp

lemma of_writes (hw : Relation.ReflTransGen Write vfs v) (h : WellFormed vfs) : WellFormed v := by
  induction hw with
  | refl => exact h
  | tail _ hwrite ih => exact ih.write hwrite

/-- Entries may be deleted together with all that is inside them. -/
lemma delete {paths : List Text} (h : WellFormed vfs)
    (hinside : ∀ p ∈ paths, vfs.children p ⊆ {q | q ∈ paths}) : WellFormed (vfs.delete paths) := by
  have hsub : ∀ q entry, (vfs.delete paths).get q = some entry →
      q ∉ paths ∧ vfs.get q = some entry := by
    intro q entry hq
    rw [get_delete] at hq
    split_ifs at hq with hmem
    exact ⟨hmem, hq⟩
  refine ⟨fun q entry hq => h.normal q entry (hsub q entry hq).2,
    h.closed.restrict (fun q entry hq => (hsub q entry hq).2) fun q entry dir hq hdir => ?_⟩
  obtain ⟨hstays, hq⟩ := hsub q entry hq
  rw [get_delete, if_neg]
  intro hmem
  exact hstays (hinside dir hmem ⟨hdir, by simp [containsKey, hq]⟩)

end WellFormed

/-- A directory whose entries are left behind is the end of the tree. -/
lemma not_tree_delete {paths : List Text} (hp : p ∈ paths) (hq : q ∈ vfs.children p)
    (hstays : q ∉ paths) : ¬ (vfs.delete paths).Tree := by
  intro htree
  obtain ⟨hparent, hkey⟩ := hq
  obtain ⟨entry, hentry⟩ := Option.isSome_iff_exists.mp hkey
  have hroot : q ≠ root := by
    rintro rfl
    cases hparent
  have hget : (vfs.delete paths).get q = some entry := by
    rw [get_delete, if_neg hstays, hentry]
  obtain ⟨dir, permission, hdir, hget⟩ := htree q entry hget hroot
  rw [hparent] at hdir
  obtain rfl := Option.some.inj hdir
  rw [get_delete, if_pos hp] at hget
  cases hget

/-! ### The emptiness check -/

/-- The prefix of the entries of a directory. -/
def dirPrefix (dir : Text) : Text := if dir = root then root else dir ++ ['/']

lemma dirPrefix_ofNames {names : List Text} (h : ∀ name ∈ names, IsName name) :
    dirPrefix (ofNames names) = slashed names ++ ['/'] := by
  cases names with
  | nil => rfl
  | cons name names =>
    have hname : name ≠ [] := (h name List.mem_cons_self).1
    have hroot : slashed (name :: names) ≠ root := by simp [root, hname]
    rw [ofNames_of_ne_nil (by simp), dirPrefix, if_neg hroot]

lemma exists_of_mem_children (h : IsNormal q) (hdir : parentOf q = some dir) :
    ∃ b, q = dirPrefix dir ++ b ∧ '/' ∉ b ∧ b ≠ [] := by
  obtain ⟨names, hnames, rfl⟩ := h
  cases names using List.reverseRecOn with
  | nil => cases hdir
  | append_singleton names name =>
    have hname : IsName name := hnames name (by simp)
    have habove : ∀ n ∈ names, IsName n := fun n hn => hnames n (List.mem_append_left _ hn)
    rw [parentOf_ofNames hname] at hdir
    obtain rfl := Option.some.inj hdir
    refine ⟨name, ?_, hname.2, hname.1⟩
    rw [dirPrefix_ofNames habove]
    simp [ofNames_of_ne_nil]

lemma parentOf_dirPrefix_append {b : Text} (h : IsNormal dir) (hb : '/' ∉ b) (hne : b ≠ []) :
    parentOf (dirPrefix dir ++ b) = some dir := by
  obtain ⟨names, hnames, rfl⟩ := h
  rw [dirPrefix_ofNames hnames, ← parentOf_ofNames ⟨hne, hb⟩]
  simp [ofNames_of_ne_nil]

lemma directChild_ne_none_iff {entry : Sigma fun _ : Text => Entry} (hdir : IsNormal dir)
    (hentry : IsNormal entry.1) :
    directChild dir (dirPrefix dir) entry ≠ none ↔ parentOf entry.1 = some dir := by
  simp only [directChild, ne_eq, ite_eq_right_iff, reduceCtorEq, imp_false, not_not,
    List.isPrefixOf_iff_prefix]
  constructor
  · rintro ⟨_, ⟨b, hb⟩, hslash, hne⟩
    rw [← hb, List.drop_left] at hslash hne
    rw [← hb]
    exact parentOf_dirPrefix_append hdir hslash hne
  · intro hparent
    obtain ⟨b, hb, hslash, hne⟩ := exists_of_mem_children hentry hparent
    refine ⟨?_, ⟨b, hb.symm⟩, ?_, ?_⟩
    · intro heq
      have hlt := length_lt_of_parentOf hparent
      rw [heq] at hlt
      exact lt_irrefl _ hlt
    · rwa [hb, List.drop_left]
    · rwa [hb, List.drop_left]

lemma mem_entries_iff {entry : Entry} : ⟨p, entry⟩ ∈ vfs.entries.entries ↔ vfs.get p = some entry :=
  AList.mem_lookup_iff.symm

/-- More than the length of any key. -/
def bound (vfs : Vfs) : ℕ := (vfs.entries.entries.map fun e => e.1.length).sum + 1

lemma length_lt_bound (hq : vfs.containsKey q) : q.length < vfs.bound := by
  obtain ⟨entry, hentry⟩ := Option.isSome_iff_exists.mp hq
  have hmem := List.mem_map_of_mem (f := fun e => e.1.length) (mem_entries_iff.mpr hentry)
  exact Nat.lt_succ_of_le (List.le_sum_of_mem hmem)

/-- What is listed is the prefix of the directory and a name. -/
lemma directChild_eq_some {key pre : Text} {entry : Sigma fun _ : Text => Entry} {child : DirEntry}
    (h : directChild key pre entry = some child) :
    IsName child.name ∧ entry.1 = pre ++ child.name := by
  unfold directChild at h
  dsimp only at h
  split_ifs at h with hchild
  obtain ⟨-, hprefix, hslash, hne⟩ := hchild
  obtain rfl := Option.some.inj h
  refine ⟨⟨hne, hslash⟩, ?_⟩
  obtain ⟨rest, hrest⟩ := List.isPrefixOf_iff_prefix.mp hprefix
  dsimp only
  rw [← hrest, List.drop_left]

lemma listDir_eq_ok {entries : List DirEntry} (h : vfs.listDir path = .ok entries) :
    ∃ key pre, entries.Perm (vfs.entries.entries.filterMap (directChild key pre)) := by
  rw [listDir] at h
  cases hnormal : normalizePath path with
  | error e =>
    rw [hnormal] at h
    cases h
  | ok key =>
    rw [hnormal] at h
    dsimp only [bind, Except.bind] at h
    split at h
    · obtain rfl := Except.ok.inj h
      exact ⟨key, _, List.perm_insertionSort _ _⟩
    · cases h
    · cases h

/-- Each entry of a listing has a name of its own. -/
lemma listDir_names {entries : List DirEntry} (h : vfs.listDir path = .ok entries) :
    (∀ entry ∈ entries, IsName entry.name) ∧ entries.Pairwise fun a b => a.name ≠ b.name := by
  obtain ⟨key, pre, hperm⟩ := listDir_eq_ok h
  constructor
  · intro entry hentry
    obtain ⟨child, -, hchild⟩ := List.mem_filterMap.mp (hperm.mem_iff.mp hentry)
    exact (directChild_eq_some hchild).1
  · rw [hperm.pairwise_iff fun hne => hne.symm, List.pairwise_filterMap]
    refine (List.nodupKeys_iff_pairwise.mp vfs.entries.nodupKeys).imp fun {a b} hne => ?_
    intro child hchild child' hchild' heq
    apply hne
    rw [(directChild_eq_some hchild).2, (directChild_eq_some hchild').2, heq]

lemma directChild_append {names : List Text} {name : Text} (hnames : ∀ name ∈ names, IsName name)
    (hname : IsName name) (entry : Entry) :
    directChild (ofNames names) (dirPrefix (ofNames names)) ⟨ofNames (names ++ [name]), entry⟩ =
      some ⟨name, ofNames (names ++ [name]), entry.isDir, entry.permission⟩ := by
  have hpath : ofNames (names ++ [name]) = dirPrefix (ofNames names) ++ name := by
    rw [dirPrefix_ofNames hnames, ofNames_concat]
    simp
  have hne : ofNames (names ++ [name]) ≠ ofNames names := by
    intro heq
    have hparent : parentOf (ofNames (names ++ [name])) = some (ofNames names) :=
      parentOf_ofNames hname
    have hlt := length_lt_of_parentOf hparent
    rw [heq] at hlt
    exact lt_irrefl _ hlt
  unfold directChild
  dsimp only
  rw [if_pos]
  · rw [hpath, List.drop_left]
  · rw [hpath] at hne ⊢
    rw [List.drop_left]
    exact ⟨hne, List.isPrefixOf_iff_prefix.mpr (List.prefix_append _ _), hname.2, hname.1⟩

lemma exists_directChild {names : List Text} {name : Text} (hnames : ∀ name ∈ names, IsName name)
    (hname : IsName name) (entry : Entry) :
    ∃ child, directChild (ofNames names) (dirPrefix (ofNames names))
      ⟨ofNames (names ++ [name]), entry⟩ = some child ∧ child.name = name :=
  ⟨_, directChild_append hnames hname entry, rfl⟩

/-- A directory lists as empty exactly where nothing is inside it. -/
lemma listDir_eq_nil (h : WellFormed vfs) (hpath : normalizePath path = .ok dir)
    {permission : Permission} (hdir : vfs.get dir = some (.directory permission)) :
    vfs.listDir path = .ok [] ↔ vfs.children dir = ∅ := by
  have hlist : vfs.listDir path = .ok ((vfs.entries.entries.filterMap
      (directChild dir (dirPrefix dir))).insertionSort fun a b => a.name ≤ b.name) := by
    simp only [listDir, hpath, bind, Except.bind, hdir]
    rfl
  have hsorted : ∀ l : List DirEntry, (l.insertionSort fun a b => a.name ≤ b.name) = [] ↔ l = [] :=
    fun l => by rw [← List.length_eq_zero_iff, List.length_insertionSort, List.length_eq_zero_iff]
  have hnormal : IsNormal dir := isNormal_of_normalizePath hpath
  rw [hlist, Except.ok.injEq, hsorted, List.filterMap_eq_nil_iff, Set.eq_empty_iff_forall_notMem]
  constructor
  · rintro hnone q ⟨hparent, hkey⟩
    obtain ⟨entry, hentry⟩ := Option.isSome_iff_exists.mp hkey
    have hsome : directChild dir (dirPrefix dir) ⟨q, entry⟩ ≠ none :=
      (directChild_ne_none_iff hnormal (h.normal q entry hentry)).mpr hparent
    exact hsome (hnone _ (mem_entries_iff.mpr hentry))
  · rintro hempty ⟨q, entry⟩ hmem
    have hentry : vfs.get q = some entry := mem_entries_iff.mp hmem
    by_contra hsome
    refine hempty q ⟨?_, by simp [containsKey, hentry]⟩
    exact (directChild_ne_none_iff hnormal (h.normal q entry hentry)).mp hsome

/-- The path, normalised a second time, names a directory that has entries. -/
def SeenNonempty (vfs : Vfs) (path : Text) : Prop :=
  ∃ q permission, normalizePath path = .ok q ∧ vfs.get q = some (.directory permission) ∧
    (vfs.children q).Nonempty

lemma emptiness_check_iff (h : WellFormed vfs) :
    (vfs.isDir p → vfs.listDir p = .ok []) ↔ ¬ vfs.SeenNonempty p := by
  unfold isDir SeenNonempty
  cases hpath : normalizePath p with
  | error e => simp
  | ok q =>
    rcases hq : vfs.get q with _ | ⟨content, permission⟩ | ⟨permission⟩
    · simp [hq]
    · simp [hq, Entry.isDir]
    · simp [hq, Entry.isDir, listDir_eq_nil h hpath hq, Set.not_nonempty_iff_eq_empty]

lemma remove_eq_ok_iff (h : WellFormed vfs) :
    vfs.remove path = .ok v ↔
      ∃ p, normalizePath path = .ok p ∧ vfs.Deletable p ∧ ¬ vfs.SeenNonempty p ∧
        v = vfs.delete [p] := by
  simp only [remove_eq_ok, emptiness_check_iff h]

/-! ### Recursive deletion -/

lemma mem_toDelete :
    q ∈ vfs.toDelete p ↔ vfs.containsKey q ∧ (q = p ∨ p ++ ['/'] <+: q) := by
  have hkeys : q ∈ vfs.entries.keys ↔ vfs.containsKey q := by
    rw [containsKey, get, AList.lookup_isSome, AList.mem_keys]
  simp [toDelete, List.mem_insertionSort, hkeys]

/-- What is inside a deleted directory starts with its prefix, too. -/
lemma WellFormed.children_subset_toDelete (h : WellFormed vfs) (hp : p ≠ root) (hne : p ≠ [])
    (hdir : dir ∈ vfs.toDelete p) : vfs.children dir ⊆ {q | q ∈ vfs.toDelete p} := by
  rintro q ⟨hparent, hkey⟩
  obtain ⟨entry, hentry⟩ := Option.isSome_iff_exists.mp hkey
  obtain ⟨b, rfl, _, _⟩ := exists_of_mem_children (h.normal q entry hentry) hparent
  refine mem_toDelete.mpr ⟨hkey, .inr ?_⟩
  rcases (mem_toDelete.mp hdir).2 with rfl | hprefix
  · rw [dirPrefix, if_neg hp]
    exact List.prefix_append _ _
  · have hroot : dir ≠ root := by
      rintro rfl
      have hlen : (p ++ ['/']).length ≤ 1 := hprefix.length_le
      have hpos : 0 < p.length := List.length_pos_of_ne_nil hne
      rw [List.length_append, List.length_singleton] at hlen
      omega
    rw [dirPrefix, if_neg hroot, List.append_assoc]
    exact hprefix.trans (List.prefix_append _ _)

/-- No normalised path starts with two slashes. -/
lemma WellFormed.mem_toDelete_root (h : WellFormed vfs) :
    q ∈ vfs.toDelete root ↔ vfs.containsKey root ∧ q = root := by
  rw [mem_toDelete]
  constructor
  · rintro ⟨hkey, rfl | hprefix⟩
    · exact ⟨hkey, rfl⟩
    · obtain ⟨entry, hentry⟩ := Option.isSome_iff_exists.mp hkey
      obtain ⟨names, hnames, rfl⟩ := h.normal q entry hentry
      cases names with
      | nil => exact absurd hprefix (by decide)
      | cons name names =>
        obtain ⟨hne, hslash⟩ := hnames name List.mem_cons_self
        cases name with
        | nil => exact absurd rfl hne
        | cons c name =>
          rw [ofNames_of_ne_nil (by simp)] at hprefix
          obtain ⟨t, ht⟩ := hprefix
          have hc : '/' = c := by
            simp [root] at ht
            exact ht.1
          exact absurd (hc ▸ List.mem_cons_self) hslash
  · rintro ⟨hkey, rfl⟩
    exact ⟨hkey, .inl rfl⟩

/-! ### Runs -/

/-- A call that deletes a directory finds it empty: where `remove` may delete it, it has no entries
or the second normalisation leads to a directory that has some; and the root has no entries when
`removeRecursive` may delete it. -/
def EmptyWhenDeleted (vfs : Vfs) : Op → Prop
  | .remove path => ∀ p, normalizePath path = .ok p → vfs.Deletable p →
      vfs.children p = ∅ ∨ vfs.SeenNonempty p
  | .removeRecursive path => normalizePath path = .ok root → vfs.Deletable root →
      vfs.children root = ∅
  | _ => True

lemma WellFormed.step {op : Op} (h : WellFormed vfs) (hok : vfs.EmptyWhenDeleted op) :
    WellFormed (vfs.step op) := by
  cases op with
  | createDir path permission =>
    exact orUnchanged_of_forall h fun v hv => h.write (write_of_createDir hv)
  | createDirAll path permission => exact .of_writes writes_createDirAll h
  | writeFile path content permission =>
    exact orUnchanged_of_forall h fun v hv => h.write (write_of_writeFile hv)
  | appendFile path content =>
    exact orUnchanged_of_forall h fun v hv => h.write (write_of_appendFile hv)
  | remove path =>
    refine orUnchanged_of_forall h fun v hv => ?_
    obtain ⟨p, hpath, hdel, hseen, rfl⟩ := (remove_eq_ok_iff h).mp hv
    rcases hok p hpath hdel with hempty | hnonempty
    · refine h.delete fun q hq => ?_
      rw [List.mem_singleton.mp hq, hempty]
      exact Set.empty_subset _
    · exact absurd hnonempty hseen
  | removeRecursive path =>
    refine orUnchanged_of_forall h fun v hv => ?_
    obtain ⟨p, hpath, hkey, hdel, rfl⟩ := removeRecursive_eq_ok.mp hv
    by_cases hroot : p = root
    · subst hroot
      have hempty := hok hpath (hdel root (h.mem_toDelete_root.mpr ⟨hkey, rfl⟩))
      refine h.delete fun q hq => ?_
      rw [(h.mem_toDelete_root.mp hq).2, hempty]
      exact Set.empty_subset _
    · have hne : p ≠ [] := (isNormal_of_normalizePath hpath).ne_nil
      exact h.delete fun q hq => h.children_subset_toDelete hroot hne hq

/-- A call that deletes a directory with entries leaves them behind. -/
lemma WellFormed.not_tree_step {op : Op} (h : WellFormed vfs) (hnot : ¬ vfs.EmptyWhenDeleted op) :
    ¬ (vfs.step op).Tree := by
  cases op with
  | createDir path permission => exact absurd trivial hnot
  | createDirAll path permission => exact absurd trivial hnot
  | writeFile path content permission => exact absurd trivial hnot
  | appendFile path content => exact absurd trivial hnot
  | remove path =>
    simp only [EmptyWhenDeleted, not_forall, not_or] at hnot
    obtain ⟨p, hpath, hdel, hchildren, hseen⟩ := hnot
    obtain ⟨q, hq⟩ := Set.nonempty_iff_ne_empty.mpr hchildren
    have hok : vfs.remove path = .ok (vfs.delete [p]) :=
      (remove_eq_ok_iff h).mpr ⟨p, hpath, hdel, hseen, rfl⟩
    have hstep : vfs.step (.remove path) = vfs.delete [p] := by
      simp only [Vfs.step, hok, orUnchanged]
    rw [hstep]
    refine not_tree_delete (List.mem_singleton_self p) hq fun hmem => ?_
    have hlt := length_lt_of_parentOf hq.1
    rw [List.mem_singleton.mp hmem] at hlt
    exact lt_irrefl _ hlt
  | removeRecursive path =>
    simp only [EmptyWhenDeleted, not_forall] at hnot
    obtain ⟨hpath, hdel, hchildren⟩ := hnot
    obtain ⟨q, hq⟩ := Set.nonempty_iff_ne_empty.mpr hchildren
    obtain ⟨entry, hentry, _⟩ := hdel.1
    have hkey : vfs.containsKey root := by simp [containsKey, hentry]
    have hall : ∀ r ∈ vfs.toDelete root, vfs.Deletable r :=
      fun r hr => (h.mem_toDelete_root.mp hr).2 ▸ hdel
    have hok : vfs.removeRecursive path = .ok (vfs.delete (vfs.toDelete root)) :=
      removeRecursive_eq_ok.mpr ⟨root, hpath, hkey, hall, rfl⟩
    have hstep : vfs.step (.removeRecursive path) = vfs.delete (vfs.toDelete root) := by
      simp only [Vfs.step, hok, orUnchanged]
    rw [hstep]
    refine not_tree_delete (h.mem_toDelete_root.mpr ⟨hkey, rfl⟩) hq fun hmem => ?_
    have hlt := length_lt_of_parentOf hq.1
    rw [(h.mem_toDelete_root.mp hmem).2] at hlt
    exact lt_irrefl _ hlt

lemma WellFormed.tree_run_iff {ops : List Op} (h : WellFormed vfs) :
    (∀ n, (vfs.run (ops.take n)).Tree) ↔ Admits EmptyWhenDeleted Vfs.step vfs ops := by
  induction ops generalizing vfs with
  | nil => simp [Admits, h.tree]
  | cons op ops ih =>
    constructor
    · intro htree
      have hok : vfs.EmptyWhenDeleted op := by
        by_contra hnot
        exact h.not_tree_step hnot (htree 1)
      exact ⟨hok, (ih (h.step hok)).mp fun n => htree (n + 1)⟩
    · rintro ⟨hok, hrest⟩ n
      cases n with
      | zero => exact h.tree
      | succ n => exact (ih (h.step hok)).mpr hrest n

/-- The standard filesystem, or an empty one with a root directory. -/
inductive Initial : Vfs → Prop
  | new : Initial new
  | ofEmpty {path : Text} {permission : Permission} {v : Vfs} :
      normalizePath path = .ok root → empty.createDir path permission = .ok v → Initial v

lemma wellFormed_new : WellFormed new := by
  have hall : ∀ e ∈ new.entries.entries, normalizePath e.1 = .ok e.1 ∧
      ∀ dir ∈ parentOf e.1, (new.get dir).any Entry.isDir := by
    decide +kernel
  constructor
  · intro p entry hp
    exact isNormal_of_normalizePath (hall _ (mem_entries_iff.mpr hp)).1
  · intro p entry hp dir hdir
    have hany := (hall _ (mem_entries_iff.mpr hp)).2 dir hdir
    cases hd : new.get dir with
    | none => simp [hd] at hany
    | some d => exact ⟨d, rfl, by simpa [hd] using hany⟩

lemma wellFormed_empty : WellFormed empty := by
  constructor
  · intro p entry hp
    cases hp
  · intro p entry hp
    cases hp

lemma Initial.wellFormed (h : Initial vfs) : WellFormed vfs := by
  cases h with
  | new => exact wellFormed_new
  | ofEmpty _ hcreate => exact wellFormed_empty.write (write_of_createDir hcreate)

/-- The entries form a tree throughout a run exactly when each directory is empty when it is
deleted. -/
theorem tree_iff_emptyWhenDeleted (vfs : Vfs) (hinit : Initial vfs) (ops : List Op) :
    (∀ n, (vfs.run (ops.take n)).Tree) ↔ Admits EmptyWhenDeleted step vfs ops :=
  hinit.wellFormed.tree_run_iff

/-- A directory is made and deleted again. -/
def madeAndRemoved : List Op :=
  [.createDir "/workspace/d".toList .readWrite, .remove "/workspace/d/".toList]

lemma emptyWhenDeleted_madeAndRemoved : Admits EmptyWhenDeleted step new madeAndRemoved := by
  refine ⟨trivial, ?_, trivial⟩
  intro p hpath _
  have hstable : normalizePath "/workspace/d/".toList = .ok "/workspace/d".toList := by
    decide +kernel
  rw [hstable] at hpath
  obtain rfl := Except.ok.inj hpath
  refine .inl (Set.eq_empty_iff_forall_notMem.mpr ?_)
  rintro q ⟨hparent, hkey⟩
  have hnone : ∀ e ∈ (new.step (.createDir "/workspace/d".toList .readWrite)).entries.entries,
      parentOf e.1 ≠ some "/workspace/d".toList := by
    decide +kernel
  obtain ⟨entry, hentry⟩ := Option.isSome_iff_exists.mp hkey
  exact hnone _ (mem_entries_iff.mpr hentry) hparent

theorem tree_madeAndRemoved :
    Admits EmptyWhenDeleted step new madeAndRemoved ∧
      ∀ n, (new.run (madeAndRemoved.take n)).Tree :=
  ⟨emptyWhenDeleted_madeAndRemoved,
    (tree_iff_emptyWhenDeleted new .new madeAndRemoved).mpr emptyWhenDeleted_madeAndRemoved⟩

/-- A directory whose name ends in a space, which a second normalisation cuts off. -/
def spacedDir : List Op :=
  [.createDir "/workspace/d /.".toList .readWrite,
   .writeFile "/workspace/d /x".toList [] .readWrite,
   .remove "/workspace/d /.".toList]

theorem not_tree_spacedDir : ¬ ∀ vfs, Initial vfs → ∀ ops : List Op, (vfs.run ops).Tree := by
  intro htree
  have hfile : (new.run spacedDir).get "/workspace/d /x".toList = some (.file [] .readWrite) := by
    decide +kernel
  have hgone : (new.run spacedDir).get "/workspace/d ".toList = none := by decide +kernel
  have hparent : parentOf "/workspace/d /x".toList = some "/workspace/d ".toList := by
    decide +kernel
  obtain ⟨dir, permission, hdir, hget⟩ := htree new .new spacedDir _ _ hfile (by decide)
  rw [hparent] at hdir
  obtain rfl := Option.some.inj hdir
  rw [hgone] at hget
  cases hget

end AmlaSandbox.Vfs
