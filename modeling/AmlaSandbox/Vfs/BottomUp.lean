import Mathlib.Data.List.Perm.Subperm
import Mathlib.Order.Preorder.Finite
import AmlaSandbox.Vfs.Names
import AmlaSandbox.Vfs.Tree

/-!
# Recursive removal from the bottom up

`removeRecursive` is meant to do what `remove` does to the entries of the subtree one after the
other, children before parents. It does, unless a name ends in a blank, which `remove` cuts off when
it normalises the path again, and except at the root, whose subtree it does not find.
-/

namespace AmlaSandbox.Vfs

/-- The tree invariant: the keys come out of `normalizePath`, and every entry but the root has a
directory as its parent. -/
structure NormalTree (vfs : Vfs) : Prop where
  keys : ∀ q, vfs.containsKey q → ∃ raw, normalizePath raw = .ok q
  closed : Library.ParentClosed parentOf (fun entry => entry.isDir) vfs.get

/-- `q` is inside `p`, at any depth. -/
def Below : Text → Text → Prop := Relation.TransGen fun p q => parentOf q = some p

/-- The entries inside `path`, children before parents. -/
structure BottomUp (vfs : Vfs) (path : Text) (order : List Text) : Prop where
  nodup : order.Nodup
  mem_iff : ∀ q, q ∈ order ↔ vfs.containsKey q ∧ Below path q
  children_first : order.Pairwise fun a b => ¬ Below a b

/-- One call of `remove` for each path. -/
def removeAll (vfs : Vfs) (paths : List Text) : Except VfsError Vfs := paths.foldlM remove vfs

/-- `removeRecursive` against the removal one by one, of the path itself last. -/
structure Agrees (vfs : Vfs) (path : Text) (order : List Text) : Prop where
  succeeds : (∃ v, vfs.removeRecursive path = .ok v) ↔
    ∃ v, vfs.removeAll (order ++ [path]) = .ok v
  entries : ∀ v v', vfs.removeRecursive path = .ok v → vfs.removeAll (order ++ [path]) = .ok v' →
    v.get = v'.get ∧ (∀ q, q = path ∨ Below path q → v.get q = none) ∧
      ∀ q, q ≠ path → ¬ Below path q → v.get q = vfs.get q

/-- The root may not be deleted or has no entries. At another path, the names in the subtree are
found again by `remove`, or some entry may not be deleted. -/
def AgreesWhen (vfs : Vfs) (path : Text) : Prop :=
  if path = root then ¬ vfs.Deletable root ∨ vfs.children root = ∅
  else
    (∀ q, vfs.containsKey q → Below path q → normalizePath q = .ok q) ∨
      ∃ q, vfs.containsKey q ∧ (q = path ∨ Below path q) ∧ ¬ vfs.Deletable q

variable {vfs v : Vfs} {p q dir path : Text} {paths order done : List Text}

/-! ### Being inside -/

lemma Below.length_lt (h : Below p q) : p.length < q.length := by
  induction h with
  | single h => exact length_lt_of_parentOf h
  | tail _ h ih => exact ih.trans (length_lt_of_parentOf h)

/-- What is inside a path is inside its parent or is that path. -/
lemma below_iff_of_parentOf (h : parentOf q = some dir) : Below p q ↔ dir = p ∨ Below p dir := by
  constructor
  · intro hbelow
    rcases Relation.TransGen.tail'_iff.mp hbelow with ⟨d, hd, hparent⟩
    rw [h] at hparent
    obtain rfl := Option.some.inj hparent
    rcases Relation.reflTransGen_iff_eq_or_transGen.mp hd with heq | hbelow
    · exact .inl heq
    · exact .inr hbelow
  · rintro (rfl | hbelow)
    · exact .single h
    · exact hbelow.tail h

lemma not_below_of_parentOf_none (h : parentOf q = none) : ¬ Below p q := by
  intro hbelow
  obtain ⟨d, _, hparent⟩ := Relation.TransGen.tail'_iff.mp hbelow
  rw [h] at hparent
  cases hparent

namespace NormalTree

lemma wellFormed (h : NormalTree vfs) : WellFormed vfs where
  normal p entry hp := by
    obtain ⟨raw, hraw⟩ := h.keys p (by simp [containsKey, hp])
    exact isNormal_of_normalizePath hraw
  closed := h.closed

/-- The parent of an entry is an entry. -/
lemma containsKey_of_parentOf (h : NormalTree vfs) (hq : vfs.containsKey q)
    (hparent : parentOf q = some dir) : vfs.containsKey dir := by
  obtain ⟨entry, hentry⟩ := Option.isSome_iff_exists.mp hq
  obtain ⟨d, hd, _⟩ := h.closed q entry hentry dir hparent
  simp [containsKey, hd]

lemma containsKey_of_below (h : NormalTree vfs) (hq : vfs.containsKey q) (hbelow : Below p q) :
    vfs.containsKey p := by
  induction hbelow with
  | single hparent => exact h.containsKey_of_parentOf hq hparent
  | tail _ hparent ih => exact ih (h.containsKey_of_parentOf hq hparent)

end NormalTree

/-- A prefix that ends in a slash does not reach into the last name. -/
lemma dirPrefix_prefix_append_iff {front last : Text} (hp : IsNormal p) (hlast : '/' ∉ last) :
    dirPrefix p <+: front ++ last ↔ dirPrefix p <+: front := by
  obtain ⟨names, hnames, rfl⟩ := hp
  rw [dirPrefix_ofNames hnames]
  constructor
  · rintro ⟨rest, hrest⟩
    rcases List.append_eq_append_iff.mp hrest with ⟨x, hx, _⟩ | ⟨x, hx, hlast'⟩
    · exact ⟨x, hx.symm⟩
    · cases x using List.reverseRecOn with
      | nil => exact ⟨[], by rw [hx]; simp⟩
      | append_singleton x c =>
        rw [← List.append_assoc] at hx
        have hc := List.append_inj_right' hx rfl
        rw [hlast', ← hc] at hlast
        simp at hlast
  · exact fun h => h.trans (List.prefix_append _ _)

/-- The prefix test finds what is inside. -/
lemma dirPrefix_prefix_iff (hp : IsNormal p) (hq : IsNormal q) (hne : q ≠ root) :
    dirPrefix p <+: q ↔ Below p q := by
  obtain ⟨names, hnames, rfl⟩ := hq
  induction names using List.reverseRecOn with
  | nil => exact absurd rfl hne
  | append_singleton names last ih =>
    have hlast : IsName last := hnames last (by simp)
    have habove : ∀ name ∈ names, IsName name :=
      fun name hname => hnames name (List.mem_append_left _ hname)
    have hsplit : ofNames (names ++ [last]) = dirPrefix (ofNames names) ++ last := by
      rw [ofNames_concat, dirPrefix_ofNames habove]
      simp
    rw [below_iff_of_parentOf (parentOf_ofNames hlast), hsplit,
      dirPrefix_prefix_append_iff hp hlast.2]
    by_cases hroot : ofNames names = root
    · rw [hroot, dirPrefix, dirPrefix, if_pos rfl]
      by_cases hp' : p = root
      · simp [hp']
      · rw [if_neg hp']
        have hpos : 0 < p.length := List.length_pos_of_ne_nil hp.ne_nil
        refine iff_of_false (fun h => ?_) ?_
        · have hlen : (p ++ ['/']).length ≤ 1 := h.length_le
          rw [List.length_append, List.length_singleton] at hlen
          omega
        · rintro (heq | hbelow)
          · exact hp' heq.symm
          · exact not_below_of_parentOf_none parentOf_root hbelow
    · have hne' : ofNames names ≠ [] := IsNormal.ne_nil ⟨names, habove, rfl⟩
      have heq : dirPrefix p = ofNames names ++ ['/'] ↔ ofNames names = p := by
        unfold dirPrefix
        split_ifs with hp'
        · subst hp'
          refine iff_of_false (fun h => ?_) hroot
          have hlen : 1 = (ofNames names ++ ['/']).length := congrArg List.length h
          have hpos : 0 < (ofNames names).length := List.length_pos_of_ne_nil hne'
          rw [List.length_append, List.length_singleton] at hlen
          omega
        · rw [List.append_left_inj, eq_comm]
      have hconcat : dirPrefix (ofNames names) = ofNames names ++ ['/'] := if_neg hroot
      rw [hconcat, List.prefix_concat_iff, heq, ih habove hroot]

/-! ### The subtree -/

lemma mem_toDelete_iff (h : NormalTree vfs) (hp : IsNormal p) (hne : p ≠ root) :
    q ∈ vfs.toDelete p ↔ vfs.containsKey q ∧ (q = p ∨ Below p q) := by
  rw [mem_toDelete]
  refine and_congr_right fun hkey => or_congr_right ?_
  obtain ⟨entry, hentry⟩ := Option.isSome_iff_exists.mp hkey
  have hq := h.wellFormed.normal q entry hentry
  have hfront : dirPrefix p = p ++ ['/'] := if_neg hne
  by_cases hroot : q = root
  · subst hroot
    refine iff_of_false (fun hpre => ?_) (not_below_of_parentOf_none parentOf_root)
    have hpos : 0 < p.length := List.length_pos_of_ne_nil hp.ne_nil
    have hlen : (p ++ ['/']).length ≤ 1 := hpre.length_le
    rw [List.length_append, List.length_singleton] at hlen
    omega
  · rw [← hfront, dirPrefix_prefix_iff hp hq hroot]

/-! ### Removal one by one -/

lemma removeAll_cons_eq_ok : vfs.removeAll (q :: paths) = .ok v ↔
    ∃ v', vfs.remove q = .ok v' ∧ v'.removeAll paths = .ok v := by
  unfold removeAll
  rw [List.foldlM_cons, Library.bind_eq_ok]

lemma removeAll_append_eq_ok : vfs.removeAll (done ++ paths) = .ok v ↔
    ∃ v', vfs.removeAll done = .ok v' ∧ v'.removeAll paths = .ok v := by
  unfold removeAll
  rw [List.foldlM_append, Library.bind_eq_ok]

lemma delete_delete : (vfs.delete done).delete paths = vfs.delete (done ++ paths) := by
  unfold delete
  rw [List.foldl_append]

/-- What may be deleted may be deleted as long as it and its parent are there. -/
lemma deletable_delete_iff : (vfs.delete done).Deletable q ↔
    q ∉ done ∧ (∀ dir, parentOf q = some dir → dir ∉ done) ∧ vfs.Deletable q := by
  unfold Deletable ParentWritable
  simp only [get_delete]
  by_cases hq : q ∈ done
  · simp [hq]
  · simp only [hq, if_false, not_false_eq_true, true_and]
    cases parentOf q with
    | none => simp
    | some dir =>
      simp only [Option.some.injEq, forall_eq']
      by_cases hdir : dir ∈ done
      · simp [hdir]
      · simp [hdir]

/-- Paths that stay as they are when they are normalised, children before parents. -/
structure Removable (vfs : Vfs) (paths : List Text) : Prop where
  nodup : paths.Nodup
  children_first : paths.Pairwise fun a b => ¬ Below a b
  children : ∀ q ∈ paths, vfs.children q ⊆ {c | c ∈ paths}
  tidy : ∀ q ∈ paths, normalizePath q = .ok q

/-- The children of a path are removed before it. -/
lemma Removable.children_subset {rest : List Text} (h : vfs.Removable (done ++ q :: rest)) :
    vfs.children q ⊆ {c | c ∈ done} := by
  intro c hc
  have hbelow : Below q c := .single hc.1
  rcases List.mem_append.mp (h.children q (by simp) hc) with hdone | hrest
  · exact hdone
  · rcases List.mem_cons.mp hrest with rfl | hrest
    · exact absurd hbelow.length_lt (lt_irrefl _)
    · have hpair := (List.pairwise_append.mp h.children_first).2.1
      exact absurd hbelow ((List.pairwise_cons.mp hpair).1 c hrest)

/-- A tidy subtree is removed one by one exactly when all of it may be deleted. -/
lemma removeAll_delete_iff (h : WellFormed vfs) (hpaths : vfs.Removable (done ++ paths)) :
    (vfs.delete done).removeAll paths = .ok v ↔
      (∀ q ∈ paths, vfs.Deletable q) ∧ v = vfs.delete (done ++ paths) := by
  induction paths generalizing done with
  | nil => simp [removeAll, pure, Except.pure, eq_comm]
  | cons q rest ih =>
    have hwf : WellFormed (vfs.delete done) := by
      apply h.delete
      intro d hd c hc
      obtain ⟨before, after, rfl⟩ := List.append_of_mem hd
      rw [List.append_assoc, List.cons_append] at hpaths
      exact List.mem_append_left _ (hpaths.children_subset hc)
    have hempty : (vfs.delete done).children q = ∅ := by
      refine Set.eq_empty_iff_forall_notMem.mpr ?_
      rintro c ⟨hparent, hkey⟩
      rw [containsKey, get_delete] at hkey
      split_ifs at hkey with hc
      · cases hkey
      · exact hc (hpaths.children_subset ⟨hparent, hkey⟩)
    have htidy : normalizePath q = .ok q := hpaths.tidy q (by simp)
    have hdeletable : (vfs.delete done).Deletable q ↔ vfs.Deletable q := by
      have hq : q ∉ done := fun hmem =>
        (List.nodup_append.mp hpaths.nodup).2.2 q hmem q List.mem_cons_self rfl
      have hdirs (dir : Text) (hparent : parentOf q = some dir) : dir ∉ done := fun hmem =>
        (List.pairwise_append.mp hpaths.children_first).2.2 dir hmem q List.mem_cons_self
          (.single hparent)
      rw [deletable_delete_iff]
      exact ⟨fun hdel => hdel.2.2, fun hdel => ⟨hq, hdirs, hdel⟩⟩
    have hseen : ¬ (vfs.delete done).SeenNonempty q := by
      rintro ⟨q', permission, hq', _, hnonempty⟩
      rw [htidy] at hq'
      obtain rfl := Except.ok.inj hq'
      rw [hempty] at hnonempty
      exact Set.not_nonempty_empty hnonempty
    have hstep (v' : Vfs) : (vfs.delete done).remove q = .ok v' ↔
        vfs.Deletable q ∧ v' = vfs.delete (done ++ [q]) := by
      rw [remove_eq_ok_iff hwf, htidy]
      simp [hdeletable, hseen, delete_delete]
    have hih : (vfs.delete (done ++ [q])).removeAll rest = .ok v ↔
        (∀ r ∈ rest, vfs.Deletable r) ∧ v = vfs.delete (done ++ [q] ++ rest) :=
      ih (by rwa [List.append_assoc])
    rw [List.append_assoc, List.singleton_append] at hih
    rw [removeAll_cons_eq_ok]
    simp only [hstep, List.forall_mem_cons]
    constructor
    · rintro ⟨v', ⟨hq, rfl⟩, hrest⟩
      obtain ⟨hall, rfl⟩ := hih.mp hrest
      exact ⟨⟨hq, hall⟩, rfl⟩
    · rintro ⟨⟨hq, hall⟩, rfl⟩
      exact ⟨_, ⟨hq, rfl⟩, hih.mpr ⟨hall, rfl⟩⟩

/-- What a run of removals has removed: as many entries as it was called with paths. -/
lemma exists_removed (h : vfs.removeAll paths = .ok v) :
    ∃ removed, removed.length = paths.length ∧
      (∀ r ∈ removed, ∃ q ∈ paths, normalizePath q = .ok r) ∧
      removed.Nodup ∧ (∀ r ∈ removed, vfs.containsKey r) ∧ v = vfs.delete removed := by
  induction paths generalizing vfs with
  | nil => exact ⟨[], rfl, nofun, List.nodup_nil, nofun, (Except.ok.inj h).symm⟩
  | cons q paths ih =>
    obtain ⟨v', hq, hrest⟩ := removeAll_cons_eq_ok.mp h
    obtain ⟨r, hr, ⟨⟨entry, hentry, _⟩, _⟩, _, rfl⟩ := remove_eq_ok.mp hq
    obtain ⟨removed, hlen, hfrom, hnodup, hkeys, rfl⟩ := ih hrest
    have hall (r' : Text) (hr' : r' ∈ removed) : r' ≠ r ∧ vfs.containsKey r' := by
      have hkey := hkeys r' hr'
      rw [containsKey, get_delete] at hkey
      split_ifs at hkey with hmem
      · cases hkey
      · exact ⟨fun heq => hmem (List.mem_singleton.mpr heq), hkey⟩
    refine ⟨r :: removed, congrArg Nat.succ hlen, ?_, ?_, ?_, delete_delete⟩
    · refine List.forall_mem_cons.mpr ⟨⟨q, List.mem_cons_self, hr⟩, fun r' hr' => ?_⟩
      obtain ⟨q', hq', hr'⟩ := hfrom r' hr'
      exact ⟨q', List.mem_cons_of_mem _ hq', hr'⟩
    · exact List.nodup_cons.mpr ⟨fun hmem => (hall r hmem).1 rfl, hnodup⟩
    · exact List.forall_mem_cons.mpr ⟨by simp [containsKey, hentry], fun r' hr' => (hall r' hr').2⟩

/-! ### Names that end in a blank -/

/-- Normalising an entry's path again stays at the path, or leads to a shorter one near it. -/
lemma normalizePath_entry (h : NormalTree vfs) {r : Text} (hq : vfs.containsKey q)
    (hparent : parentOf q = some dir) (hr : normalizePath q = .ok r) :
    r = q ∨ r.length < q.length ∧ (r = dir ∨ parentOf dir = some r ∨ dir = root ∧ r = root ∨
      parentOf r = some dir) := by
  obtain ⟨raw, hraw⟩ := h.keys q hq
  obtain ⟨names, hnames, rfl⟩ := exists_names_of_normalizePath hraw
  cases names using List.reverseRecOn with
  | nil => cases hparent
  | append_singleton names last =>
    have hlast : IsComponent last := hnames last (by simp)
    have habove : ∀ name ∈ names, IsComponent name :=
      fun name hname => hnames name (List.mem_append_left _ hname)
    have hlt := length_lt_of_parentOf hparent
    rw [parentOf_ofNames hlast.isName] at hparent
    obtain rfl := Option.some.inj hparent
    rcases normalizePath_ofNames habove hlast.noSlash hr with rfl | rfl | rfl
    · exact .inr ⟨hlt, .inl rfl⟩
    · cases names using List.reverseRecOn with
      | nil => exact .inr ⟨hlt, .inr (.inr (.inl ⟨rfl, rfl⟩))⟩
      | append_singleton names name =>
        have hup : parentOf (ofNames (names ++ [name])) = some (ofNames names) :=
          parentOf_ofNames (habove name (by simp)).isName
        rw [List.dropLast_concat]
        exact .inr ⟨(length_lt_of_parentOf hup).trans hlt, .inr (.inl hup)⟩
    · have hfront := List.rdropWhile_prefix Text.isWhitespace last
      generalize last.rdropWhile Text.isWhitespace = x at hfront hr ⊢
      by_cases hx : x = last
      · exact .inl (by rw [hx])
      · have hshorter : x.length < last.length :=
          lt_of_le_of_ne hfront.length_le fun heq => hx (hfront.eq_of_length heq)
        refine .inr ⟨?_, ?_⟩
        · rw [ofNames_concat, ofNames_concat, List.length_append, List.length_append,
            List.length_cons, List.length_cons]
          omega
        · have hslash : '/' ∉ x := fun hmem => hlast.noSlash (hfront.mem hmem)
          rw [ofNames_concat]
          by_cases hroot : slashed names ++ '/' :: x = root
          · have hnil : names = [] := by
              cases names with
              | nil => rfl
              | cons name names =>
                have hlen := congrArg List.length hroot
                simp [root] at hlen
            subst hnil
            exact .inr (.inr (.inl ⟨rfl, hroot⟩))
          · rw [parentOf_append_cons hslash hroot]
            cases names <;> simp [ofNames]

/-- Below a path that is not the root, `remove` leads to the subtree, or to the parent. -/
lemma below_or_parent (h : NormalTree vfs) {r : Text} (hq : vfs.containsKey q)
    (hroot : p ≠ root) (hbelow : Below p q) (hr : normalizePath q = .ok r) :
    r = p ∨ parentOf p = some r ∨ Below p r := by
  obtain ⟨dir, hdir, hparent⟩ := Relation.TransGen.tail'_iff.mp hbelow
  have hdir : dir = p ∨ Below p dir := by
    rcases Relation.reflTransGen_iff_eq_or_transGen.mp hdir with heq | hbelow
    · exact .inl heq
    · exact .inr hbelow
  have hnotRoot : dir ≠ root := by
    rintro rfl
    rcases hdir with heq | hbelow
    · exact hroot heq.symm
    · exact not_below_of_parentOf_none parentOf_root hbelow
  rcases normalizePath_entry h hq hparent hr with rfl | ⟨_, rfl | hup | ⟨hdirRoot, _⟩ | hsame⟩
  · exact .inr (.inr hbelow)
  · rcases hdir with heq | hbelow
    · exact .inl heq
    · exact .inr (.inr hbelow)
  · rcases hdir with rfl | hbelow
    · exact .inr (.inl hup)
    · rcases (below_iff_of_parentOf hup).mp hbelow with heq | hbelow
      · exact .inl heq
      · exact .inr (.inr hbelow)
  · exact absurd hdirRoot hnotRoot
  · exact .inr (.inr ((below_iff_of_parentOf hsame).mpr hdir))

/-- Where removal one by one succeeds, every path was found again. -/
lemma tidy_of_removeAll (h : NormalTree vfs) (hroot : p ≠ root) (hp : normalizePath p = .ok p)
    (horder : vfs.BottomUp p order) (hrun : vfs.removeAll (order ++ [p]) = .ok v) :
    ∀ q ∈ order, normalizePath q = .ok q := by
  obtain ⟨v', hbefore, hlast⟩ := removeAll_append_eq_ok.mp hrun
  obtain ⟨removed, hlen, hfrom, hnodup, hkeys, rfl⟩ := exists_removed hbefore
  obtain ⟨v'', hlast, _⟩ := removeAll_cons_eq_ok.mp hlast
  obtain ⟨p', hp', hdel, _⟩ := remove_eq_ok.mp hlast
  rw [hp] at hp'
  obtain rfl := Except.ok.inj hp'
  obtain ⟨hnot, hnotParent, _⟩ := deletable_delete_iff.mp hdel
  -- the path and its parent are there to the end, so that only entries inside it were removed
  have hsub : removed ⊆ order := by
    intro r hr
    obtain ⟨q, hq, hqr⟩ := hfrom r hr
    obtain ⟨hkey, hbelow⟩ := (horder.mem_iff q).mp hq
    rcases below_or_parent h hkey hroot hbelow hqr with rfl | hparent | hbelow
    · exact absurd hr hnot
    · exact absurd hr (hnotParent r hparent)
    · exact (horder.mem_iff r).mpr ⟨hkeys r hr, hbelow⟩
  have hperm : removed.Perm order :=
    (List.subperm_of_subset hnodup hsub).perm_of_length_le hlen.ge
  -- so all of them were removed, each for a path at least as long
  by_contra hsome
  simp only [not_forall] at hsome
  obtain ⟨q, hq, huntidy⟩ := hsome
  obtain ⟨q, ⟨hq, huntidy⟩, hlongest⟩ := Set.Finite.exists_maximalFor List.length
    {q | q ∈ order ∧ normalizePath q ≠ .ok q} (order.finite_toSet.subset fun _ hq => hq.1)
    ⟨q, hq, huntidy⟩
  obtain ⟨q', hq', hqq'⟩ := hfrom q (hperm.mem_iff.mpr hq)
  obtain ⟨hkey, hbelow⟩ := (horder.mem_iff q').mp hq'
  obtain ⟨dir, _, hparent⟩ := Relation.TransGen.tail'_iff.mp hbelow
  rcases normalizePath_entry h hkey hparent hqq' with rfl | ⟨hlt, _⟩
  · exact huntidy hqq'
  · have huntidy' : normalizePath q' ≠ .ok q' := by
      intro htidy
      rw [htidy] at hqq'
      obtain rfl := Except.ok.inj hqq'
      exact lt_irrefl _ hlt
    exact absurd (hlongest ⟨hq', huntidy'⟩ hlt.le) (not_le_of_gt hlt)

/-! ### The two removals -/

lemma BottomUp.removable (horder : vfs.BottomUp p order) (hp : normalizePath p = .ok p)
    (htidy : ∀ q ∈ order, normalizePath q = .ok q) : vfs.Removable (order ++ [p]) where
  nodup := by
    refine List.nodup_append.mpr ⟨horder.nodup, List.nodup_singleton p, ?_⟩
    rintro q hq _ hmem rfl
    rw [List.mem_singleton.mp hmem] at hq
    exact lt_irrefl _ ((horder.mem_iff p).mp hq).2.length_lt
  children_first := by
    refine List.pairwise_append.mpr ⟨horder.children_first, List.pairwise_singleton _ p, ?_⟩
    intro q hq _ hmem hbelow
    rw [List.mem_singleton.mp hmem] at hbelow
    exact lt_asymm hbelow.length_lt ((horder.mem_iff q).mp hq).2.length_lt
  children q hq := by
    rintro c ⟨hparent, hkey⟩
    refine List.mem_append_left _ ((horder.mem_iff c).mpr ⟨hkey, ?_⟩)
    rw [below_iff_of_parentOf hparent]
    rcases List.mem_append.mp hq with hq | hq
    · exact .inr ((horder.mem_iff q).mp hq).2
    · exact .inl (List.mem_singleton.mp hq)
  tidy q hq := by
    rcases List.mem_append.mp hq with hq | hq
    · exact htidy q hq
    · rw [List.mem_singleton.mp hq, hp]

lemma BottomUp.removeAll_iff (h : NormalTree vfs) (horder : vfs.BottomUp p order)
    (hp : normalizePath p = .ok p) (htidy : ∀ q ∈ order, normalizePath q = .ok q) :
    vfs.removeAll (order ++ [p]) = .ok v ↔
      (∀ q ∈ order ++ [p], vfs.Deletable q) ∧ v = vfs.delete (order ++ [p]) := by
  have hrun : (vfs.delete []).removeAll (order ++ [p]) = .ok v ↔
      (∀ q ∈ order ++ [p], vfs.Deletable q) ∧ v = vfs.delete ([] ++ (order ++ [p])) :=
    removeAll_delete_iff h.wellFormed (horder.removable hp htidy)
  exact hrun

lemma Deletable.containsKey (h : vfs.Deletable q) : vfs.containsKey q := by
  obtain ⟨⟨entry, hentry, _⟩, _⟩ := h
  simp [Vfs.containsKey, hentry]

section Subtree

variable (h : NormalTree vfs) (hp : normalizePath p = .ok p) (hroot : p ≠ root)
  (horder : vfs.BottomUp p order)

include h hp hroot horder

lemma mem_toDelete_iff_order (hkey : vfs.containsKey p) :
    q ∈ vfs.toDelete p ↔ q ∈ order ++ [p] := by
  rw [mem_toDelete_iff h (isNormal_of_normalizePath hp) hroot, List.mem_append, horder.mem_iff,
    List.mem_singleton]
  constructor
  · rintro ⟨hq, heq | hbelow⟩
    · exact .inr heq
    · exact .inl ⟨hq, hbelow⟩
  · rintro (⟨hq, hbelow⟩ | rfl)
    · exact ⟨hq, .inr hbelow⟩
    · exact ⟨hkey, .inl rfl⟩

lemma removeRecursive_iff : vfs.removeRecursive p = .ok v ↔
    (∀ q ∈ order ++ [p], vfs.Deletable q) ∧ v = vfs.delete (vfs.toDelete p) := by
  rw [removeRecursive_eq_ok]
  constructor
  · rintro ⟨p', hp', hkey, hall, rfl⟩
    rw [hp] at hp'
    obtain rfl := Except.ok.inj hp'
    exact ⟨fun q hq => hall q ((mem_toDelete_iff_order h hp hroot horder hkey).mpr hq), rfl⟩
  · rintro ⟨hall, rfl⟩
    have hkey := (hall p (by simp)).containsKey
    exact ⟨p, hp, hkey, fun q hq => hall q ((mem_toDelete_iff_order h hp hroot horder hkey).mp hq),
      rfl⟩

lemma agrees_of_tidy (htidy : ∀ q ∈ order, normalizePath q = .ok q) : vfs.Agrees p order where
  succeeds := by
    simp only [removeRecursive_iff h hp hroot horder, horder.removeAll_iff h hp htidy,
      exists_and_left, exists_eq, and_true]
  entries v v' hv hv' := by
    obtain ⟨hall, rfl⟩ := (removeRecursive_iff h hp hroot horder).mp hv
    obtain ⟨_, rfl⟩ := (horder.removeAll_iff h hp htidy).mp hv'
    have hkey := (hall p (by simp)).containsKey
    have hmem (q : Text) := mem_toDelete_iff_order (q := q) h hp hroot horder hkey
    have hsubtree (q : Text) :=
      mem_toDelete_iff (q := q) h (isNormal_of_normalizePath hp) hroot
    refine ⟨funext fun q => ?_, fun q hq => ?_, fun q hne hbelow => ?_⟩
    · rw [get_delete, get_delete]
      exact if_congr (hmem q) rfl rfl
    · rw [get_delete]
      split_ifs with hmem'
      · rfl
      · by_contra hsome
        exact hmem' ((hsubtree q).mpr ⟨Option.isSome_iff_ne_none.mpr hsome, hq⟩)
    · rw [get_delete, if_neg]
      intro hmem'
      rcases ((hsubtree q).mp hmem').2 with heq | hin
      · exact hne heq
      · exact hbelow hin

lemma agrees_iff_of_ne_root : vfs.Agrees p order ↔
    (∀ q, vfs.containsKey q → Below p q → normalizePath q = .ok q) ∨
      ∃ q, vfs.containsKey q ∧ (q = p ∨ Below p q) ∧ ¬ vfs.Deletable q := by
  constructor
  · intro hagrees
    by_contra hnot
    simp only [not_or, not_forall, not_exists, not_and, not_not] at hnot
    obtain ⟨⟨q, hq, hbelow, huntidy⟩, hdel⟩ := hnot
    have hkey := h.containsKey_of_below hq hbelow
    have hall : ∀ r ∈ order ++ [p], vfs.Deletable r := by
      intro r hr
      obtain ⟨hrkey, hrin⟩ := (mem_toDelete_iff h (isNormal_of_normalizePath hp) hroot).mp
        ((mem_toDelete_iff_order h hp hroot horder hkey).mpr hr)
      exact hdel r hrkey hrin
    obtain ⟨v', hrun⟩ := hagrees.succeeds.mp
      ⟨_, (removeRecursive_iff h hp hroot horder).mpr ⟨hall, rfl⟩⟩
    exact huntidy (tidy_of_removeAll h hroot hp horder hrun q ((horder.mem_iff q).mpr ⟨hq, hbelow⟩))
  · rintro (htidy | ⟨q, hq, hin, hdel⟩)
    · apply agrees_of_tidy h hp hroot horder
      intro q hq
      obtain ⟨hkey, hbelow⟩ := (horder.mem_iff q).mp hq
      exact htidy q hkey hbelow
    · have hmem : q ∈ order ++ [p] := by
        rcases hin with rfl | hbelow
        · simp
        · exact List.mem_append_left _ ((horder.mem_iff q).mpr ⟨hq, hbelow⟩)
      have hfails (v : Vfs) : vfs.removeRecursive p ≠ .ok v := fun hv =>
        hdel (((removeRecursive_iff h hp hroot horder).mp hv).1 q hmem)
      have hfails' (v : Vfs) : vfs.removeAll (order ++ [p]) ≠ .ok v := by
        intro hv
        have htidy := tidy_of_removeAll h hroot hp horder hv
        exact hdel (((horder.removeAll_iff h hp htidy).mp hv).1 q hmem)
      refine ⟨iff_of_false ?_ ?_, fun v _ hv => absurd hv (hfails v)⟩
      · rintro ⟨v, hv⟩
        exact hfails v hv
      · rintro ⟨v, hv⟩
        exact hfails' v hv

end Subtree

/-! ### The root -/

section Root

variable (h : NormalTree vfs) (horder : vfs.BottomUp root order)

include h

lemma removeRecursive_root_iff : vfs.removeRecursive root = .ok v ↔
    vfs.Deletable root ∧ v = vfs.delete (vfs.toDelete root) := by
  have hnormal : normalizePath root = .ok root := by decide +kernel
  rw [removeRecursive_eq_ok]
  constructor
  · rintro ⟨p', hp', hkey, hall, rfl⟩
    rw [hnormal] at hp'
    obtain rfl := Except.ok.inj hp'
    exact ⟨hall root (h.wellFormed.mem_toDelete_root.mpr ⟨hkey, rfl⟩), rfl⟩
  · rintro ⟨hdel, rfl⟩
    refine ⟨root, hnormal, hdel.containsKey, fun q hq => ?_, rfl⟩
    rwa [(h.wellFormed.mem_toDelete_root.mp hq).2]

include horder

lemma agrees_root_iff :
    vfs.Agrees root order ↔ ¬ vfs.Deletable root ∨ vfs.children root = ∅ := by
  have hnormal : normalizePath root = .ok root := by decide +kernel
  constructor
  · intro hagrees
    by_contra hnot
    obtain ⟨hdel, hchildren⟩ := not_or.mp hnot
    rw [not_not] at hdel
    obtain ⟨c, hparent, hkey⟩ := Set.nonempty_iff_ne_empty.mpr hchildren
    -- the root alone is deleted
    have hrun := (removeRecursive_root_iff h).mpr ⟨hdel, rfl⟩
    obtain ⟨v', hrun'⟩ := hagrees.succeeds.mp ⟨_, hrun⟩
    have hgone := (hagrees.entries _ v' hrun hrun').2.1 c (.inr (.single hparent))
    rw [get_delete, if_neg] at hgone
    · rw [containsKey, hgone] at hkey
      cases hkey
    · intro hmem
      rw [(h.wellFormed.mem_toDelete_root.mp hmem).2] at hparent
      cases hparent
  · rintro (hdel | hempty)
    · have hfails (v : Vfs) : vfs.removeRecursive root ≠ .ok v := fun hv =>
        hdel ((removeRecursive_root_iff h).mp hv).1
      have hfails' (v : Vfs) : vfs.removeAll (order ++ [root]) ≠ .ok v := by
        intro hv
        obtain ⟨v', hbefore, hlast⟩ := removeAll_append_eq_ok.mp hv
        obtain ⟨removed, _, _, _, _, rfl⟩ := exists_removed hbefore
        obtain ⟨v'', hlast, _⟩ := removeAll_cons_eq_ok.mp hlast
        obtain ⟨p', hp', hdel', _⟩ := remove_eq_ok.mp hlast
        rw [hnormal] at hp'
        obtain rfl := Except.ok.inj hp'
        exact hdel (deletable_delete_iff.mp hdel').2.2
      refine ⟨iff_of_false ?_ ?_, fun v _ hv => absurd hv (hfails v)⟩
      · rintro ⟨v, hv⟩
        exact hfails v hv
      · rintro ⟨v, hv⟩
        exact hfails' v hv
    · have hnone (q : Text) (hbelow : Below root q) : ¬ vfs.containsKey q := by
        intro hkey
        obtain ⟨c, hparent, hrest⟩ := Relation.TransGen.head'_iff.mp hbelow
        have hc : vfs.containsKey c := by
          rcases Relation.reflTransGen_iff_eq_or_transGen.mp hrest with rfl | hbelow
          · exact hkey
          · exact h.containsKey_of_below hkey hbelow
        exact Set.notMem_empty c (hempty ▸ ⟨hparent, hc⟩)
      have hnil : order = [] := List.eq_nil_iff_forall_not_mem.mpr fun q hq =>
        hnone q ((horder.mem_iff q).mp hq).2 ((horder.mem_iff q).mp hq).1
      subst hnil
      have hrun (v : Vfs) : vfs.removeAll ([] ++ [root]) = .ok v ↔
          vfs.Deletable root ∧ v = vfs.delete [root] := by
        simpa using horder.removeAll_iff (v := v) h hnormal fun _ hmem => by cases hmem
      have hsame (hdel : vfs.Deletable root) (q : Text) : q ∈ vfs.toDelete root ↔ q ∈ [root] := by
        rw [h.wellFormed.mem_toDelete_root, List.mem_singleton]
        exact and_iff_right hdel.containsKey
      constructor
      · simp only [removeRecursive_root_iff h, hrun, exists_and_left, exists_eq, and_true]
      · intro v v' hv hv'
        obtain ⟨hdel, rfl⟩ := (removeRecursive_root_iff h).mp hv
        obtain ⟨_, rfl⟩ := (hrun v').mp hv'
        refine ⟨funext fun q => ?_, fun q hq => ?_, fun q hne _ => ?_⟩
        · rw [get_delete, get_delete]
          exact if_congr (hsame hdel q) rfl rfl
        · rw [get_delete]
          split_ifs with hmem
          · rfl
          · rcases hq with rfl | hbelow
            · exact absurd ((hsame hdel _).mpr (List.mem_singleton_self _)) hmem
            · by_contra hsome
              exact hnone q hbelow (Option.isSome_iff_ne_none.mpr hsome)
        · rw [get_delete, if_neg]
          intro hmem
          exact hne (h.wellFormed.mem_toDelete_root.mp hmem).2

end Root

/-- Recursive removal is removal from the bottom up, unless a name in the subtree ends in a blank
or the path is the root and has entries. -/
theorem agrees_iff (vfs : Vfs) (h : NormalTree vfs) (path : Text)
    (hpath : normalizePath path = .ok path) (order : List Text)
    (horder : vfs.BottomUp path order) : vfs.Agrees path order ↔ vfs.AgreesWhen path := by
  unfold AgreesWhen
  split_ifs with hroot
  · subst hroot
    exact agrees_root_iff h horder
  · exact agrees_iff_of_ne_root h hpath hroot horder

/-- Any path of names is stored somewhere. -/
lemma exists_normalTree {names : List Text} (hnames : ∀ name ∈ names, IsComponent name) :
    ∃ vfs, NormalTree vfs ∧ ∃ d, vfs.get (ofNames names) = some d ∧ d.isDir := by
  induction names using List.reverseRecOn with
  | nil =>
    refine ⟨empty.insert root (.directory .readWrite),
      ⟨fun q hq => ?_, fun q entry hq dir hdir => ?_⟩, _, get_insert_self _ _ _, rfl⟩
    · rw [containsKey, get_insert] at hq
      split_ifs at hq with heq
      · subst heq
        exact ⟨root, rfl⟩
      · cases hq
    · rw [get_insert] at hq
      split_ifs at hq with heq
      · rw [heq] at hdir
        cases hdir
      · cases hq
  | append_singleton names name ih =>
    have hfront : ∀ name ∈ names, IsComponent name :=
      fun n hn => hnames n (List.mem_append_left _ hn)
    obtain ⟨vfs, htree, d, hd, hisDir⟩ := ih hfront
    refine ⟨vfs.insert (ofNames (names ++ [name])) (.directory .readWrite), ⟨fun q hq => ?_, ?_⟩,
      _, get_insert_self _ _ _, rfl⟩
    · rw [containsKey, get_insert] at hq
      split_ifs at hq with heq
      · exact heq ▸ exists_normalizePath_eq hnames
      · exact htree.keys q hq
    · refine htree.closed.set (fun q => vfs.get_insert _ q _) (fun dir hdir => ?_) fun _ _ _ => rfl
      rw [parentOf_ofNames (hnames name (by simp)).isName] at hdir
      obtain rfl := Option.some.inj hdir
      exact ⟨d, hd, hisDir⟩

/-! ### Two filesystems -/

lemma normalTree_of_entries (h : ∀ e ∈ vfs.entries.entries,
    (normalizePath e.1 = .ok e.1 ∨ normalizePath (e.1 ++ ['/', '.']) = .ok e.1) ∧
      ∀ dir ∈ parentOf e.1, (vfs.get dir).any Entry.isDir) : NormalTree vfs := by
  constructor
  · intro q hq
    obtain ⟨entry, hentry⟩ := Option.isSome_iff_exists.mp hq
    rcases (h _ (mem_entries_iff.mpr hentry)).1 with hraw | hraw
    · exact ⟨q, hraw⟩
    · exact ⟨_, hraw⟩
  · intro q entry hq dir hdir
    have hany := (h _ (mem_entries_iff.mpr hq)).2 dir hdir
    cases hd : vfs.get dir with
    | none => simp [hd] at hany
    | some d => exact ⟨d, rfl, by simpa [hd] using hany⟩

lemma bottomUp_singleton (h : NormalTree vfs) (hp : IsNormal p) (hq : vfs.containsKey q)
    (hparent : parentOf q = some p)
    (hall : ∀ e ∈ vfs.entries.entries, dirPrefix p <+: e.1 → e.1 = root ∨ e.1 = q) :
    vfs.BottomUp p [q] where
  nodup := List.nodup_singleton q
  mem_iff r := by
    rw [List.mem_singleton]
    constructor
    · rintro rfl
      exact ⟨hq, .single hparent⟩
    · rintro ⟨hkey, hbelow⟩
      obtain ⟨entry, hentry⟩ := Option.isSome_iff_exists.mp hkey
      have hroot : r ≠ root := by
        rintro rfl
        exact not_below_of_parentOf_none parentOf_root hbelow
      have hfront := (dirPrefix_prefix_iff hp (h.wellFormed.normal r entry hentry) hroot).mpr hbelow
      exact (hall _ (mem_entries_iff.mpr hentry) hfront).resolve_left hroot
  children_first := List.pairwise_singleton _ q

lemma exists_of_isOk {r : Except VfsError Vfs} (h : r.isOk = true) : ∃ v, r = .ok v := by
  cases r with
  | error e => cases h
  | ok v => exact ⟨v, rfl⟩

/-- A directory with one file. -/
theorem agrees_oneFile :
    let vfs := new.run [.createDir "/tmp/d".toList .readWrite,
      .writeFile "/tmp/d/x".toList [] .readWrite]
    NormalTree vfs ∧ vfs.BottomUp "/tmp/d".toList ["/tmp/d/x".toList] ∧
      (vfs.Agrees "/tmp/d".toList ["/tmp/d/x".toList] ↔ vfs.AgreesWhen "/tmp/d".toList) := by
  intro vfs
  have hnormal : normalizePath "/tmp/d".toList = .ok "/tmp/d".toList := by decide +kernel
  have h : NormalTree vfs := normalTree_of_entries (by decide +kernel)
  have horder := bottomUp_singleton (q := "/tmp/d/x".toList) h (isNormal_of_normalizePath hnormal)
    (by decide +kernel) (by decide +kernel) (by decide +kernel)
  exact ⟨h, horder, agrees_iff vfs h _ hnormal _ horder⟩

/-- A file whose name ends in a blank, and a root that may be deleted. -/
theorem not_agrees_trailingBlank :
    (let vfs := new.run [.createDir "/tmp/d".toList .readWrite,
      .writeFile "/tmp/d/x /.".toList [] .readWrite]
     NormalTree vfs ∧ vfs.BottomUp "/tmp/d".toList ["/tmp/d/x ".toList] ∧
      ¬ vfs.Agrees "/tmp/d".toList ["/tmp/d/x ".toList]) ∧
    (let vfs := empty.run [.createDir root .readWrite, .createDir "/a".toList .readWrite]
     NormalTree vfs ∧ vfs.BottomUp root ["/a".toList] ∧ ¬ vfs.Agrees root ["/a".toList]) := by
  constructor
  · intro vfs
    have hnormal : normalizePath "/tmp/d".toList = .ok "/tmp/d".toList := by decide +kernel
    have h : NormalTree vfs := normalTree_of_entries (by decide +kernel)
    have horder := bottomUp_singleton (q := "/tmp/d/x ".toList) h
      (isNormal_of_normalizePath hnormal) (by decide +kernel) (by decide +kernel)
      (by decide +kernel)
    refine ⟨h, horder, fun hagrees => ?_⟩
    have hdeleted : (vfs.removeRecursive "/tmp/d".toList).isOk = true := by decide +kernel
    have hfails : (vfs.removeAll (["/tmp/d/x ".toList] ++ ["/tmp/d".toList])).isOk = false := by
      decide +kernel
    obtain ⟨v, hv⟩ := hagrees.succeeds.mp (exists_of_isOk hdeleted)
    rw [hv] at hfails
    cases hfails
  · intro vfs
    have h : NormalTree vfs := normalTree_of_entries (by decide +kernel)
    have horder := bottomUp_singleton (q := "/a".toList) h isNormal_root
      (by decide +kernel) (by decide +kernel) (by decide +kernel)
    refine ⟨h, horder, fun hagrees => ?_⟩
    have hdeleted : (vfs.removeRecursive root).isOk = true := by decide +kernel
    have hstays : (vfs.removeRecursive root).toOption.all (·.containsKey "/a".toList) = true := by
      decide +kernel
    obtain ⟨v, hv⟩ := exists_of_isOk hdeleted
    obtain ⟨v', hv'⟩ := hagrees.succeeds.mp ⟨v, hv⟩
    have hinside : Below root "/a".toList := .single (by decide +kernel)
    rw [hv] at hstays
    have hkey : v.containsKey "/a".toList = true := hstays
    rw [containsKey, (hagrees.entries v v' hv hv').2.1 _ (.inr hinside)] at hkey
    cases hkey

end AmlaSandbox.Vfs
