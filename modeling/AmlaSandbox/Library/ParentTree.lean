import Mathlib.Data.List.Infix
import Mathlib.Logic.Function.Basic
import Mathlib.Logic.Relation
import Mathlib.Tactic.Common

/-!
# Trees

A tree kept as a map from keys to values: each key may have a parent key, and some values may have
children. The map is a tree where every key's parent is present and may have children.

A store of items that have a parent or are at the top: `up` answers for a key whether its item is
there and what its parent is. A walk follows the parents until it comes to the top, and a bounded
walk gives up after a number of items.

Folders with named children, and files: a path of names leads to a node, which may be changed in
its place.
-/

namespace AmlaSandbox.Library

/-! ## Flat maps that are trees -/

section

variable {K V : Type*} {parent : K → Option K} {isDir : V → Prop} {m m' : K → Option V}
variable {k p : K} {v : V}

/-- The parent of each key that has one is a directory. -/
def ParentClosed (parent : K → Option K) (isDir : V → Prop) (m : K → Option V) : Prop :=
  ∀ k v, m k = some v → ∀ p, parent k = some p → ∃ d, m p = some d ∧ isDir d

namespace ParentClosed

/-- A key below a directory may be set to a value that keeps its children. -/
lemma set [DecidableEq K] (h : ParentClosed parent isDir m)
    (hm' : ∀ q, m' q = if q = k then some v else m q)
    (hparent : ∀ p, parent k = some p → ∃ d, m p = some d ∧ isDir d)
    (hkeep : ∀ d, m k = some d → isDir d → isDir v) : ParentClosed parent isDir m' := by
  have hdir : ∀ p d, m p = some d → isDir d → ∃ d, m' p = some d ∧ isDir d := by
    intro p d hd hisDir
    rw [hm' p]
    split_ifs with heq
    · exact ⟨v, rfl, hkeep d (heq ▸ hd) hisDir⟩
    · exact ⟨d, hd, hisDir⟩
  intro q w hq p hp
  rw [hm' q] at hq
  split_ifs at hq with heq
  · obtain ⟨d, hd, hisDir⟩ := hparent p (heq ▸ hp)
    exact hdir p d hd hisDir
  · obtain ⟨d, hd, hisDir⟩ := h q w hq p hp
    exact hdir p d hd hisDir

/-- Keys may go where whatever stays keeps its parent. -/
lemma restrict (h : ParentClosed parent isDir m) (hsub : ∀ q v, m' q = some v → m q = some v)
    (hkeep : ∀ q v p, m' q = some v → parent q = some p → m' p = m p) :
    ParentClosed parent isDir m' := by
  intro q v hq p hp
  obtain ⟨d, hd, hisDir⟩ := h q v (hsub q v hq) p hp
  exact ⟨d, by rw [hkeep q v p hq hp, hd], hisDir⟩

end ParentClosed

end

/-! ## Walks to the top -/

section

variable {K L : Type*} {up : K → Option (Option K)} {k p top : K} {n : ℕ}

def climb (up : K → Option (Option K)) : ℕ → K → Option K
  | 0, _ => none
  | fuel + 1, k =>
    match up k with
    | none => none
    | some none => some k
    | some (some p) => climb up fuel p

/-- `Ascends up k n top`: the walk from `k` meets `n` items, and `top` is the last of them. -/
inductive Ascends (up : K → Option (Option K)) : K → ℕ → K → Prop
  | top {k : K} : up k = some none → Ascends up k 1 k
  | parent {k p top : K} {n : ℕ} :
    up k = some (some p) → Ascends up p n top → Ascends up k (n + 1) top

/-- The item of `k` is there and has the parent `p`. -/
def ParentOf (up : K → Option (Option K)) (k p : K) : Prop := up k = some (some p)

namespace Ascends

lemma up_top (h : Ascends up k n top) : up top = some none := by
  induction h with
  | top htop => exact htop
  | parent _ _ ih => exact ih

/-- A bounded walk finds the top exactly if the bound covers the items on the way. -/
theorem climb_eq (h : Ascends up k n top) (fuel : ℕ) :
    climb up fuel k = if n ≤ fuel then some top else none := by
  induction h generalizing fuel with
  | top htop =>
    cases fuel with
    | zero => rfl
    | succ fuel => simp [climb, htop]
  | parent hparent _ ih =>
    cases fuel with
    | zero => rfl
    | succ fuel => simp [climb, hparent, ih]

/-- A label that no step of the walk changes is the label of the top. -/
theorem label_eq (label : K → L) (h : Ascends up k n top)
    (hlabel : ∀ k p, ParentOf up k p → (up p).isSome → label p = label k) :
    label top = label k := by
  induction h with
  | top => rfl
  | parent hparent h ih =>
    refine ih.trans (hlabel _ _ hparent ?_)
    cases h with
    | top htop => simp [htop]
    | parent hparent => simp [hparent]

end Ascends

/-- Where no ancestor is missing and a rank falls from child to parent, the walk ends. -/
theorem exists_ascends (rank : K → ℕ)
    (hrank : ∀ k p, ParentOf up k p → (up p).isSome → rank p < rank k)
    (hpresent : ∀ p, Relation.ReflTransGen (ParentOf up) k p → (up p).isSome) :
    ∃ n top, Ascends up k n top := by
  induction hk : rank k using Nat.strongRecOn generalizing k with
  | ind r ih =>
    obtain ⟨parent, hup⟩ := Option.isSome_iff_exists.mp (hpresent k .refl)
    cases parent with
    | none => exact ⟨1, k, .top hup⟩
    | some p =>
      have hp : (up p).isSome := hpresent p (.single hup)
      obtain ⟨n, top, hwalk⟩ := ih (rank p) (hk ▸ hrank k p hup hp)
        (fun q hq => hpresent q (.head hup hq)) rfl
      exact ⟨n + 1, top, .parent hup hwalk⟩

end

/-! ## Hierarchies -/

inductive Hierarchy (ν φ δ : Type)
  | file (content : φ)
  | folder (info : δ) (children : ν → Option (Hierarchy ν φ δ))

namespace Hierarchy

variable {ν φ δ : Type}

/-- What a node is apart from its children. -/
def label : Hierarchy ν φ δ → φ ⊕ δ
  | file content => .inl content
  | folder info _ => .inr info

def child (t : Hierarchy ν φ δ) (name : ν) : Option (Hierarchy ν φ δ) :=
  match t with
  | file _ => none
  | folder _ children => children name

/-- A node without children. -/
def leaf : φ ⊕ δ → Hierarchy ν φ δ
  | .inl content => file content
  | .inr info => folder info fun _ => none

/-- The node at the end of a path. -/
def find (t : Option (Hierarchy ν φ δ)) : List ν → Option (Hierarchy ν φ δ)
  | [] => t
  | name :: names => find (t.bind (·.child name)) names

/-- The label of the node at the end of a path. -/
def look (t : Option (Hierarchy ν φ δ)) (p : List ν) : Option (φ ⊕ δ) := (find t p).map label

variable [DecidableEq ν] in
/-- Change the node at the end of a path whose last folder is there. -/
def alter (f : Option (Hierarchy ν φ δ) → Option (Hierarchy ν φ δ)) :
    List ν → Option (Hierarchy ν φ δ) → Option (Hierarchy ν φ δ)
  | [], t => f t
  | name :: names, some (folder info children) =>
    some (folder info (Function.update children name (alter f names (children name))))
  | _ :: _, t => t

variable {t : Option (Hierarchy ν φ δ)} {p q : List ν} {name : ν} {l : φ ⊕ δ} {info : δ}

@[simp] lemma find_nil (t : Option (Hierarchy ν φ δ)) : find t [] = t := rfl

@[simp] lemma find_none (p : List ν) : find (none : Option (Hierarchy ν φ δ)) p = none := by
  induction p with
  | nil => rfl
  | cons name p ih => exact ih

@[simp] lemma label_leaf (l : φ ⊕ δ) : (leaf l : Hierarchy ν φ δ).label = l := by
  cases l <;> rfl

@[simp] lemma child_leaf (l : φ ⊕ δ) (name : ν) : (leaf l : Hierarchy ν φ δ).child name = none := by
  cases l <;> rfl

lemma find_append (t : Option (Hierarchy ν φ δ)) (p q : List ν) :
    find t (p ++ q) = find (find t p) q := by
  induction p generalizing t with
  | nil => rfl
  | cons name p ih => exact ih _

lemma find_leaf_cons (l : φ ⊕ δ) (name : ν) (p : List ν) :
    find (some (leaf l : Hierarchy ν φ δ)) (name :: p) = none := by
  simp [find]

lemma isSome_look_of_append (h : (look t (p ++ q)).isSome) : (look t p).isSome := by
  rw [look, find_append] at h
  rw [look, Option.isSome_map]
  cases hnode : find t p with
  | none => simp [hnode] at h
  | some node => rfl

/-- Only folders have anything inside. -/
lemma exists_folder_of_look (h : (look t (p ++ name :: q)).isSome) :
    ∃ info, look t p = some (.inr info) := by
  rw [look, find_append] at h
  cases hnode : find t p with
  | none => simp [hnode] at h
  | some node =>
    cases node with
    | file content => simp [hnode, find, child] at h
    | folder info children => exact ⟨info, by rw [look, hnode]; rfl⟩

section Alter

variable [DecidableEq ν] {f : Option (Hierarchy ν φ δ) → Option (Hierarchy ν φ δ)}

lemma look_alter_elsewhere (h : ¬ p <+: q) : look (alter f p t) q = look t q := by
  induction p generalizing t q with
  | nil => exact absurd List.nil_prefix h
  | cons name p ih =>
    rcases t with _ | ⟨content⟩ | ⟨info, children⟩
    · rfl
    · rfl
    · cases q with
      | nil => rfl
      | cons name' q =>
        simp only [look, alter, find, Option.bind_some, child]
        by_cases heq : name' = name
        · subst heq
          rw [Function.update_self]
          exact ih fun hpre => h (List.cons_prefix_cons.mpr ⟨rfl, hpre⟩)
        · rw [Function.update_of_ne heq]

/-- The folder of the node is there. -/
def HasFolder (t : Option (Hierarchy ν φ δ)) (p : List ν) : Prop :=
  ∀ q name, p = q ++ [name] → ∃ info, look t q = some (.inr info)

omit [DecidableEq ν] in
lemma HasFolder.exists_folder (h : HasFolder t (name :: p)) :
    ∃ info children, t = some (folder info children) ∧ HasFolder (children name) p := by
  have hlook : ∃ info, look t [] = some (.inr info) := by
    cases p using List.reverseRecOn with
    | nil => exact h [] name rfl
    | append_singleton p last =>
      obtain ⟨info, hinfo⟩ := h (name :: p) last rfl
      have hinside : (look t ([] ++ name :: p)).isSome := by simp [hinfo]
      exact exists_folder_of_look hinside
  rcases t with _ | ⟨content⟩ | ⟨info, children⟩
  · simp [look] at hlook
  · simp [look, label] at hlook
  · refine ⟨info, children, rfl, fun q last hp => ?_⟩
    exact h (name :: q) last (by rw [hp, List.cons_append])

lemma find_alter_append (h : HasFolder t p) :
    find (alter f p t) (p ++ q) = find (f (find t p)) q := by
  induction p generalizing t with
  | nil => rfl
  | cons name p ih =>
    obtain ⟨info, children, rfl, hchild⟩ := h.exists_folder
    simp only [alter, List.cons_append, find, Option.bind_some, child, Function.update_self]
    exact ih hchild

/-- A node without children is put in the place of one, or of none. -/
lemma look_put (h : HasFolder t p) (hempty : ∀ info, look t p ≠ some (.inr info)) :
    look (alter (fun _ => some (leaf l)) p t) q = if q = p then some l else look t q := by
  by_cases hpre : p <+: q
  · obtain ⟨rest, rfl⟩ := hpre
    rw [look, find_alter_append h]
    cases rest with
    | nil => simp
    | cons name rest =>
      have hnone : look t (p ++ name :: rest) = none := by
        by_contra hsome
        obtain ⟨info, hinfo⟩ := exists_folder_of_look (Option.ne_none_iff_isSome.mp hsome)
        exact hempty info hinfo
      rw [find_leaf_cons, if_neg (by simp), hnone]
      rfl
  · have hne : q ≠ p := by
      rintro rfl
      exact hpre List.prefix_rfl
    rw [look_alter_elsewhere hpre, if_neg hne]

lemma find_cut (t : Option (Hierarchy ν φ δ)) (p q : List ν) :
    find (alter (fun _ => none) p t) (p ++ q) = none := by
  induction p generalizing t with
  | nil => simp [alter]
  | cons name p ih =>
    rcases t with _ | ⟨content⟩ | ⟨info, children⟩
    · simp [alter]
    · simp [alter, find, child]
    · simp only [alter, List.cons_append, find, Option.bind_some, child, Function.update_self]
      exact ih _

/-- A folder or a file goes with all that is inside. -/
lemma look_cut : look (alter (fun _ => none) p t) q = if p <+: q then none else look t q := by
  split_ifs with hpre
  · obtain ⟨rest, rfl⟩ := hpre
    rw [look, find_cut]
    rfl
  · exact look_alter_elsewhere hpre

end Alter

/-! Every flat map in which all items are in folders, and that is not too deep, is a hierarchy. -/

/-- The folder of each item is there. -/
def InFolders (m : List ν → Option (φ ⊕ δ)) : Prop :=
  ∀ p name, (m (p ++ [name])).isSome → ∃ info, m p = some (.inr info)

/-- The hierarchy of a flat map, down to a depth. -/
def ofMap : ℕ → (List ν → Option (φ ⊕ δ)) → Option (Hierarchy ν φ δ)
  | 0, _ => none
  | n + 1, m =>
    match m [] with
    | none => none
    | some (.inl content) => some (file content)
    | some (.inr info) => some (folder info fun name => ofMap n fun p => m (name :: p))

lemma InFolders.exists_folder {m : List ν → Option (φ ⊕ δ)} (h : InFolders m)
    (hsome : (m (p ++ name :: q)).isSome) : ∃ info, m p = some (.inr info) := by
  induction q using List.reverseRecOn with
  | nil => exact h p name hsome
  | append_singleton q last ih =>
    obtain ⟨info, hinfo⟩ := h (p ++ name :: q) last (by simpa using hsome)
    exact ih (by simp [hinfo])

lemma look_ofMap {m : List ν → Option (φ ⊕ δ)} {n : ℕ} (h : InFolders m)
    (hdepth : ∀ p, (m p).isSome → p.length < n) : look (ofMap n m) p = m p := by
  induction n generalizing m p with
  | zero =>
    have hnone : m p = none := by
      by_contra hsome
      exact absurd (hdepth p (Option.ne_none_iff_isSome.mp hsome)) (Nat.not_lt_zero _)
    rw [hnone, ofMap, look, find_none]
    rfl
  | succ n ih =>
    cases p with
    | nil =>
      rw [ofMap]
      split <;> simp_all [look, label]
    | cons name p =>
      have hnone (hroot : ∀ info, m [] ≠ some (.inr info)) : m (name :: p) = none := by
        by_contra hsome
        obtain ⟨info, hinfo⟩ := h.exists_folder (p := []) (Option.ne_none_iff_isSome.mp hsome)
        exact hroot info hinfo
      rw [ofMap]
      split
      next hroot => simp [hnone, hroot, look]
      next hroot => simp [hnone, hroot, look, find, child]
      next info hroot =>
        refine ih (m := fun p => m (name :: p)) (fun q last hsome => h (name :: q) last hsome) ?_
        intro q hsome
        have := hdepth (name :: q) hsome
        simpa using this

end Hierarchy

end AmlaSandbox.Library
