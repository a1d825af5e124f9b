import Mathlib.Logic.Relation
import AmlaSandbox.Library.Computations
import AmlaSandbox.Vfs.Basic

/-!
# What the mutations do

Every call is a sequence of edits that the permission checks allow: a new entry below a writable
directory, a change of one file, or the deletion of entries that may each be deleted. A failed call
is the empty sequence, except that `createDirAll` keeps the directories it made.
-/

namespace AmlaSandbox.Vfs

open Library

/-! ### What the checks admit -/

/-- The parent, if there is one, is a directory that may be changed. -/
def ParentWritable (vfs : Vfs) (path : Text) : Prop :=
  ∀ parent, parentOf path = some parent → vfs.get parent = some (.directory .readWrite)

/-- The entry exists, may be changed, and so may its parent. -/
def Deletable (vfs : Vfs) (path : Text) : Prop :=
  (∃ entry, vfs.get path = some entry ∧ entry.permission = .readWrite) ∧ vfs.ParentWritable path

variable {vfs v v' : Vfs} {path p : Text} {permission : Permission} {content : List UInt8}

lemma checkParentWritable_eq_ok : vfs.checkParentWritable p = .ok () ↔ vfs.ParentWritable p := by
  unfold checkParentWritable ParentWritable
  cases parentOf p with
  | none => simp only [reduceCtorEq, false_implies, implies_true]
  | some parent =>
    simp only [Option.some.injEq, forall_eq']
    rcases vfs.get parent with _ | ⟨content, permission⟩ | ⟨permission⟩
    · simp only [reduceCtorEq]
    · simp only [Option.some.injEq, reduceCtorEq]
    · cases permission <;> simp

lemma checkMutation_create_eq_ok :
    vfs.checkMutation p .create = .ok () ↔ vfs.get p = none ∧ vfs.ParentWritable p := by
  unfold checkMutation
  cases vfs.get p with
  | none => simp [checkParentWritable_eq_ok]
  | some entry => simp

lemma checkMutation_overwrite_eq_ok :
    vfs.checkMutation p .overwrite = .ok () ↔
      (∃ content, vfs.get p = some (.file content .readWrite)) ∨
        vfs.get p = none ∧ vfs.ParentWritable p := by
  unfold checkMutation
  rcases vfs.get p with _ | ⟨content, permission⟩ | ⟨permission⟩
  · simp [checkParentWritable_eq_ok]
  · cases permission <;> simp [Entry.permission, Entry.isDir]
  · cases permission <;> simp [Entry.permission, Entry.isDir]

lemma checkMutation_append_eq_ok :
    vfs.checkMutation p .append = .ok () ↔
      ∃ content permission, vfs.get p = some (.file content permission) ∧
        permission ≠ .readOnly := by
  unfold checkMutation
  rcases vfs.get p with _ | ⟨content, permission⟩ | ⟨permission⟩
  · simp
  · cases permission <;> simp [Entry.permission, Entry.isDir]
  · simp [Entry.isDir]

lemma checkMutation_delete_eq_ok : vfs.checkMutation p .delete = .ok () ↔ vfs.Deletable p := by
  unfold checkMutation Deletable
  cases vfs.get p with
  | none => simp
  | some entry => cases hperm : entry.permission <;> simp [hperm, checkParentWritable_eq_ok]

/-! ### Edits -/

/-- An entry is created, or one file is overwritten or extended. -/
inductive Write (vfs : Vfs) : Vfs → Prop
  | create {p : Text} (entry : Entry) : IsNormal p → vfs.get p = none → vfs.ParentWritable p →
      Write vfs (vfs.insert p entry)
  | overwrite {p : Text} {old : List UInt8} (content : List UInt8) (permission : Permission) :
      vfs.get p = some (.file old .readWrite) → Write vfs (vfs.insert p (.file content permission))
  | append {p : Text} {old : List UInt8} {permission : Permission} (content : List UInt8) :
      vfs.get p = some (.file old permission) → permission ≠ .readOnly →
      Write vfs (vfs.insert p (.file (old ++ content) permission))

inductive Edit (vfs : Vfs) : Vfs → Prop
  | write {v : Vfs} : Write vfs v → Edit vfs v
  | delete (paths : List Text) : (∀ p ∈ paths, vfs.Deletable p) → Edit vfs (vfs.delete paths)

lemma write_of_createDir (h : vfs.createDir path permission = .ok v) : Write vfs v := by
  simp only [createDir, bind_eq_ok, exists_unit, checkMutation_create_eq_ok] at h
  obtain ⟨p, hpath, ⟨hnone, hparent⟩, hv⟩ := h
  obtain rfl := Except.ok.inj hv
  exact .create _ (isNormal_of_normalizePath hpath) hnone hparent

lemma write_of_writeFile (h : vfs.writeFile path content permission = .ok v) : Write vfs v := by
  simp only [writeFile, bind_eq_ok, exists_unit, checkMutation_overwrite_eq_ok] at h
  obtain ⟨p, hpath, hcheck, hv⟩ := h
  obtain rfl := Except.ok.inj hv
  rcases hcheck with ⟨old, hold⟩ | ⟨hnone, hparent⟩
  · exact .overwrite content permission hold
  · exact .create _ (isNormal_of_normalizePath hpath) hnone hparent

lemma write_of_appendFile (h : vfs.appendFile path content = .ok v) : Write vfs v := by
  simp only [appendFile, bind_eq_ok, exists_unit, checkMutation_append_eq_ok] at h
  obtain ⟨p, hpath, ⟨old, permission, hold, hperm⟩, hv⟩ := h
  rw [hold] at hv
  obtain rfl := Except.ok.inj hv
  exact .append content hold hperm

lemma writes_createParts {current : Text} {names : List Text}
    (hcurrent : ∃ above, current = slashed above ∧ ∀ name ∈ above, IsName name)
    (hnames : ∀ name ∈ names, IsName name) :
    Relation.ReflTransGen Write vfs (createParts permission current names vfs).2 := by
  induction names generalizing current vfs with
  | nil => exact .refl
  | cons name names ih =>
    obtain ⟨above, rfl, habove⟩ := hcurrent
    have hnext : slashed above ++ '/' :: name = slashed (above ++ [name]) := by simp
    have hall : ∀ n ∈ above ++ [name], IsName n := by
      intro n hn
      rcases List.mem_append.mp hn with hn | hn
      · exact habove n hn
      · exact hnames n (by simp_all)
    have hrest : ∀ n ∈ names, IsName n := fun n hn => hnames n (List.mem_cons_of_mem _ hn)
    simp only [createParts, hnext]
    split
    · split_ifs
      · exact ih ⟨_, rfl, hall⟩ hrest
      · exact .refl
    · split
      · exact .refl
      · rename_i hcheck
        obtain ⟨hnone, hparent⟩ := checkMutation_create_eq_ok.mp hcheck
        have hnormal : IsNormal (slashed (above ++ [name])) :=
          ⟨_, hall, (ofNames_of_ne_nil (by simp)).symm⟩
        exact .head (.create _ hnormal hnone hparent) (ih ⟨_, rfl, hall⟩ hrest)

lemma isName_of_mem_parts {name : Text} (h : name ∈ parts path) : IsName name := by
  obtain ⟨hmem, hne⟩ := List.mem_filter.mp h
  exact ⟨by simpa using hne, Text.not_mem_of_mem_splitOn hmem⟩

lemma writes_createDirAll :
    Relation.ReflTransGen Write vfs (vfs.createDirAll path permission).2 := by
  unfold createDirAll
  split
  · exact .refl
  · split_ifs
    · exact .refl
    · exact writes_createParts ⟨[], rfl, by simp⟩ fun _ => isName_of_mem_parts

lemma remove_eq_ok :
    vfs.remove path = .ok v ↔
      ∃ p, normalizePath path = .ok p ∧ vfs.Deletable p ∧
        (vfs.isDir p → vfs.listDir p = .ok []) ∧ v = vfs.delete [p] := by
  simp only [remove, bind_eq_ok, exists_unit, checkMutation_delete_eq_ok]
  refine exists_congr fun p => and_congr_right fun _ => and_congr_right fun _ => ?_
  by_cases hdir : vfs.isDir p
  · rw [if_pos hdir, bind_eq_ok]
    constructor
    · rintro ⟨children, hlist, hv⟩
      by_cases hempty : children = []
      · rw [if_neg (not_not_intro hempty)] at hv
        exact ⟨fun _ => hempty ▸ hlist, (Except.ok.inj hv).symm⟩
      · rw [if_pos hempty] at hv
        cases hv
    · rintro ⟨hlist, rfl⟩
      exact ⟨[], hlist hdir, if_neg (not_not_intro rfl)⟩
  · rw [if_neg hdir]
    constructor
    · intro hv
      exact ⟨fun h => absurd h hdir, (Except.ok.inj hv).symm⟩
    · rintro ⟨_, rfl⟩
      rfl

lemma forM_checkMutation_eq_ok {paths : List Text} :
    (paths.forM fun p => vfs.checkMutation p .delete) = .ok () ↔
      ∀ p ∈ paths, vfs.Deletable p := by
  induction paths with
  | nil => simp [pure, Except.pure]
  | cons p paths ih =>
    rw [List.forM_eq_forM, List.forM_cons, bind_eq_ok]
    simp only [exists_unit, checkMutation_delete_eq_ok, List.forall_mem_cons]
    rw [← ih, List.forM_eq_forM]

lemma removeRecursive_eq_ok :
    vfs.removeRecursive path = .ok v ↔
      ∃ p, normalizePath path = .ok p ∧ vfs.containsKey p ∧
        (∀ q ∈ vfs.toDelete p, vfs.Deletable q) ∧ v = vfs.delete (vfs.toDelete p) := by
  simp only [removeRecursive, bind_eq_ok]
  refine exists_congr fun p => and_congr_right fun _ => ?_
  by_cases hkey : vfs.containsKey p
  · rw [if_neg (not_not_intro hkey)]
    simp only [bind_eq_ok, exists_unit, forM_checkMutation_eq_ok, hkey, true_and]
    exact and_congr_right fun _ => ⟨fun h => (Except.ok.inj h).symm, fun h => h ▸ rfl⟩
  · rw [if_pos hkey]
    simp only [hkey, reduceCtorEq, Bool.false_eq_true, false_and]

/-! ### Calls -/

inductive Op
  | createDir (path : Text) (permission : Permission)
  | createDirAll (path : Text) (permission : Permission)
  | writeFile (path : Text) (content : List UInt8) (permission : Permission)
  | appendFile (path : Text) (content : List UInt8)
  | remove (path : Text)
  | removeRecursive (path : Text)
deriving DecidableEq, Repr

/-- The state after a call that changes nothing when it fails. -/
def orUnchanged (vfs : Vfs) : Except VfsError Vfs → Vfs
  | .ok v => v
  | .error _ => vfs

def step (vfs : Vfs) : Op → Vfs
  | .createDir path permission => vfs.orUnchanged (vfs.createDir path permission)
  | .createDirAll path permission => (vfs.createDirAll path permission).2
  | .writeFile path content permission => vfs.orUnchanged (vfs.writeFile path content permission)
  | .appendFile path content => vfs.orUnchanged (vfs.appendFile path content)
  | .remove path => vfs.orUnchanged (vfs.remove path)
  | .removeRecursive path => vfs.orUnchanged (vfs.removeRecursive path)

def run (vfs : Vfs) (ops : List Op) : Vfs := ops.foldl step vfs

@[simp] lemma run_nil : vfs.run [] = vfs := rfl

@[simp] lemma run_cons {op : Op} {ops : List Op} : vfs.run (op :: ops) = (vfs.step op).run ops :=
  rfl

lemma orUnchanged_of_forall {P : Vfs → Prop} {r : Except VfsError Vfs} (hsame : P vfs)
    (h : ∀ v, r = .ok v → P v) : P (vfs.orUnchanged r) := by
  cases r with
  | error e => exact hsame
  | ok v => exact h v rfl

/-- Every call is a sequence of edits. -/
theorem edits_step (op : Op) : Relation.ReflTransGen Edit vfs (vfs.step op) := by
  cases op with
  | createDir path permission =>
    exact orUnchanged_of_forall .refl fun v h => .single (.write (write_of_createDir h))
  | createDirAll path permission =>
    exact Relation.ReflTransGen.mono (fun _ _ h => Edit.write h) _ _ writes_createDirAll
  | writeFile path content permission =>
    exact orUnchanged_of_forall .refl fun v h => .single (.write (write_of_writeFile h))
  | appendFile path content =>
    exact orUnchanged_of_forall .refl fun v h => .single (.write (write_of_appendFile h))
  | remove path =>
    refine orUnchanged_of_forall .refl fun v h => ?_
    obtain ⟨p, _, hdel, _, rfl⟩ := remove_eq_ok.mp h
    exact .single (.delete [p] (by simpa using hdel))
  | removeRecursive path =>
    refine orUnchanged_of_forall .refl fun v h => ?_
    obtain ⟨p, _, _, hdel, rfl⟩ := removeRecursive_eq_ok.mp h
    exact .single (.delete _ hdel)

theorem edits_run (ops : List Op) : Relation.ReflTransGen Edit vfs (vfs.run ops) := by
  induction ops generalizing vfs with
  | nil => exact .refl
  | cons op ops ih => exact (edits_step op).trans ih

end AmlaSandbox.Vfs
