import AmlaSandbox.Vfs.Names
import AmlaSandbox.Vfs.Tree

/-!
# Calls that fail

The mutations with the state they leave behind, also where they fail. All of them check before they
change anything, except that `createDirAll` makes one directory after another: it leaves the first
ones behind when a later part of the path is in the way.
-/

namespace AmlaSandbox.Vfs

/-! ### The mutations as the source runs them -/

/-- What is changed before an error stays changed. -/
abbrev Mutator (α : Type) := ExceptT VfsError (StateM Vfs) α

namespace Mutator

def createDir (path : Text) (permission : Permission) : Mutator Unit := do
  let path ← normalizePath path
  (← getThe Vfs).checkMutation path .create
  modify (·.insert path (.directory permission))

def createDirAll (path : Text) (permission : Permission) : Mutator Unit :=
  fun vfs => vfs.createDirAll path permission

def writeFile (path : Text) (content : List UInt8) (permission : Permission) : Mutator Unit := do
  let path ← normalizePath path
  (← getThe Vfs).checkMutation path .overwrite
  modify (·.insert path (.file content permission))

def appendFile (path : Text) (content : List UInt8) : Mutator Unit := do
  let path ← normalizePath path
  (← getThe Vfs).checkMutation path .append
  if let some (.file existing permission) := (← getThe Vfs).get path then
    modify (·.insert path (.file (existing ++ content) permission))

def remove (path : Text) : Mutator Unit := do
  let path ← normalizePath path
  (← getThe Vfs).checkMutation path .delete
  if (← getThe Vfs).isDir path then
    let children ← (← getThe Vfs).listDir path
    if children ≠ [] then
      throw (.permissionDenied (path ++ ": directory not empty".toList))
  modify (·.delete [path])

def removeRecursive (path : Text) : Mutator Unit := do
  let path ← normalizePath path
  if ¬ (← getThe Vfs).containsKey path then throw (.notFound path)
  let paths := (← getThe Vfs).toDelete path
  paths.forM fun p => do (← getThe Vfs).checkMutation p .delete
  paths.forM fun p => modify (·.delete [p])

end Mutator

def Op.call : Op → Mutator Unit
  | .createDir path permission => Mutator.createDir path permission
  | .createDirAll path permission => Mutator.createDirAll path permission
  | .writeFile path content permission => Mutator.writeFile path content permission
  | .appendFile path content => Mutator.appendFile path content
  | .remove path => Mutator.remove path
  | .removeRecursive path => Mutator.removeRecursive path

/-! ### Checks come first -/

/-- The outcome of a call that changes nothing when it fails. -/
def outcome (vfs : Vfs) : Except VfsError Vfs → Except VfsError Unit × Vfs
  | .ok v => (.ok (), v)
  | .error e => (.error e, vfs)

variable {vfs v : Vfs} {path current : Text} {permission : Permission} {content : List UInt8}
  {names : List Text}

namespace Mutator

variable {α β : Type}

lemma bind_run (x : Mutator α) (f : α → Mutator β) (vfs : Vfs) :
    (x >>= f) vfs = match x vfs with
      | (.ok a, v) => f a v
      | (.error e, v) => (.error e, v) := by
  rcases hx : x vfs with ⟨e | a, v⟩
  · simp only [bind, ExceptT.bind, ExceptT.mk, StateT.bind, ExceptT.bindCont, hx]
    rfl
  · simp only [bind, ExceptT.bind, ExceptT.mk, StateT.bind, ExceptT.bindCont, hx]

lemma liftM_run (r : Except VfsError α) (vfs : Vfs) : (liftM r : Mutator α) vfs = (r, vfs) := by
  cases r <;> rfl

lemma get_run (vfs : Vfs) : (getThe Vfs : Mutator Vfs) vfs = (.ok vfs, vfs) := rfl

lemma modify_run (f : Vfs → Vfs) (vfs : Vfs) :
    (modify f : Mutator Unit) vfs = (.ok (), f vfs) := rfl

lemma throw_run (e : VfsError) (vfs : Vfs) : (throw e : Mutator α) vfs = (.error e, vfs) := rfl

lemma ite_run (c : Prop) [Decidable c] (x y : Mutator α) (vfs : Vfs) :
    (if c then x else y) vfs = if c then x vfs else y vfs := by
  split_ifs <;> rfl

end Mutator

open Mutator

lemma createDir_call : Mutator.createDir path permission vfs =
    vfs.outcome (vfs.createDir path permission) := by
  unfold Mutator.createDir Vfs.createDir
  simp only [bind_run, liftM_run, get_run, modify_run]
  cases normalizePath path with
  | error e => rfl
  | ok p =>
    dsimp only [bind, Except.bind]
    cases vfs.checkMutation p .create <;> rfl

lemma writeFile_call : Mutator.writeFile path content permission vfs =
    vfs.outcome (vfs.writeFile path content permission) := by
  unfold Mutator.writeFile Vfs.writeFile
  simp only [bind_run, liftM_run, get_run, modify_run]
  cases normalizePath path with
  | error e => rfl
  | ok p =>
    dsimp only [bind, Except.bind]
    cases vfs.checkMutation p .overwrite <;> rfl

lemma appendFile_call : Mutator.appendFile path content vfs =
    vfs.outcome (vfs.appendFile path content) := by
  unfold Mutator.appendFile Vfs.appendFile
  simp only [bind_run, liftM_run, get_run]
  cases normalizePath path with
  | error e => rfl
  | ok p =>
    dsimp only [bind, Except.bind]
    cases vfs.checkMutation p .append with
    | error e => rfl
    | ok u =>
      dsimp only
      rcases vfs.get p with _ | ⟨existing, permission⟩ | permission <;> rfl

lemma remove_call : Mutator.remove path vfs = vfs.outcome (vfs.remove path) := by
  unfold Mutator.remove Vfs.remove
  simp only [bind_run, liftM_run, get_run, ite_run, throw_run, modify_run]
  cases normalizePath path with
  | error e => rfl
  | ok p =>
    dsimp only [bind, Except.bind]
    cases vfs.checkMutation p .delete with
    | error e => rfl
    | ok u =>
      dsimp only
      split_ifs with hdir
      · cases vfs.listDir p with
        | error e => rfl
        | ok children =>
          dsimp only
          split_ifs <;> rfl
      · rfl

lemma forM_check_run (paths : List Text) :
    (paths.forM fun p => do (← getThe Vfs).checkMutation p .delete : Mutator Unit) vfs =
      (paths.forM fun p => vfs.checkMutation p .delete, vfs) := by
  induction paths with
  | nil => rfl
  | cons p paths ih =>
    rw [List.forM_eq_forM] at ih ⊢
    rw [List.forM_cons, bind_run, bind_run, get_run, List.forM_eq_forM, List.forM_cons]
    dsimp only
    rw [liftM_run]
    cases vfs.checkMutation p .delete with
    | error e => rfl
    | ok u => exact ih

lemma forM_delete_run (paths : List Text) :
    (paths.forM fun p => modify (·.delete [p]) : Mutator Unit) vfs =
      (.ok (), vfs.delete paths) := by
  induction paths generalizing vfs with
  | nil => rfl
  | cons p paths ih =>
    rw [List.forM_eq_forM] at ih ⊢
    rw [List.forM_cons, bind_run, modify_run]
    exact ih

lemma removeRecursive_call :
    Mutator.removeRecursive path vfs = vfs.outcome (vfs.removeRecursive path) := by
  unfold Mutator.removeRecursive Vfs.removeRecursive
  simp only [bind_run, liftM_run, get_run, ite_run, throw_run, forM_check_run,
    forM_delete_run]
  cases normalizePath path with
  | error e => rfl
  | ok p =>
    dsimp only [bind, Except.bind]
    split_ifs with hkey
    · cases ((vfs.toDelete p).forM fun p => vfs.checkMutation p .delete) <;> rfl
    · rfl

/-! ### One directory after another -/

/-- Behind a directory that has been made: the next part is a directory, or can be made in the one
before, whose permission is the requested one if it had to be made itself. -/
def GoesOn (vfs : Vfs) (permission : Permission) (dir next : Text) : Prop :=
  match vfs.get next with
  | some entry => entry.isDir = true
  | none => (vfs.get dir).elim permission Entry.permission = .readWrite

/-- Once a first directory can be made on the way, nothing behind it is in the way. -/
def NothingInTheWay (vfs : Vfs) (permission : Permission) (dirs : List Text) : Prop :=
  ∀ before dir after, dirs = before ++ dir :: after → (∀ d ∈ before, (vfs.get d).any Entry.isDir) →
    vfs.get dir = none → vfs.ParentWritable dir →
    List.IsChain (vfs.GoesOn permission) (dir :: after)

lemma length_lt_of_mem_dirsTo {q : Text} (h : q ∈ dirsTo current names) :
    current.length < q.length := by
  obtain ⟨parts, hne, _, rfl⟩ := exists_of_mem_dirsTo h
  cases parts with
  | nil => exact absurd rfl hne
  | cons part parts => simp

/-- Directories that have been made stay. -/
lemma get_createParts {q : Text} {entry : Entry} (hq : v.get q = some entry) :
    (createParts permission current names v).2.get q = some entry := by
  induction names generalizing current v with
  | nil => exact hq
  | cons name names ih =>
    simp only [createParts]
    split
    · split_ifs
      · exact ih hq
      · exact hq
    · rename_i hnone
      split
      · exact hq
      · apply ih
        rw [v.get_insert_of_ne]
        · exact hq
        · rintro rfl
          rw [hnone] at hq
          cases hq

/-- The loop from a directory on, which it may have made. -/
lemma createParts_ok_iff {above : List Text} (habove : above ≠ [])
    (hnames : ∀ name ∈ names, IsName name)
    (hdir : v.get (slashed above) =
      some (.directory ((vfs.get (slashed above)).elim permission Entry.permission)))
    (hsame : ∀ q ∈ dirsTo (slashed above) names, v.get q = vfs.get q) :
    (createParts permission (slashed above) names v).1 = .ok () ↔
      List.IsChain (vfs.GoesOn permission) (slashed above :: dirsTo (slashed above) names) := by
  induction names generalizing above v with
  | nil => simp [createParts, dirsTo]
  | cons name names ih =>
    obtain ⟨hname, hrest⟩ := List.forall_mem_cons.mp hnames
    have hnext : slashed above ++ '/' :: name = slashed (above ++ [name]) := by simp
    have hparent : parentOf (slashed (above ++ [name])) = some (slashed above) := by
      rw [← ofNames_of_ne_nil (by simp), ← ofNames_of_ne_nil habove]
      exact parentOf_ofNames hname
    have hih (v' : Vfs) (hdir' : v'.get (slashed (above ++ [name])) = some (.directory
          ((vfs.get (slashed (above ++ [name]))).elim permission Entry.permission)))
        (hsame' : ∀ q ∈ dirsTo (slashed (above ++ [name])) names, v'.get q = vfs.get q) :=
      ih (by simp) hrest hdir' hsame'
    rw [dirsTo, hnext] at hsame ⊢
    simp only [createParts, hnext]
    generalize slashed (above ++ [name]) = next at *
    obtain ⟨hget, hsame⟩ := List.forall_mem_cons.mp hsame
    have hwritable : v.ParentWritable next ↔
        (vfs.get (slashed above)).elim permission Entry.permission = .readWrite := by
      simp [ParentWritable, hparent, hdir]
    rw [List.isChain_cons_cons]
    cases hentry : vfs.get next with
    | some entry =>
      have hgoes : vfs.GoesOn permission (slashed above) next ↔ entry.isDir = true := by
        simp [GoesOn, hentry]
      rw [hget, hentry, hgoes]
      cases hisDir : entry.isDir with
      | true =>
        obtain ⟨perm, rfl⟩ := exists_directory hisDir
        have hdir' : v.get next =
            some (.directory ((vfs.get next).elim permission Entry.permission)) := by
          rw [hget, hentry]
          rfl
        simpa [Entry.isDir] using hih v hdir' hsame
      | false => simp [hisDir]
    | none =>
      have hgoes : vfs.GoesOn permission (slashed above) next ↔ v.ParentWritable next := by
        rw [hwritable]
        simp [GoesOn, hentry]
      have hcheck : v.checkMutation next .create = .ok () ↔ v.get next = none ∧
          v.ParentWritable next := checkMutation_create_eq_ok
      rw [hget, hentry] at hcheck
      rw [hget, hentry, hgoes]
      dsimp only
      cases hresult : v.checkMutation next .create with
      | error e =>
        rw [hresult] at hcheck
        have hnot : ¬ v.ParentWritable next := by
          intro h
          cases hcheck.mpr ⟨rfl, h⟩
        simp [hnot]
      | ok u =>
        have hok := (hcheck.mp (by rw [hresult])).2
        simp only [hok, true_and]
        refine hih _ ?_ fun q hq => ?_
        · rw [get_insert_self, hentry]
          rfl
        · have hlt := length_lt_of_mem_dirsTo hq
          rw [v.get_insert_of_ne _ fun heq => absurd (congrArg List.length heq) (by omega)]
          exact hsame q hq

lemma nothingInTheWay_cons {dir : Text} {dirs : List Text} :
    vfs.NothingInTheWay permission (dir :: dirs) ↔
      (vfs.get dir = none → vfs.ParentWritable dir →
        List.IsChain (vfs.GoesOn permission) (dir :: dirs)) ∧
      ((vfs.get dir).any Entry.isDir → vfs.NothingInTheWay permission dirs) := by
  constructor
  · intro h
    refine ⟨fun hnone hparent => h [] dir dirs rfl (by simp) hnone hparent, ?_⟩
    rintro hisDir before d after rfl hbefore
    exact h (dir :: before) d after rfl (List.forall_mem_cons.mpr ⟨hisDir, hbefore⟩)
  · rintro ⟨hhere, hthere⟩ before d after heq hbefore
    cases before with
    | nil =>
      obtain ⟨rfl, rfl⟩ := List.cons.inj heq
      exact hhere
    | cons d' before =>
      obtain ⟨rfl, rfl⟩ := List.cons.inj heq
      obtain ⟨hisDir, hbefore⟩ := List.forall_mem_cons.mp hbefore
      exact hthere hisDir before d after rfl hbefore

/-- The loop leaves the entries as they were when it fails. -/
lemma createParts_atomic_iff {above : List Text} (hnames : ∀ name ∈ names, IsName name) :
    (∀ e v, createParts permission (slashed above) names vfs = (.error e, v) →
        v.entries = vfs.entries) ↔
      vfs.NothingInTheWay permission (dirsTo (slashed above) names) := by
  induction names generalizing above with
  | nil => simp [createParts, dirsTo, NothingInTheWay]
  | cons name names ih =>
    obtain ⟨hname, hrest⟩ := List.forall_mem_cons.mp hnames
    have hnext : slashed above ++ '/' :: name = slashed (above ++ [name]) := by simp
    have hok (v : Vfs) (hdir : v.get (slashed (above ++ [name])) = some (.directory
          ((vfs.get (slashed (above ++ [name]))).elim permission Entry.permission)))
        (hsame : ∀ q ∈ dirsTo (slashed (above ++ [name])) names, v.get q = vfs.get q) :=
      createParts_ok_iff (by simp) hrest hdir hsame
    have hih : (∀ e v, createParts permission (slashed (above ++ [name])) names vfs =
          (.error e, v) → v.entries = vfs.entries) ↔
        vfs.NothingInTheWay permission (dirsTo (slashed (above ++ [name])) names) := ih hrest
    rw [dirsTo, hnext, nothingInTheWay_cons]
    simp only [createParts, hnext]
    generalize slashed (above ++ [name]) = next at *
    cases hentry : vfs.get next with
    | some entry =>
      cases hisDir : entry.isDir with
      | true => simpa [hisDir] using hih
      | false =>
        refine iff_of_true ?_ (by simp [hisDir])
        intro e v h
        dsimp only at h
        rw [if_neg (by simp [hisDir])] at h
        rw [← (Prod.mk.inj h).2]
    | none =>
      simp only [Option.any_none, Bool.false_eq_true, false_implies, and_true, true_implies]
      cases hresult : vfs.checkMutation next .create with
      | error e =>
        have hnot : ¬ vfs.ParentWritable next := by
          intro hparent
          have hcheck := checkMutation_create_eq_ok.mpr ⟨hentry, hparent⟩
          rw [hresult] at hcheck
          cases hcheck
        refine iff_of_true ?_ fun hparent => absurd hparent hnot
        intro e v h
        rw [← (Prod.mk.inj h).2]
      | ok u =>
        have hparent : vfs.ParentWritable next := (checkMutation_create_eq_ok.mp hresult).2
        have hchain := hok (vfs.insert next (.directory permission)) (by simp [hentry]) (by
          intro q hq
          have hlt := length_lt_of_mem_dirsTo hq
          exact vfs.get_insert_of_ne _ fun heq => absurd (congrArg List.length heq) (by omega))
        simp only [hparent, true_implies]
        rw [← hchain]
        -- an error comes after the first directory has been made
        constructor
        · intro h
          rcases hrun : createParts permission next names
            (vfs.insert next (.directory permission)) with ⟨e | u, v⟩
          · have hkeeps : (createParts permission next names
                (vfs.insert next (.directory permission))).2.get next =
                  some (.directory permission) :=
              get_createParts (vfs.get_insert_self next (.directory permission))
            rw [hrun] at hkeeps
            have hentries := h e v hrun
            rw [get, hentries, ← get, hentry] at hkeeps
            cases hkeeps
          · rfl
        · intro h e v hrun
          rw [hrun] at h
          cases h

/-! ### Atomic calls -/

/-- A call that fails leaves the entries as they were. -/
def Atomic (vfs : Vfs) (op : Op) : Prop :=
  ∀ e v, op.call vfs = (.error e, v) → v.entries = vfs.entries

/-- When a first directory can be made, all the rest of the path can. -/
def AtomicWhen (vfs : Vfs) : Op → Prop
  | .createDirAll path permission =>
    ∀ p, normalizePath path = .ok p → vfs.NothingInTheWay permission (dirsTo [] (parts p))
  | _ => True

lemma atomic_of_outcome {op : Op} {r : Except VfsError Vfs} (h : op.call vfs = vfs.outcome r) :
    vfs.Atomic op := by
  intro e v hcall
  rw [h] at hcall
  cases r with
  | ok v => cases hcall
  | error e =>
    cases hcall
    rfl

lemma atomic_createDirAll_iff : vfs.Atomic (.createDirAll path permission) ↔
    vfs.AtomicWhen (.createDirAll path permission) := by
  show (∀ e v, vfs.createDirAll path permission = (.error e, v) → v.entries = vfs.entries) ↔
    ∀ p, normalizePath path = .ok p → vfs.NothingInTheWay permission (dirsTo [] (parts p))
  unfold Vfs.createDirAll
  cases normalizePath path with
  | error e =>
    refine iff_of_true ?_ nofun
    intro e' v h
    rw [← (Prod.mk.inj h).2]
  | ok p =>
    have hforall (P : Text → Prop) :
        (∀ p', Except.ok p = Except.ok (ε := VfsError) p' → P p') ↔ P p := by
      simp
    rw [hforall]
    dsimp only
    split_ifs with hroot
    · subst hroot
      have hparts : parts root = [] := by decide
      rw [hparts]
      simp [dirsTo, NothingInTheWay]
    · have hatomic : (∀ e v, createParts permission (slashed []) (parts p) vfs = (.error e, v) →
            v.entries = vfs.entries) ↔
          vfs.NothingInTheWay permission (dirsTo (slashed []) (parts p)) :=
        createParts_atomic_iff fun name => isName_of_mem_parts
      exact hatomic

/-- A failed call leaves the entries as they were exactly when it is not `createDirAll` with
something in the way behind the first directory that it makes. -/
theorem atomic_iff (vfs : Vfs) (op : Op) : vfs.Atomic op ↔ vfs.AtomicWhen op := by
  cases op with
  | createDir path permission => exact iff_of_true (atomic_of_outcome createDir_call) trivial
  | createDirAll path permission => exact atomic_createDirAll_iff
  | writeFile path content permission =>
    exact iff_of_true (atomic_of_outcome writeFile_call) trivial
  | appendFile path content => exact iff_of_true (atomic_of_outcome appendFile_call) trivial
  | remove path => exact iff_of_true (atomic_of_outcome remove_call) trivial
  | removeRecursive path => exact iff_of_true (atomic_of_outcome removeRecursive_call) trivial

/-- A directory is made that its own permission does not let anything into. -/
theorem not_atomic_readOnly : ¬ new.Atomic (.createDirAll "/workspace/a/b".toList .readOnly) := by
  intro h
  have hfails : (new.createDirAll "/workspace/a/b".toList .readOnly).1.isOk = false := by
    decide +kernel
  have hmade : (new.createDirAll "/workspace/a/b".toList .readOnly).2.get "/workspace/a".toList =
      some (.directory .readOnly) := by
    decide +kernel
  have hbefore : new.get "/workspace/a".toList = none := by decide +kernel
  rcases hrun : new.createDirAll "/workspace/a/b".toList .readOnly with ⟨e | u, v⟩
  · rw [hrun, get, h e v hrun, ← get, hbefore] at hmade
    cases hmade
  · rw [hrun] at hfails
    cases hfails

end AmlaSandbox.Vfs
