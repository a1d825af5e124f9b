import AmlaSandbox.Vfs.Edit
import Mathlib.Data.Set.Basic

/-!
# Permissions and mounts

What a permission protects is kept by every edit, so by every sequence of calls.

`setupMounts` records a mount and creates the missing directories above it, read-only. Nothing else
protects the mounted path: it stays as it is where its entry or the directories above it are not
writable.
-/

namespace AmlaSandbox.Vfs

/-! ## Permissions over all runs -/

/-- The entries directly inside a directory. -/
def children (vfs : Vfs) (dir : Text) : Set Text := {p | parentOf p = some dir ∧ vfs.containsKey p}

/-- From one state to a later one, protected files and directories keep what they have. -/
structure Keeps (vfs v : Vfs) : Prop where
  readOnly : ∀ p content, vfs.get p = some (.file content .readOnly) →
    v.get p = some (.file content .readOnly)
  appendOnly : ∀ p content, vfs.get p = some (.file content .appendOnly) →
    ∃ added, v.get p = some (.file (content ++ added) .appendOnly)
  directory : ∀ p permission, permission ≠ .readWrite → vfs.get p = some (.directory permission) →
    v.get p = some (.directory permission) ∧ v.children p = vfs.children p

namespace Keeps

variable {vfs v v' : Vfs}

lemma refl (vfs : Vfs) : Keeps vfs vfs where
  readOnly _ _ h := h
  appendOnly _ content h := ⟨[], by rwa [List.append_nil]⟩
  directory _ _ _ h := ⟨h, rfl⟩

lemma trans (h : Keeps vfs v) (h' : Keeps v v') : Keeps vfs v' where
  readOnly p content hp := h'.readOnly p content (h.readOnly p content hp)
  appendOnly p content hp := by
    obtain ⟨added, hv⟩ := h.appendOnly p content hp
    obtain ⟨more, hv'⟩ := h'.appendOnly p _ hv
    exact ⟨added ++ more, by rw [hv', List.append_assoc]⟩
  directory p permission hne hp := by
    obtain ⟨hv, hchildren⟩ := h.directory p permission hne hp
    obtain ⟨hv', hchildren'⟩ := h'.directory p permission hne hv
    exact ⟨hv', hchildren'.trans hchildren⟩

end Keeps

section

variable {vfs v : Vfs} {p : Text} {entry : Entry}

/-- Nothing below a directory that is not writable is created or deleted. -/
lemma not_parentWritable {dir : Text} {permission : Permission} (hne : permission ≠ .readWrite)
    (hdir : vfs.get dir = some (.directory permission)) (hp : parentOf p = some dir) :
    ¬ vfs.ParentWritable p := by
  intro h
  rw [h dir hp] at hdir
  exact hne (Entry.directory.inj (Option.some.inj hdir)).symm

lemma children_eq_of_isSome (h : ∀ q, parentOf q = some p → (v.get q).isSome = (vfs.get q).isSome) :
    v.children p = vfs.children p := by
  ext q
  exact and_congr_right fun hq => by rw [containsKey, containsKey, h q hq]

/-- A file is replaced by a file: no entry appears or goes. -/
lemma children_insert_of_isSome (h : (vfs.get p).isSome) (dir : Text) :
    (vfs.insert p entry).children dir = vfs.children dir := by
  refine children_eq_of_isSome fun q _ => ?_
  rw [get_insert]
  split_ifs with hq
  · rw [hq, h, Option.isSome_some]
  · rfl

theorem Write.keeps (h : Write vfs v) : Keeps vfs v := by
  cases h with
  | @create p entry hnormal hnone hparent =>
    have hold : ∀ q e, vfs.get q = some e → (vfs.insert p entry).get q = some e := by
      intro q e hq
      have hne : q ≠ p := by
        rintro rfl
        rw [hnone] at hq
        cases hq
      rw [get_insert_of_ne _ _ hne, hq]
    refine ⟨fun q content => hold q _, fun q content hq => ⟨[], ?_⟩, fun q perm hperm hq => ?_⟩
    · rw [List.append_nil]
      exact hold q _ hq
    · refine ⟨hold q _ hq, children_eq_of_isSome fun r hr => ?_⟩
      have hne : r ≠ p := by
        rintro rfl
        exact not_parentWritable hperm hq hr hparent
      rw [get_insert_of_ne _ _ hne]
  | @overwrite p old content permission hp =>
    have hne : ∀ q e, vfs.get q = some e → e ≠ .file old .readWrite → q ≠ p := by
      rintro q e hq he rfl
      rw [hp] at hq
      exact he (Option.some.inj hq).symm
    refine ⟨fun q c hq => ?_, fun q c hq => ⟨[], ?_⟩, fun q perm hperm hq => ⟨?_, ?_⟩⟩
    · rw [get_insert_of_ne _ _ (hne q _ hq (by simp)), hq]
    · rw [get_insert_of_ne _ _ (hne q _ hq (by simp)), hq, List.append_nil]
    · rw [get_insert_of_ne _ _ (hne q _ hq (by simp)), hq]
    · exact children_insert_of_isSome (by simp [hp]) q
  | @append p old permission content hp hperm =>
    refine ⟨fun q c hq => ?_, fun q c hq => ?_, fun q perm _ hq => ⟨?_, ?_⟩⟩
    · have hne : q ≠ p := by
        rintro rfl
        rw [hp] at hq
        exact hperm (Entry.file.inj (Option.some.inj hq)).2
      rw [get_insert_of_ne _ _ hne, hq]
    · by_cases hqp : q = p
      · subst hqp
        rw [hp] at hq
        obtain ⟨rfl, rfl⟩ := Entry.file.inj (Option.some.inj hq)
        exact ⟨content, get_insert_self _ _ _⟩
      · exact ⟨[], by rw [get_insert_of_ne _ _ hqp, hq, List.append_nil]⟩
    · have hne : q ≠ p := by
        rintro rfl
        rw [hp] at hq
        cases hq
      rw [get_insert_of_ne _ _ hne, hq]
    · exact children_insert_of_isSome (by simp [hp]) q

theorem Edit.keeps (h : Edit vfs v) : Keeps vfs v := by
  cases h with
  | write h => exact h.keeps
  | delete paths hdel =>
    have hold : ∀ q e, vfs.get q = some e → e.permission ≠ .readWrite →
        (vfs.delete paths).get q = some e := by
      intro q e hq he
      rw [get_delete, if_neg, hq]
      intro hmem
      obtain ⟨⟨e', he', hrw⟩, _⟩ := hdel q hmem
      rw [hq] at he'
      exact he (Option.some.inj he' ▸ hrw)
    refine ⟨fun q c hq => hold q _ hq (by simp [Entry.permission]), fun q c hq => ⟨[], ?_⟩,
      fun q perm hperm hq => ⟨hold q _ hq hperm, ?_⟩⟩
    · rw [List.append_nil]
      exact hold q _ hq (by simp [Entry.permission])
    · refine children_eq_of_isSome fun r hr => ?_
      rw [get_delete, if_neg]
      intro hmem
      exact not_parentWritable hperm hq hr (hdel r hmem).2

theorem keeps_of_edits (h : Relation.ReflTransGen Edit vfs v) : Keeps vfs v := by
  induction h with
  | refl => exact .refl vfs
  | tail _ hedit ih => exact ih.trans hedit.keeps

/-- No sequence of calls gets around a permission: read-only files keep their content, append-only
files only grow, and nothing appears in or goes from a directory that is not writable. -/
theorem permissions_hold (vfs : Vfs) (ops : List Op) (p : Text) :
    (∀ content, vfs.get p = some (.file content .readOnly) →
      (vfs.run ops).get p = some (.file content .readOnly)) ∧
    (∀ content, vfs.get p = some (.file content .appendOnly) →
      ∃ added, (vfs.run ops).get p = some (.file (content ++ added) .appendOnly)) ∧
    ∀ permission, permission = .readOnly ∨ permission = .appendOnly →
      vfs.get p = some (.directory permission) → (vfs.run ops).children p = vfs.children p := by
  have hedits : Relation.ReflTransGen Edit vfs (vfs.run ops) := edits_run ops
  have hkeeps := keeps_of_edits hedits
  refine ⟨hkeeps.readOnly p, hkeeps.appendOnly p, fun permission hperm hp => ?_⟩
  refine (hkeeps.directory p permission ?_ hp).2
  rintro rfl
  rcases hperm with h | h <;> cases h

/-- The log is extended and `/bin` stays as it is, whatever else is tried. -/
theorem permissions_hold_new :
    (∃ added, (new.run [.appendFile "/log/actions.jsonl".toList [1], .removeRecursive "/log".toList,
        .createDirAll "/bin/sh".toList .readWrite]).get "/log/actions.jsonl".toList =
          some (.file ([] ++ added) .appendOnly)) ∧
      (new.run [.appendFile "/log/actions.jsonl".toList [1], .removeRecursive "/log".toList,
        .createDirAll "/bin/sh".toList .readWrite]).children "/bin".toList =
          new.children "/bin".toList :=
  ⟨(permissions_hold new _ _).2.1 [] (by decide +kernel),
    (permissions_hold new _ _).2.2 .readOnly (.inl rfl) (by decide +kernel)⟩

end

/-! ## Mounted paths -/

/-- Not a writable directory, nor can it become one: its entry is not writable, or nothing can be
put in its place because that holds of its parent. -/
inductive NeverWritable (vfs : Vfs) : Text → Prop
  | locked {dir : Text} {entry : Entry} : vfs.get dir = some entry →
      entry.permission ≠ .readWrite → NeverWritable vfs dir
  | inherited {dir parent : Text} : parentOf dir = some parent → NeverWritable vfs parent →
      vfs.get dir ≠ some (.directory .readWrite) → NeverWritable vfs dir

/-- The entry at the path is read-only or an append-only directory; or there is none, or a
directory, and the parent can never be written to. -/
inductive Protected (vfs : Vfs) (p : Text) : Prop
  | locked {entry : Entry} : vfs.get p = some entry → entry.permission ≠ .readWrite →
      (entry.permission = .appendOnly → entry.isDir) → Protected vfs p
  | inherited {dir : Text} : parentOf p = some dir → vfs.NeverWritable dir →
      (vfs.get p = none ∨ vfs.get p = some (.directory .readWrite)) → Protected vfs p

variable {vfs v : Vfs} {p dir : Text}

lemma NeverWritable.get_ne (h : vfs.NeverWritable dir) :
    vfs.get dir ≠ some (.directory .readWrite) := by
  cases h with
  | locked hget hperm =>
    rintro heq
    rw [hget] at heq
    obtain rfl := Option.some.inj heq
    exact hperm rfl
  | inherited _ _ hne => exact hne

lemma NeverWritable.not_parentWritable (h : vfs.NeverWritable dir) (hp : parentOf p = some dir) :
    ¬ vfs.ParentWritable p := fun hparent => h.get_ne (hparent dir hp)

/-- An entry that is not writable keeps its permission. -/
lemma Keeps.permission {entry : Entry} (h : Keeps vfs v) (hp : vfs.get p = some entry)
    (hperm : entry.permission ≠ .readWrite) :
    ∃ entry', v.get p = some entry' ∧ entry'.permission ≠ .readWrite := by
  cases entry with
  | file content permission =>
    cases permission with
    | readOnly => exact ⟨_, h.readOnly p content hp, by simp [Entry.permission]⟩
    | readWrite => exact absurd rfl hperm
    | appendOnly =>
      obtain ⟨added, hv⟩ := h.appendOnly p content hp
      exact ⟨_, hv, by simp [Entry.permission]⟩
  | directory permission => exact ⟨_, (h.directory p permission hperm hp).1, hperm⟩

/-- A directory was there before the edit or is a new entry. -/
lemma Edit.get_directory {permission : Permission} (h : Edit vfs v)
    (hp : v.get p = some (.directory permission)) :
    vfs.get p = some (.directory permission) ∨ vfs.get p = none ∧ vfs.ParentWritable p := by
  cases h with
  | write h =>
    cases h with
    | @create q entry _ hnone hparent =>
      rw [get_insert] at hp
      split_ifs at hp with heq
      · subst heq
        exact .inr ⟨hnone, hparent⟩
      · exact .inl hp
    | overwrite content permission _ =>
      rw [get_insert] at hp
      split_ifs at hp with heq
      · cases hp
      · exact .inl hp
    | append content _ _ =>
      rw [get_insert] at hp
      split_ifs at hp with heq
      · cases hp
      · exact .inl hp
  | delete paths _ =>
    rw [get_delete] at hp
    split_ifs at hp
    exact .inl hp

lemma NeverWritable.edit (h : vfs.NeverWritable dir) (he : Edit vfs v) : v.NeverWritable dir := by
  induction h with
  | locked hget hperm =>
    obtain ⟨entry, hv, hperm'⟩ := he.keeps.permission hget hperm
    exact .locked hv hperm'
  | inherited hparent habove hne ih =>
    refine .inherited hparent ih fun hv => ?_
    rcases he.get_directory hv with hget | ⟨_, hwritable⟩
    · exact hne hget
    · exact habove.not_parentWritable hparent hwritable

lemma Protected.get_edit (h : vfs.Protected p) (he : Edit vfs v) : v.get p = vfs.get p := by
  have hdel : ¬ vfs.Deletable p := by
    rintro ⟨⟨entry, hget, hperm⟩, hparent⟩
    cases h with
    | locked hget' hne =>
      obtain rfl := Option.some.inj (hget.symm.trans hget')
      exact hne hperm
    | inherited hdir hnever => exact hnever.not_parentWritable hdir hparent
  cases he with
  | write he =>
    cases he with
    | create entry _ hnone hparent =>
      refine get_insert_of_ne _ _ ?_
      rintro rfl
      cases h with
      | locked hget => exact absurd (hget.symm.trans hnone) (Option.some_ne_none _)
      | inherited hdir hnever => exact hnever.not_parentWritable hdir hparent
    | overwrite content permission hget =>
      refine get_insert_of_ne _ _ ?_
      rintro rfl
      cases h with
      | locked hget' hne =>
        obtain rfl := Option.some.inj (hget.symm.trans hget')
        exact hne rfl
      | inherited _ _ hget' => simp [hget] at hget'
    | append content hget hne =>
      refine get_insert_of_ne _ _ ?_
      rintro rfl
      cases h with
      | @locked entry hget' hrw happend =>
        obtain rfl := Option.some.inj (hget.symm.trans hget')
        rename_i permission
        cases permission with
        | readOnly => exact hne rfl
        | readWrite => exact hrw rfl
        | appendOnly => cases happend rfl
      | inherited _ _ hget' => simp [hget] at hget'
  | delete paths hall =>
    rw [get_delete, if_neg]
    exact fun hmem => hdel (hall p hmem)

lemma Protected.edit (h : vfs.Protected p) (he : Edit vfs v) : v.Protected p := by
  have hsame := h.get_edit he
  cases h with
  | locked hget hperm happend => exact .locked (hsame.trans hget) hperm happend
  | inherited hdir hnever hget => exact .inherited hdir (hnever.edit he) (by rwa [hsame])

lemma Protected.get_edits (hedits : Relation.ReflTransGen Edit vfs v) (h : vfs.Protected p) :
    v.get p = vfs.get p := by
  have hboth : v.Protected p ∧ v.get p = vfs.get p := by
    induction hedits with
    | refl => exact ⟨h, rfl⟩
    | tail _ he ih => exact ⟨ih.1.edit he, (ih.1.get_edit he).trans ih.2⟩
  exact hboth.2

/-- After `setupMounts`, no sequence of calls changes what is at a mounted path that is protected,
whatever its spelling. -/
theorem mounted_unchanged (vfs : Vfs) (mounts : List (Text × Text)) (ops : List Op) (path : Text)
    (hprotected : (setupMounts mounts vfs).2.isMounted path →
      ∀ p, normalizePath path = .ok p → (setupMounts mounts vfs).2.Protected p)
    (hmounted : (setupMounts mounts vfs).2.isMounted path) :
    ((setupMounts mounts vfs).2.run ops).stat path = (setupMounts mounts vfs).2.stat path := by
  unfold stat
  cases hpath : normalizePath path with
  | error e => rfl
  | ok p =>
    have hget := (hprotected hmounted p hpath).get_edits (edits_run ops)
    simp only [bind, Except.bind, hget]

/-- The host's `config.json` below a directory that the mount creates. -/
def configMount : List (Text × Text) := [("/host/config.json".toList, "/data/config.json".toList)]

theorem mounted_unchanged_config :
    ((setupMounts configMount new).2.run [.writeFile "/data/./config.json".toList [1] .readWrite,
      .removeRecursive "/data".toList]).stat "//data/config.json".toList =
        (setupMounts configMount new).2.stat "//data/config.json".toList := by
  refine mounted_unchanged new configMount _ _ (fun _ p hpath => ?_) (by decide +kernel)
  have hnormal : normalizePath "//data/config.json".toList = .ok "/data/config.json".toList := by
    decide +kernel
  rw [hnormal] at hpath
  obtain rfl := Except.ok.inj hpath
  have hdata :
      (setupMounts configMount new).2.get "/data".toList = some (.directory .readOnly) := by
    decide +kernel
  have hparent : parentOf "/data/config.json".toList = some "/data".toList := by decide +kernel
  exact .inherited hparent
    (.locked hdata (by simp [Entry.permission])) (.inl (by decide +kernel))

/-- A mount into the workspace, which is there already and may be written to. -/
def workspaceMount : List (Text × Text) := [("/host/x".toList, "/workspace/x".toList)]

theorem not_mounted_unchanged_workspace :
    ¬ ∀ (vfs : Vfs) (mounts : List (Text × Text)) (ops : List Op) (path : Text),
      (setupMounts mounts vfs).2.isMounted path →
        ((setupMounts mounts vfs).2.run ops).stat path = (setupMounts mounts vfs).2.stat path := by
  intro h
  have hsame := h new workspaceMount [.writeFile "/workspace/x".toList [1] .readWrite]
    "/workspace/x".toList (by decide +kernel)
  have hbefore : (setupMounts workspaceMount new).2.stat "/workspace/x".toList =
      .error (.notFound "/workspace/x".toList) := by
    decide +kernel
  have hafter : ((setupMounts workspaceMount new).2.run
      [.writeFile "/workspace/x".toList [1] .readWrite]).stat "/workspace/x".toList =
        .ok (.file [1] .readWrite) := by
    decide +kernel
  rw [hbefore, hafter] at hsame
  cases hsame

end AmlaSandbox.Vfs
