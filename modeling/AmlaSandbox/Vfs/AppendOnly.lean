import AmlaSandbox.Library.Reachability
import AmlaSandbox.Vfs.Covers
import AmlaSandbox.Vfs.WriteBack

/-!
# Append-only files

A file that may only be appended to is opened for reading or in `Append` mode. It keeps its content
at the front as long as the descriptors write behind it, under one spelling of its path.
-/

namespace AmlaSandbox

open Library Vfs

namespace Vfs

variable {vfs v : Vfs} {path key q : Text} {bytes content : List UInt8} {permission : Permission}

/-- The bytes of the append-only file that a path names. -/
def appendOnlyBytes (vfs : Vfs) (path : Text) : Option (List UInt8) :=
  match vfs.stat path with
  | .ok (.file content .appendOnly) => some content
  | _ => none

lemma appendOnlyBytes_eq_some :
    vfs.appendOnlyBytes path = some bytes ↔ vfs.stat path = .ok (.file bytes .appendOnly) := by
  unfold appendOnlyBytes
  split
  · rename_i content heq
    rw [heq, Option.some.injEq, Except.ok.injEq, Entry.file.injEq]
    simp
  · rename_i hne
    simp only [reduceCtorEq, false_iff]
    exact hne bytes

lemma appendOnlyBytes_congr (h : normalizePath path = normalizePath q) :
    vfs.appendOnlyBytes path = vfs.appendOnlyBytes q := by
  rw [appendOnlyBytes, appendOnlyBytes, stat, stat, h]

lemma appendOnlyBytes_eq (hkey : normalizePath path = .ok key) :
    vfs.appendOnlyBytes path = match vfs.get key with
      | some (.file content .appendOnly) => some content
      | _ => none := by
  rw [appendOnlyBytes, stat_eq hkey]
  rcases vfs.get key with _ | ⟨content, permission⟩ | ⟨permission⟩
  · rfl
  · cases permission <;> rfl
  · rfl

lemma AddsDirs.appendOnlyBytes (h : AddsDirs vfs v) (path : Text) :
    v.appendOnlyBytes path = vfs.appendOnlyBytes path := by
  cases hkey : normalizePath path with
  | error e => simp [Vfs.appendOnlyBytes, stat, hkey, bind, Except.bind]
  | ok key =>
    rw [appendOnlyBytes_eq hkey, appendOnlyBytes_eq hkey]
    rcases h key with heq | ⟨hnone, permission, hdir⟩
    · rw [heq]
    · rw [hnone, hdir]

lemma appendOnlyBytes_insertFile_of_ne (hne : normalizePath path ≠ normalizePath q)
    (h : vfs.insertFile path content permission = .ok v) :
    v.appendOnlyBytes q = vfs.appendOnlyBytes q := by
  obtain ⟨key, hkey⟩ := exists_normalizePath h
  obtain ⟨w, hw, rfl⟩ := get_of_insertFile hkey h
  rw [← hw.appendOnlyBytes q]
  cases hq : normalizePath q with
  | error e => simp [Vfs.appendOnlyBytes, stat, hq, bind, Except.bind]
  | ok k =>
    rw [appendOnlyBytes_eq hq, appendOnlyBytes_eq hq, get_insert_of_ne]
    rintro rfl
    exact hne (hkey.trans hq.symm)

/-- A file that is written back is append-only if it was. -/
lemma appendOnlyBytes_insertFile (hdir : vfs.stat path ≠ .ok (.directory .appendOnly))
    (h : vfs.insertFile path content (AsyncVfs.permissionOf vfs path) = .ok v) :
    v.appendOnlyBytes path = (vfs.appendOnlyBytes path).map fun _ => content := by
  obtain ⟨key, hkey⟩ := exists_normalizePath h
  rw [appendOnlyBytes, stat_insertFile hkey h, appendOnlyBytes, AsyncVfs.permissionOf]
  rcases hstat : vfs.stat path with e | ⟨old, permission⟩ | ⟨permission⟩
  · rfl
  · cases permission <;> rfl
  · cases permission with
    | readOnly => rfl
    | readWrite => rfl
    | appendOnly => exact absurd hstat hdir

/-- Every append-only file is kept, with more behind, and there is no new one. -/
def Grows (vfs v : Vfs) : Prop :=
  ∀ path, match vfs.appendOnlyBytes path with
    | some bytes => ∃ more, v.appendOnlyBytes path = some (bytes ++ more)
    | none => v.appendOnlyBytes path = none

lemma Grows.refl (vfs : Vfs) : Grows vfs vfs := by
  intro path
  cases vfs.appendOnlyBytes path with
  | none => rfl
  | some bytes => exact ⟨[], by rw [List.append_nil]⟩

lemma Grows.trans {v' : Vfs} (h : Grows vfs v) (h' : Grows v v') : Grows vfs v' := by
  intro path
  have hpath := h path
  have hpath' := h' path
  cases hbytes : vfs.appendOnlyBytes path with
  | none =>
    simp only [hbytes] at hpath ⊢
    simpa only [hpath] using hpath'
  | some bytes =>
    simp only [hbytes] at hpath ⊢
    obtain ⟨more, hmore⟩ := hpath
    simp only [hmore] at hpath'
    obtain ⟨more', hmore'⟩ := hpath'
    exact ⟨more ++ more', by rw [hmore', List.append_assoc]⟩

end Vfs

namespace AsyncVfs

/-! ### The condition -/

/-- A cache whose blocks have room, and which is long enough for the bytes. -/
def HasRoomFor (bytes : List UInt8) (cache : PageCache) : Prop :=
  cache.blockSize = defaultBlockSize ∧ cache.maxBlocks = PageCache.defaultMaxBlocks ∧
    bytes.length ≤ cache.fileSize ∧ cache.fileSize ≤ maxCached ∧
    ∀ b ∈ cache.blocks.entries, b.1 < cache.maxBlocks ∧ b.2.length ≤ defaultBlockSize

instance {bytes : List UInt8} {cache : PageCache} : Decidable (HasRoomFor bytes cache) :=
  inferInstanceAs (Decidable (_ ∧ _ ∧ _ ∧ _ ∧ _))

/-- Every open that may write to an append-only file finds that it can be cached, and no descriptor
that writes to it under another path. Every write goes behind what the filesystem has of the file,
and into blocks that can be cached. A descriptor that is closed before another writer of its path
leaves a whole cache. -/
def AppendsOnly (s : AsyncVfs) : Event → Prop
  | .openFile path mode =>
    ∀ p ∈ (normalizePath path).toOption, (openContent s.vfs p mode).isOk → mode.canWrite →
      ∀ bytes ∈ s.vfs.appendOnlyBytes p,
        bytes.length ≤ maxCached ∧ (∀ cache ∈ s.caches.lookup p, HasRoomFor bytes cache) ∧
          ∀ entry ∈ s.fdTable.entries, entry.2.handle.mode.canWrite →
            Vfs.normalizePath entry.2.path = Vfs.normalizePath p → entry.2.path = p
  | .close fd =>
    ∀ f ∈ s.fdTable.lookup fd, f.handle.mode.canWrite →
      s.vfs.stat f.path ≠ .ok (.directory .appendOnly) ∧
        ((∀ entry ∈ s.fdTable.entries, entry.1 ≠ fd → entry.2.path = f.path →
            ¬ entry.2.handle.mode.canWrite) ∨
          ((s.vfs.appendOnlyBytes f.path).isSome →
            ∀ cache ∈ s.caches.lookup f.path, cache.Whole))
  | .call fd (.write buf) =>
    ∀ f ∈ s.fdTable.lookup fd, ∀ cache ∈ s.caches.lookup f.path, f.handle.mode.canWrite →
      buf ≠ [] → ∀ bytes ∈ s.vfs.appendOnlyBytes f.path,
        bytes.length ≤ f.handle.pos ∧ f.handle.pos + f.handle.toWrite cache buf ≤ maxCached
  | .call _ _ => True

instance {s : AsyncVfs} (e : Event) : Decidable (s.AppendsOnly e) :=
  match e with
  | .openFile path mode => inferInstanceAs (Decidable
      (∀ p ∈ (normalizePath path).toOption, (openContent s.vfs p mode).isOk → mode.canWrite →
        ∀ bytes ∈ s.vfs.appendOnlyBytes p,
          bytes.length ≤ maxCached ∧ (∀ cache ∈ s.caches.lookup p, HasRoomFor bytes cache) ∧
            ∀ entry ∈ s.fdTable.entries, entry.2.handle.mode.canWrite →
              Vfs.normalizePath entry.2.path = Vfs.normalizePath p → entry.2.path = p))
  | .close fd => inferInstanceAs (Decidable
      (∀ f ∈ s.fdTable.lookup fd, f.handle.mode.canWrite →
        s.vfs.stat f.path ≠ .ok (.directory .appendOnly) ∧
          ((∀ entry ∈ s.fdTable.entries, entry.1 ≠ fd → entry.2.path = f.path →
              ¬ entry.2.handle.mode.canWrite) ∨
            ((s.vfs.appendOnlyBytes f.path).isSome →
              ∀ cache ∈ s.caches.lookup f.path, cache.Whole))))
  | .call fd (.write buf) => inferInstanceAs (Decidable
      (∀ f ∈ s.fdTable.lookup fd, ∀ cache ∈ s.caches.lookup f.path, f.handle.mode.canWrite →
        buf ≠ [] → ∀ bytes ∈ s.vfs.appendOnlyBytes f.path,
          bytes.length ≤ f.handle.pos ∧ f.handle.pos + f.handle.toWrite cache buf ≤ maxCached))
  | .call _ (.read _) => .isTrue trivial
  | .call _ (.seek _) => .isTrue trivial

/-! ### The invariant -/

/-- A descriptor that writes to an append-only file has a cache that covers it. -/
structure Guarded (s : AsyncVfs) : Prop where
  stores : ∀ fd f, s.fdTable.lookup fd = some f → f.handle.store.blockSize = defaultBlockSize
  writers : ∀ fd f bytes, s.fdTable.lookup fd = some f → f.handle.mode.canWrite →
    s.vfs.appendOnlyBytes f.path = some bytes →
      f.handle.store.data.length ≤ maxCached ∧
        ∃ cache, s.caches.lookup f.path = some cache ∧ Covers cache bytes
  alike : ∀ fd f fd' f', s.fdTable.lookup fd = some f → s.fdTable.lookup fd' = some f' →
    f.handle.mode.canWrite → f'.handle.mode.canWrite →
      Vfs.normalizePath f.path = Vfs.normalizePath f'.path →
        (s.vfs.appendOnlyBytes f.path).isSome → f.path = f'.path

variable {s s' : AsyncVfs} {vfs v : Vfs} {path p : Text} {mode : OpenMode} {fd : ℕ} {f : OpenFile}
variable {bytes content : List UInt8} {cache cache' : PageCache} {handle' : FileHandle}

lemma guarded_fromVfs (vfs : Vfs) : Guarded (fromVfs vfs) := by
  refine ⟨fun fd f h => ?_, fun fd f bytes h => ?_, fun fd f fd' f' h => ?_⟩
  all_goals cases h

lemma HasRoomFor.covers (h : HasRoomFor bytes cache) : Covers cache [] := by
  obtain ⟨hbs, hmax, _, hfits, hblocks⟩ := h
  refine ⟨hbs, hmax, Nat.zero_le _, hfits, fun n block hn => ?_, fun n hn => ?_⟩
  · exact hblocks ⟨n, block⟩ (AList.mem_lookup_iff.mp hn)
  · exact absurd hn (Nat.not_lt_zero _)

/-- An append-only file is not truncated. -/
lemma content_eq_appendOnly (hcontent : openContent vfs p mode = .ok content)
    (hbytes : vfs.appendOnlyBytes p = some bytes) : content = bytes := by
  obtain ⟨key, hkey, ⟨old, permission, hget, hold, hmode⟩ | ⟨hget, _⟩⟩ :=
    openContent_eq_ok hcontent
  · rw [appendOnlyBytes_eq hkey, hget] at hbytes
    cases permission with
    | readOnly => cases hbytes
    | readWrite => cases hbytes
    | appendOnly =>
      obtain rfl := Option.some.inj hbytes
      rw [hold, if_neg]
      rintro rfl
      rcases hmode rfl with h | h <;> cases h
  · rw [appendOnlyBytes_eq hkey, hget] at hbytes
    cases hbytes

namespace Guarded

/-! ### Opening -/

/-- The cache of a path that was opened, if a descriptor of it writes to an append-only file. -/
lemma covers_populate (h : Guarded s) (hbytes : s.vfs.appendOnlyBytes p = some bytes)
    (hok : mode.canWrite →
      bytes.length ≤ maxCached ∧ ∀ cache ∈ s.caches.lookup p, HasRoomFor bytes cache)
    (hwriter : mode.canWrite ∨ ∃ fd f, s.fdTable.lookup fd = some f ∧ f.path = p ∧
      f.handle.mode.canWrite) :
    Covers (populate bytes (s.getOrCreateCache p bytes.length)) bytes := by
  cases hcache : s.caches.lookup p with
  | none =>
    rw [getOrCreateCache, hcache]
    rcases hwriter with hmode | ⟨fd, f, hf, rfl, hmode⟩
    · exact (Covers.new (hok hmode).1).populate le_rfl
    · obtain ⟨_, cache, hsome, _⟩ := h.writers fd f bytes hf hmode hbytes
      rw [hcache] at hsome
      cases hsome
  | some cache =>
    rw [getOrCreateCache, hcache]
    rcases hwriter with hmode | ⟨fd, f, hf, rfl, hmode⟩
    · have hroom := (hok hmode).2 cache hcache
      exact hroom.covers.populate hroom.2.2.1
    · obtain ⟨_, cache', hsome, hcovers⟩ := h.writers fd f bytes hf hmode hbytes
      obtain rfl := Option.some.inj (hcache.symm.trans hsome)
      exact hcovers.populate hcovers.size

lemma openFile (h : Guarded s) (hok : s.AppendsOnly (.openFile path mode))
    (hopen : s.openFile path mode = .ok (fd, s')) : Guarded s' := by
  obtain ⟨p, content, hp, hcontent, rfl, rfl⟩ := openFile_eq_ok.mp hopen
  have hok' := fun bytes hbytes hmode =>
    hok p (by rw [hp]; rfl) (by rw [hcontent]; rfl) hmode bytes hbytes
  have hcovers : ∀ bytes, s.vfs.appendOnlyBytes p = some bytes →
      (mode.canWrite ∨ ∃ fd f, s.fdTable.lookup fd = some f ∧ f.path = p ∧
        f.handle.mode.canWrite) →
      content = bytes ∧
        Covers (populate content (s.getOrCreateCache p content.length)) bytes := by
    intro bytes hbytes hwriter
    obtain rfl := content_eq_appendOnly hcontent hbytes
    exact ⟨rfl, h.covers_populate hbytes (fun hmode => ⟨(hok' _ hbytes hmode).1,
      (hok' _ hbytes hmode).2.1⟩) hwriter⟩
  have hothers : ∀ bytes ∈ s.vfs.appendOnlyBytes p, mode.canWrite →
      ∀ fd f, s.fdTable.lookup fd = some f → f.handle.mode.canWrite →
        Vfs.normalizePath f.path = Vfs.normalizePath p → f.path = p :=
    fun bytes hbytes hmode fd f hf =>
      (hok' bytes hbytes hmode).2.2 ⟨fd, f⟩ (AList.mem_lookup_iff.mp hf)
  refine ⟨fun fd f hf => ?_, fun fd f bytes hf hmode hbytes => ?_,
    fun fd f fd' f' hf hf' hmode hmode' hsame hsome => ?_⟩
  · rcases lookup_insert_cases hf with ⟨_, rfl⟩ | ⟨_, hf⟩
    · rfl
    · exact h.stores fd f hf
  · rcases lookup_insert_cases hf with ⟨_, rfl⟩ | ⟨_, hf⟩
    · obtain ⟨rfl, hcov⟩ := hcovers bytes hbytes (.inl hmode)
      exact ⟨(hok' _ hbytes hmode).1, _, AList.lookup_insert _, hcov⟩
    · obtain ⟨hown, cache, hcache, hcov⟩ := h.writers fd f bytes hf hmode hbytes
      refine ⟨hown, ?_⟩
      by_cases hpath : f.path = p
      · obtain ⟨_, hcov'⟩ := hcovers bytes (hpath ▸ hbytes) (.inr ⟨fd, f, hf, hpath, hmode⟩)
        exact ⟨_, by rw [hpath, AList.lookup_insert], hcov'⟩
      · exact ⟨cache, by rw [AList.lookup_insert_ne hpath]; exact hcache, hcov⟩
  · obtain ⟨bytes, hbytes⟩ := Option.isSome_iff_exists.mp hsome
    rcases lookup_insert_cases hf with ⟨_, rfl⟩ | ⟨_, hf⟩
    · rcases lookup_insert_cases hf' with ⟨_, rfl⟩ | ⟨_, hf'⟩
      · rfl
      · exact (hothers bytes hbytes hmode fd' f' hf' hmode' hsame.symm).symm
    · rcases lookup_insert_cases hf' with ⟨_, rfl⟩ | ⟨_, hf'⟩
      · exact hothers bytes (appendOnlyBytes_congr hsame ▸ hbytes) hmode' fd f hf hmode hsame
      · exact h.alike fd f fd' f' hf hf' hmode hmode' hsame hsome

/-! ### Closing -/

lemma dropUnused (h : Guarded s) (path : Text) : Guarded (s.dropUnused path) := by
  rcases s.dropUnused_eq path with ⟨_, heq⟩ | ⟨hclosed, heq⟩
  · rwa [heq]
  · rw [heq]
    refine ⟨h.stores, fun fd f bytes hf hmode hbytes => ?_, h.alike⟩
    obtain ⟨hown, cache, hcache, hcovers⟩ := h.writers fd f bytes hf hmode hbytes
    refine ⟨hown, cache, ?_, hcovers⟩
    rw [AList.lookup_erase_ne]
    · exact hcache
    · rintro rfl
      exact hclosed ⟨fd, f, hf, rfl⟩

lemma erase (h : Guarded s) (fd : ℕ) : Guarded { s with fdTable := s.fdTable.erase fd } := by
  refine ⟨fun fd' f hf => ?_, fun fd' f bytes hf => ?_, fun fd₁ f₁ fd₂ f₂ hf₁ hf₂ => ?_⟩
  · exact h.stores fd' f (lookup_erase_eq_some.mp hf).2
  · exact h.writers fd' f bytes (lookup_erase_eq_some.mp hf).2
  · exact h.alike fd₁ f₁ fd₂ f₂ (lookup_erase_eq_some.mp hf₁).2 (lookup_erase_eq_some.mp hf₂).2

/-- The cache of a path is replaced by one that covers as much. -/
lemma insert_cache (h : Guarded s)
    (hcovers : ∀ bytes, s.vfs.appendOnlyBytes path = some bytes →
      ∀ cache, s.caches.lookup path = some cache → Covers cache bytes → Covers cache' bytes) :
    Guarded { s with caches := s.caches.insert path cache' } := by
  refine ⟨h.stores, fun fd f bytes hf hmode hbytes => ?_, h.alike⟩
  obtain ⟨hown, cache, hcache, hcov⟩ := h.writers fd f bytes hf hmode hbytes
  refine ⟨hown, ?_⟩
  by_cases hpath : f.path = path
  · rw [hpath] at hbytes hcache
    exact ⟨cache', by rw [hpath, AList.lookup_insert], hcovers bytes hbytes cache hcache hcov⟩
  · exact ⟨cache, by rw [AList.lookup_insert_ne hpath]; exact hcache, hcov⟩

/-- What a descriptor writes back has the file at its front. -/
lemma grows_insertFile (h : Guarded s) (hf : s.fdTable.lookup fd = some f)
    (hmode : f.handle.mode.canWrite) (hcache : s.caches.lookup f.path = some cache)
    (hdir : s.vfs.stat f.path ≠ .ok (.directory .appendOnly))
    (hins : s.vfs.insertFile f.path (rebuild cache).1 (permissionOf s.vfs f.path) = .ok v) :
    Grows s.vfs v := by
  intro path
  by_cases hsame : Vfs.normalizePath f.path = Vfs.normalizePath path
  · rw [← appendOnlyBytes_congr hsame, ← appendOnlyBytes_congr hsame,
      appendOnlyBytes_insertFile hdir hins]
    cases hbytes : s.vfs.appendOnlyBytes f.path with
    | none => rfl
    | some bytes =>
      obtain ⟨_, cache', hcache', hcovers⟩ := h.writers fd f bytes hf hmode hbytes
      obtain rfl := Option.some.inj (hcache.symm.trans hcache')
      obtain ⟨more, hmore⟩ := hcovers.prefix_rebuild
      exact ⟨more, by rw [Option.map_some, hmore]⟩
  · rw [appendOnlyBytes_insertFile_of_ne hsame hins]
    exact Grows.refl s.vfs path

lemma writeBack (h : Guarded s) (hf : s.fdTable.lookup fd = some f)
    (hmode : f.handle.mode.canWrite) (hcache : s.caches.lookup f.path = some cache)
    (hok : s.AppendsOnly (.close fd))
    (hins : s.vfs.insertFile f.path (rebuild cache).1 (permissionOf s.vfs f.path) = .ok v) :
    Guarded { s with
      vfs := v
      fdTable := s.fdTable.erase fd
      caches := s.caches.insert f.path (rebuild cache).2 } := by
  obtain ⟨hdir, hwhole⟩ := hok f hf hmode
  have hback := appendOnlyBytes_insertFile hdir hins
  have hsome : ∀ path, (v.appendOnlyBytes path).isSome → (s.vfs.appendOnlyBytes path).isSome := by
    intro path hpath
    have hgrows := h.grows_insertFile hf hmode hcache hdir hins path
    cases hbytes : s.vfs.appendOnlyBytes path with
    | none =>
      simp only [hbytes] at hgrows
      rw [hgrows] at hpath
      cases hpath
    | some bytes => rfl
  refine ⟨fun fd' f' hf' => ?_, fun fd' f' bytes hf' hmode' hbytes => ?_,
    fun fd₁ f₁ fd₂ f₂ hf₁ hf₂ hmode₁ hmode₂ hsame hpath => ?_⟩
  · exact h.stores fd' f' (lookup_erase_eq_some.mp hf').2
  · obtain ⟨hne, hf'⟩ := lookup_erase_eq_some.mp hf'
    have hsome' := hsome f'.path (by rw [hbytes]; rfl)
    obtain ⟨old, hold⟩ := Option.isSome_iff_exists.mp hsome'
    obtain ⟨hown, cache', hcache', hcovers⟩ := h.writers fd' f' old hf' hmode' hold
    refine ⟨hown, ?_⟩
    by_cases hsame : Vfs.normalizePath f.path = Vfs.normalizePath f'.path
    · have hpath : f'.path = f.path := h.alike fd' f' fd f hf' hf hmode' hmode hsame.symm hsome'
      rw [hpath] at hbytes hold hcache'
      obtain rfl := Option.some.inj (hcache.symm.trans hcache')
      refine ⟨_, by rw [hpath, AList.lookup_insert], ?_⟩
      rw [hback, hold] at hbytes
      obtain rfl := Option.some.inj hbytes
      refine hcovers.rebuild_whole ?_
      refine hwhole.resolve_left (fun hnone => ?_) (by rw [hold]; rfl) cache hcache
      exact hnone ⟨fd', f'⟩ (AList.mem_lookup_iff.mp hf') hne hpath hmode'
    · rw [appendOnlyBytes_insertFile_of_ne hsame hins, hold] at hbytes
      obtain rfl := Option.some.inj hbytes
      refine ⟨cache', ?_, hcovers⟩
      rw [AList.lookup_insert_ne]
      · exact hcache'
      · intro hpath
        exact hsame (by rw [hpath])
  · exact h.alike fd₁ f₁ fd₂ f₂ (lookup_erase_eq_some.mp hf₁).2 (lookup_erase_eq_some.mp hf₂).2
      hmode₁ hmode₂ hsame (hsome f₁.path hpath)

lemma close (h : Guarded s) (hok : s.AppendsOnly (.close fd)) :
    Guarded (s.close fd).2 ∧ Grows s.vfs (s.close fd).2.vfs := by
  cases hf : s.fdTable.lookup fd with
  | none =>
    have hclose : (s.close fd).2 = s := by simp only [AsyncVfs.close, hf]
    rw [hclose]
    exact ⟨h, Grows.refl s.vfs⟩
  | some f =>
    generalize hclose : s.close fd = r
    cases hclose ▸ closes hf with
    | read _ =>
      refine ⟨(h.erase fd).dropUnused f.path, ?_⟩
      rw [vfs_dropUnused]
      exact Grows.refl s.vfs
    | noCache _ _ => exact ⟨h.erase fd, Grows.refl s.vfs⟩
    | writeBack hmode hcache hins =>
      refine ⟨(h.writeBack hf hmode hcache hok hins).dropUnused f.path, ?_⟩
      rw [vfs_dropUnused]
      exact h.grows_insertFile hf hmode hcache (hok f hf hmode).1 hins
    | @fail cache _ _ hcache _ =>
      refine ⟨(h.erase fd).insert_cache fun bytes _ cache' hcache' hcovers => ?_,
        Grows.refl s.vfs⟩
      obtain rfl := Option.some.inj (hcache.symm.trans hcache')
      exact hcovers.rebuild_snd

/-! ### Calls -/

/-- A call on a descriptor, whose cache covers as much after it. -/
lemma insert_handle (h : Guarded s) (hf : s.fdTable.lookup fd = some f)
    (hmode : handle'.mode = f.handle.mode) (hbs : handle'.store.blockSize = defaultBlockSize)
    (hown : (s.vfs.appendOnlyBytes f.path).isSome → f.handle.mode.canWrite →
      f.handle.store.data.length ≤ maxCached → handle'.store.data.length ≤ maxCached) :
    Guarded { s with fdTable := s.fdTable.insert fd { f with handle := handle' } } := by
  have hback : ∀ fd' f', (s.fdTable.insert fd { f with handle := handle' }).lookup fd' = some f' →
      ∃ old, s.fdTable.lookup fd' = some old ∧ f'.path = old.path ∧
        f'.handle.mode = old.handle.mode := by
    intro fd' f' hf'
    rcases lookup_insert_cases hf' with ⟨rfl, rfl⟩ | ⟨_, hf'⟩
    · exact ⟨f, hf, rfl, hmode⟩
    · exact ⟨f', hf', rfl, rfl⟩
  refine ⟨fun fd' f' hf' => ?_, fun fd' f' bytes hf' hmode' hbytes => ?_,
    fun fd₁ f₁ fd₂ f₂ hf₁ hf₂ hmode₁ hmode₂ hsame hsome => ?_⟩
  · rcases lookup_insert_cases hf' with ⟨_, rfl⟩ | ⟨_, hf'⟩
    · exact hbs
    · exact h.stores fd' f' hf'
  · rcases lookup_insert_cases hf' with ⟨_, rfl⟩ | ⟨_, hf'⟩
    · simp only [hmode] at hmode'
      obtain ⟨hlen, hcovers⟩ := h.writers fd f bytes hf hmode' hbytes
      exact ⟨hown (by rw [hbytes]; rfl) hmode' hlen, hcovers⟩
    · exact h.writers fd' f' bytes hf' hmode' hbytes
  · obtain ⟨old₁, hold₁, hpath₁, hmode₁'⟩ := hback fd₁ f₁ hf₁
    obtain ⟨old₂, hold₂, hpath₂, hmode₂'⟩ := hback fd₂ f₂ hf₂
    rw [hpath₁] at hsame hsome ⊢
    rw [hpath₂] at hsame ⊢
    exact h.alike fd₁ old₁ fd₂ old₂ hold₁ hold₂ (hmode₁' ▸ hmode₁) (hmode₂' ▸ hmode₂) hsame hsome

/-- A call keeps what the cache covers, if a write goes behind that. -/
lemma step_covers {op : FileOp} {reply : Reply} (h : Guarded s) (hok : s.AppendsOnly (.call fd op))
    (hf : s.fdTable.lookup fd = some f) (hcache : s.caches.lookup f.path = some cache)
    (hstep : f.handle.step cache op = some (reply, handle', cache')) :
    handle'.store.blockSize = defaultBlockSize ∧
      ∀ bytes, s.vfs.appendOnlyBytes f.path = some bytes → Covers cache bytes →
        Covers cache' bytes ∧ (f.handle.mode.canWrite → f.handle.store.data.length ≤ maxCached →
          handle'.store.data.length ≤ maxCached) := by
  have hstore := h.stores fd f hf
  cases op with
  | read len =>
    obtain ⟨⟨result, handle₁, cache₁⟩, hread, heq⟩ := Option.map_eq_some_iff.mp hstep
    cases heq
    obtain ⟨⟨pos, rfl⟩, _⟩ := FileHandle.read_eq_some hread
    exact ⟨hstore, fun bytes _ hcovers => ⟨hcovers.read hstore hread, fun _ hlen => hlen⟩⟩
  | seek seekFrom =>
    cases hstep
    exact ⟨hstore, fun bytes _ hcovers => ⟨hcovers, fun _ hlen => hlen⟩⟩
  | write buf =>
    obtain ⟨⟨result, handle₁, cache₁⟩, hwrite, heq⟩ := Option.map_eq_some_iff.mp hstep
    cases heq
    by_cases hmode : f.handle.mode.canWrite
    · by_cases hbuf : buf = []
      · rw [FileHandle.write, if_neg (not_not_intro hmode), if_pos hbuf] at hwrite
        cases hwrite
        exact ⟨hstore, fun bytes _ hcovers => ⟨hcovers, fun _ hlen => hlen⟩⟩
      · refine ⟨?_, fun bytes hbytes hcovers => ?_⟩
        · obtain ⟨_, rfl, _⟩ := FileHandle.write_eq_some hmode hbuf hwrite
          exact hstore
        · obtain ⟨hpos, hfits⟩ := hok f hf cache hcache hmode hbuf bytes hbytes
          by_cases hown : f.handle.store.data.length ≤ maxCached
          · obtain ⟨hcovers', _, hown'⟩ :=
              hcovers.write hmode hbuf hstore hown hpos hfits hwrite
            exact ⟨hcovers', fun _ _ => hown'⟩
          · obtain ⟨hown', _⟩ := h.writers fd f bytes hf hmode hbytes
            exact absurd hown' hown
    · rw [FileHandle.write, if_pos hmode] at hwrite
      cases hwrite
      exact ⟨hstore, fun bytes _ hcovers => ⟨hcovers, fun _ hlen => hlen⟩⟩

lemma call {op : FileOp} {reply : Reply} (h : Guarded s) (hok : s.AppendsOnly (.call fd op))
    (hcall : s.onHandle fd op = some (reply, s')) : Guarded s' ∧ s'.vfs = s.vfs := by
  cases hf : s.fdTable.lookup fd with
  | none =>
    simp only [onHandle, hf, Option.some.injEq, Prod.mk.injEq] at hcall
    obtain ⟨_, rfl⟩ := hcall
    exact ⟨h, rfl⟩
  | some f =>
    simp only [onHandle, hf] at hcall
    cases hcache : s.caches.lookup f.path with
    | none => simp [hcache] at hcall
    | some cache =>
      simp only [hcache, Option.map_eq_some_iff, Prod.mk.injEq, Prod.exists] at hcall
      obtain ⟨_, handle', cache', hstep, rfl, rfl⟩ := hcall
      obtain ⟨hbs, hcovers⟩ := h.step_covers hok hf hcache hstep
      have hhandle : Guarded
          { s with fdTable := s.fdTable.insert fd { f with handle := handle' } } := by
        refine h.insert_handle hf (FileHandle.mode_step hstep) hbs fun hsome hmode hlen => ?_
        obtain ⟨bytes, hbytes⟩ := Option.isSome_iff_exists.mp hsome
        obtain ⟨_, cache₁, hcache₁, hcov⟩ := h.writers fd f bytes hf hmode hbytes
        obtain rfl := Option.some.inj (hcache.symm.trans hcache₁)
        exact (hcovers bytes hbytes hcov).2 hmode hlen
      refine ⟨hhandle.insert_cache fun bytes hbytes cache₁ hcache₁ hcov => ?_, rfl⟩
      obtain rfl := Option.some.inj (hcache.symm.trans hcache₁)
      exact (hcovers bytes hbytes hcov).1

/-- One event keeps the front of every append-only file. -/
theorem step {e : Event} (h : Guarded s) (hok : s.AppendsOnly e) (hstep : s.step e = some s') :
    Guarded s' ∧ Grows s.vfs s'.vfs := by
  cases e with
  | openFile path mode =>
    simp only [AsyncVfs.step] at hstep
    cases hopen : s.openFile path mode with
    | error e =>
      simp only [hopen, Option.some.injEq] at hstep
      exact hstep ▸ ⟨h, Grows.refl s.vfs⟩
    | ok r =>
      obtain ⟨fd, s₁⟩ := r
      simp only [hopen, Option.some.injEq] at hstep
      subst hstep
      refine ⟨h.openFile hok hopen, ?_⟩
      obtain ⟨p, content, _, _, _, rfl⟩ := openFile_eq_ok.mp hopen
      exact Grows.refl s.vfs
  | close fd =>
    obtain rfl := Option.some.inj hstep
    exact h.close hok
  | call fd op =>
    obtain ⟨⟨reply, s₁⟩, hcall, rfl⟩ := Option.map_eq_some_iff.mp hstep
    obtain ⟨hguarded, hvfs⟩ := h.call hok hcall
    refine ⟨hguarded, ?_⟩
    rw [hvfs]
    exact Grows.refl s.vfs

/-- A run keeps it. -/
theorem reach (h : Guarded s)
    (hreach : Reach (fun s e s' => s.step e = some s') AppendsOnly s s') :
    Guarded s' ∧ Grows s.vfs s'.vfs := by
  refine hreach.invariant (I := fun s' => Guarded s' ∧ Grows s.vfs s'.vfs)
    ⟨h, Grows.refl s.vfs⟩ ?_
  rintro s₁ e s₂ ⟨h₁, hgrows⟩ hok hstep
  obtain ⟨h₂, hgrows'⟩ := h₁.step hok hstep
  exact ⟨h₂, hgrows.trans hgrows'⟩

end Guarded

/-- In a run whose events append only, an append-only file is at every later time what it was
before, with more behind. -/
theorem appendOnly_grows (vfs : Vfs) (path : Text) (old : List UInt8)
    (hreach : Reach (fun s e s' => s.step e = some s') AppendsOnly (fromVfs vfs) s)
    (hreach' : Reach (fun s e s' => s.step e = some s') AppendsOnly s s')
    (hold : s.vfs.stat path = .ok (.file old .appendOnly)) :
    ∃ more, s'.vfs.stat path = .ok (.file (old ++ more) .appendOnly) := by
  obtain ⟨hguarded, _⟩ := (guarded_fromVfs vfs).reach hreach
  obtain ⟨_, hgrows⟩ := hguarded.reach hreach'
  have hpath := hgrows path
  rw [appendOnlyBytes_eq_some.mpr hold] at hpath
  obtain ⟨more, hmore⟩ := hpath
  exact ⟨more, appendOnlyBytes_eq_some.mp hmore⟩

/-- A filesystem of one append-only file. -/
def oneLog : Vfs :=
  (Vfs.empty.insert root (.directory .readWrite)).insert "/log".toList (.file [97] .appendOnly)

/-- One descriptor appends and is closed, and so does another one. -/
theorem appendOnly_grows_oneLog :
    ∃ s s' : AsyncVfs,
      Reach (fun s e s' => s.step e = some s') AppendsOnly (fromVfs oneLog) s ∧
      Reach (fun s e s' => s.step e = some s') AppendsOnly s s' ∧
      s.vfs.stat "/log".toList = .ok (.file [97, 98] .appendOnly) ∧
      ∃ more, s'.vfs.stat "/log".toList = .ok (.file ([97, 98] ++ more) .appendOnly) := by
  have hfirst : ([.openFile "/log".toList .append, .call 3 (.write [98]), .close 3].foldlM step
      (fromVfs oneLog)).map (fun s => (s.vfs.stat "/log".toList,
        decide (Meets AppendsOnly step s
          [.openFile "/log".toList .append, .call 4 (.write [99]), .close 4]),
        ([.openFile "/log".toList .append, .call 4 (.write [99]), .close 4].foldlM step
          s).isSome)) =
          some (.ok (.file [97, 98] .appendOnly), true, true) := by
    decide +kernel
  obtain ⟨s, hrun, heq⟩ := Option.map_eq_some_iff.mp hfirst
  simp only [Prod.mk.injEq, decide_eq_true_eq] at heq
  obtain ⟨hold, hmeets', hsome⟩ := heq
  obtain ⟨s', hrun'⟩ := Option.isSome_iff_exists.mp hsome
  have hmeets : Meets AppendsOnly step (fromVfs oneLog)
      [.openFile "/log".toList .append, .call 3 (.write [98]), .close 3] := by
    decide +kernel
  have hreach := reach_foldlM hmeets hrun
  have hreach' := reach_foldlM hmeets' hrun'
  exact ⟨s, s', hreach, hreach', hold,
    appendOnly_grows oneLog "/log".toList [97, 98] hreach hreach' hold⟩

/-- A descriptor opened to append goes back to the start and overwrites. -/
theorem not_appendOnly_grows_seek :
    ∃ s : AsyncVfs, Reach (fun s e s' => s.step e = some s') (fun _ _ => True) (fromVfs oneLog) s ∧
      (fromVfs oneLog).vfs.stat "/log".toList = .ok (.file [97] .appendOnly) ∧
      ¬ ∃ more, s.vfs.stat "/log".toList = .ok (.file ([97] ++ more) .appendOnly) := by
  have hstat : ([.openFile "/log".toList .append, .call 3 (.seek (.start 0)),
      .call 3 (.write [98]), .close 3].foldlM step (fromVfs oneLog)).map
        (fun s => s.vfs.stat "/log".toList) = some (.ok (.file [98] .appendOnly)) := by
    decide +kernel
  obtain ⟨s, hrun, hs⟩ := Option.map_eq_some_iff.mp hstat
  refine ⟨s, reach_foldlM (by simp [Meets]) hrun, by decide +kernel, ?_⟩
  rintro ⟨more, hmore⟩
  rw [hs] at hmore
  cases hmore

end AsyncVfs

end AmlaSandbox
