import Mathlib.Logic.Function.Basic
import AmlaSandbox.Library.Reachability
import AmlaSandbox.Vfs.FullCache
import AmlaSandbox.Vfs.WriteBack

/-!
# One file behind many descriptors

The descriptors of a path are cursors in one file, as long as an open finds in the cache what the
filesystem has, and a write goes through a copy of the right length. Whatever else happens to other
paths on the way makes no difference.
-/

namespace AmlaSandbox

open Library Vfs

/-! ### The shared file -/

/-- A file and the cursors in it, each with the mode of its descriptor. -/
structure SharedFile where
  bytes : List UInt8
  cursors : ℕ → Option (OpenMode × ℕ)

namespace SharedFile

def ofBytes (bytes : List UInt8) : SharedFile := { bytes, cursors := fun _ => none }

def remove (file : SharedFile) (fd : ℕ) : SharedFile :=
  { file with cursors := Function.update file.cursors fd none }

inductive Event
  | opened (fd : ℕ) (mode : OpenMode)
  | replied (fd : ℕ) (op : FileOp) (reply : Reply)
  | closed (fd : ℕ)
deriving DecidableEq

/-- A truncating open empties the file. A call is one on a byte array, at the descriptor's own
cursor. -/
inductive Step (file : SharedFile) : Event → SharedFile → Prop
  | opened {fd : ℕ} {mode : OpenMode} : file.cursors fd = none →
      Step file (.opened fd mode)
        { bytes := if mode = .write then [] else file.bytes
          cursors := Function.update file.cursors fd
            (some (mode, if mode = .append then file.bytes.length else 0)) }
  | replied {fd pos pos' : ℕ} {mode : OpenMode} {op : FileOp} {reply : Reply}
      {bytes' : List UInt8} : file.cursors fd = some (mode, pos) →
      ByteFile.Step mode { bytes := file.bytes, pos } op reply { bytes := bytes', pos := pos' } →
      Step file (.replied fd op reply)
        { bytes := bytes', cursors := Function.update file.cursors fd (some (mode, pos')) }
  | closed {fd : ℕ} : Step file (.closed fd) (file.remove fd)

inductive Run : SharedFile → List Event → SharedFile → Prop
  | nil {file : SharedFile} : Run file [] file
  | cons {file file' file'' : SharedFile} {event : Event} {events : List Event} :
      Step file event file' → Run file' events file'' → Run file (event :: events) file''

end SharedFile

namespace AsyncVfs

/-! ### The relation -/

/-- A descriptor of the path has a copy that is no longer than the file; one of another path does
not write to the file. -/
def Fits (vfs : Vfs) (p : Text) (bytes : List UInt8) (f : OpenFile) : Prop :=
  if f.path = p then
    f.handle.store.blockSize = defaultBlockSize ∧ f.handle.store.data.length ≤ bytes.length ∧
      (f.handle.mode.canWrite → vfs.canInsert p)
  else f.handle.mode.canWrite → Vfs.normalizePath f.path ≠ Vfs.normalizePath p

/-- The descriptors are those of the file, and the cache holds the whole of it. -/
structure Tracks (s : AsyncVfs) (p : Text) (file : SharedFile) : Prop where
  cursor : ∀ fd cursor, file.cursors fd = some cursor ↔
    ∃ f, s.fdTable.lookup fd = some f ∧ f.path = p ∧ (f.handle.mode, f.handle.pos) = cursor
  holds : ∀ cache, s.caches.lookup p = some cache → Holds cache file.bytes
  fits : ∀ fd f, s.fdTable.lookup fd = some f → Fits s.vfs p file.bytes f

/-- There is a cache while there are descriptors, and the filesystem has the file unless one of them
has yet to write it back. -/
structure Shares (s : AsyncVfs) (p : Text) (file : SharedFile) : Prop extends Tracks s p file where
  cached : s.IsOpen p ↔ (s.caches.lookup p).isSome
  stored : (∃ fd f, s.fdTable.lookup fd = some f ∧ f.path = p ∧ f.handle.mode.canWrite) ∨
    s.vfs.fileBytes p = file.bytes

variable {s s' : AsyncVfs} {vfs : Vfs} {p q path : Text} {file : SharedFile} {mode : OpenMode}
variable {fd : ℕ} {f : OpenFile} {cache : PageCache}

lemma shares_fromVfs (vfs : Vfs) (p : Text) :
    Shares (fromVfs vfs) p (.ofBytes (vfs.fileBytes p)) := by
  refine ⟨⟨fun fd cursor => ?_, fun cache h => ?_, fun fd f h => ?_⟩, ?_, .inr rfl⟩
  · constructor
    · intro h
      cases h
    · rintro ⟨f, h, _⟩
      cases h
  · cases h
  · cases h
  · constructor
    · rintro ⟨fd, f, h, _⟩
      cases h
    · intro h
      cases h

namespace Tracks

/-- A change of the filesystem and the cache. -/
lemma congr (h : Tracks s p file) (hfds : s'.fdTable = s.fdTable)
    (hinsert : s.vfs.canInsert p → s'.vfs.canInsert p)
    (hcache : ∀ cache, s'.caches.lookup p = some cache → Holds cache file.bytes) :
    Tracks s' p file := by
  refine ⟨by rw [hfds]; exact h.cursor, hcache, fun fd f hf => ?_⟩
  rw [hfds] at hf
  have hfit := h.fits fd f hf
  unfold Fits at hfit ⊢
  split_ifs at hfit ⊢
  · exact ⟨hfit.1, hfit.2.1, fun hmode => hinsert (hfit.2.2 hmode)⟩
  · exact hfit

lemma erase (h : Tracks s p file) (fd : ℕ) :
    Tracks { s with fdTable := s.fdTable.erase fd } p (file.remove fd) := by
  refine ⟨fun fd' cursor => ?_, h.holds, fun fd' f hf => ?_⟩
  · simp only [SharedFile.remove]
    by_cases heq : fd' = fd
    · subst heq
      simp [AList.lookup_erase]
    · rw [Function.update_of_ne heq, AList.lookup_erase_ne heq]
      exact h.cursor fd' cursor
  · by_cases heq : fd' = fd
    · subst heq
      simp [AList.lookup_erase] at hf
    · rw [AList.lookup_erase_ne heq] at hf
      exact h.fits fd' f hf

/-- The last descriptor takes the cache with it. -/
lemma dropUnused (h : Tracks s p file) (hcached : s.IsOpen p → (s.caches.lookup p).isSome)
    (hstored : (∃ fd f, s.fdTable.lookup fd = some f ∧ f.path = p ∧ f.handle.mode.canWrite) ∨
      s.vfs.fileBytes p = file.bytes) : Shares (s.dropUnused p) p file := by
  rcases s.dropUnused_eq p with ⟨hopen, heq⟩ | ⟨hopen, heq⟩
  · rw [heq]
    exact ⟨h, ⟨hcached, fun _ => hopen⟩, hstored⟩
  · rw [heq]
    refine ⟨h.congr rfl id fun cache hcache => ?_, ⟨fun h => absurd h hopen, fun h => ?_⟩, hstored⟩
    · simp [AList.lookup_erase] at hcache
    · simp [AList.lookup_erase] at h

end Tracks

namespace Shares

/-- Events that leave the path's descriptors, its cache and its file alone. -/
lemma frame (h : Shares s p file)
    (hfds : ∀ fd f, f.path = p → (s'.fdTable.lookup fd = some f ↔ s.fdTable.lookup fd = some f))
    (hcache : s'.caches.lookup p = s.caches.lookup p)
    (hfile : s'.vfs.fileBytes p = s.vfs.fileBytes p)
    (hinsert : s.vfs.canInsert p → s'.vfs.canInsert p)
    (hothers : ∀ fd f, s'.fdTable.lookup fd = some f → f.path ≠ p → f.handle.mode.canWrite →
      Vfs.normalizePath f.path ≠ Vfs.normalizePath p) : Shares s' p file := by
  refine ⟨⟨fun fd cursor => ?_, fun cache hc => ?_, fun fd f hf => ?_⟩, ?_, ?_⟩
  · rw [h.cursor]
    refine exists_congr fun f => ?_
    by_cases hpath : f.path = p
    · rw [hfds fd f hpath]
    · simp [hpath]
  · exact h.holds cache (hcache ▸ hc)
  · unfold Fits
    split_ifs with hpath
    · have hfit := h.fits fd f ((hfds fd f hpath).mp hf)
      rw [Fits, if_pos hpath] at hfit
      exact ⟨hfit.1, hfit.2.1, fun hmode => hinsert (hfit.2.2 hmode)⟩
    · exact hothers fd f hf hpath
  · rw [hcache, ← h.cached]
    refine exists_congr fun fd => exists_congr fun f => ?_
    by_cases hpath : f.path = p
    · rw [hfds fd f hpath]
    · simp [hpath]
  · rw [hfile]
    refine h.stored.imp_left ?_
    rintro ⟨fd, f, hf, hpath, hmode⟩
    exact ⟨fd, f, (hfds fd f hpath).mpr hf, hpath, hmode⟩

lemma others (h : Shares s p file) (hf : s.fdTable.lookup fd = some f) (hpath : f.path ≠ p)
    (hmode : f.handle.mode.canWrite) : Vfs.normalizePath f.path ≠ Vfs.normalizePath p := by
  have hfit := h.fits fd f hf
  rw [Fits, if_neg hpath] at hfit
  exact hfit hmode

/-! ### Closing -/

/-- A descriptor of another path is closed. -/
lemma close_other (h : Shares s p file) (hfd : s.fdTable.lookup fd = some f) (hpath : f.path ≠ p) :
    Shares (s.close fd).2 p file := by
  have hfds : ∀ fd' f', f'.path = p →
      ((s.fdTable.erase fd).lookup fd' = some f' ↔ s.fdTable.lookup fd' = some f') := by
    intro fd' f' hpath'
    by_cases heq : fd' = fd
    · subst heq
      rw [AList.lookup_erase, hfd]
      simp only [reduceCtorEq, Option.some.injEq, false_iff]
      rintro rfl
      exact hpath hpath'
    · rw [AList.lookup_erase_ne heq]
  have hothers : ∀ fd' f', (s.fdTable.erase fd).lookup fd' = some f' → f'.path ≠ p →
      f'.handle.mode.canWrite → Vfs.normalizePath f'.path ≠ Vfs.normalizePath p := by
    intro fd' f' hf' hpath'
    by_cases heq : fd' = fd
    · subst heq
      simp [AList.lookup_erase] at hf'
    · rw [AList.lookup_erase_ne heq] at hf'
      exact h.others hf' hpath'
  have hdrop : ∀ s₁ : AsyncVfs, Shares s₁ p file → Shares (s₁.dropUnused f.path) p file := by
    intro s₁ h₁
    rcases s₁.dropUnused_eq f.path with ⟨_, heq⟩ | ⟨_, heq⟩
    · rwa [heq]
    · rw [heq]
      exact h₁.frame (fun _ _ _ => Iff.rfl) (AList.lookup_erase_ne hpath.symm) rfl id
        fun _ _ hf' hpath' => h₁.others hf' hpath'
  generalize hclose : s.close fd = r
  cases hclose ▸ closes hfd with
  | read _ => exact hdrop _ (h.frame hfds rfl rfl id hothers)
  | noCache _ _ => exact h.frame hfds rfl rfl id hothers
  | writeBack hmode _ hins =>
    refine hdrop _ (h.frame hfds (AList.lookup_insert_ne hpath.symm) ?_ ?_ hothers)
    · exact fileBytes_insertFile_of_ne (h.others hfd hpath hmode) hins
    · exact fun hcan => canInsert_insertFile hcan hins
  | fail _ _ _ => exact h.frame hfds (AList.lookup_insert_ne hpath.symm) rfl id hothers

/-- A descriptor of the path is closed: the file is written back, or there was nothing to write. -/
lemma close_own (h : Shares s p file) (hfd : s.fdTable.lookup fd = some f) (hpath : f.path = p) :
    (s.close fd).1 = .ok () ∧ Shares (s.close fd).2 p (file.remove fd) ∧
      (f.handle.mode.canWrite → ∃ permission,
        (s.close fd).2.vfs.stat p = .ok (.file file.bytes permission)) := by
  have hopen : s.IsOpen p := ⟨fd, f, hfd, hpath⟩
  obtain ⟨cache, hcache⟩ := Option.isSome_iff_exists.mp (h.cached.mp hopen)
  have hfit := h.fits fd f hfd
  rw [Fits, if_pos hpath] at hfit
  have hbytes : (file.remove fd).bytes = file.bytes := rfl
  have herase := h.toTracks.erase fd
  subst hpath
  generalize hclose : s.close fd = r
  cases hclose ▸ closes hfd with
  | read hmode =>
    refine ⟨rfl, herase.dropUnused (fun _ => by simp [hcache]) ?_, fun h => absurd h hmode⟩
    refine h.stored.imp_left ?_
    rintro ⟨fd', f', hf', hpath', hmode'⟩
    refine ⟨fd', f', ?_, hpath', hmode'⟩
    rw [AList.lookup_erase_ne]
    · exact hf'
    · rintro rfl
      rw [hfd] at hf'
      obtain rfl := Option.some.inj hf'
      exact hmode hmode'
  | noCache _ hnone =>
    rw [hcache] at hnone
    cases hnone
  | @writeBack _ v hmode hcache' hins =>
    rw [hcache] at hcache'
    obtain rfl := Option.some.inj hcache'
    have hholds := h.holds cache hcache
    obtain ⟨key, hkey⟩ := exists_normalizePath hins
    have hwritten : Tracks { s with
        vfs := v
        fdTable := s.fdTable.erase fd
        caches := s.caches.insert f.path (rebuild cache).2 } f.path (file.remove fd) := by
      refine herase.congr rfl (fun hcan => canInsert_insertFile hcan hins) fun cache' hcache' => ?_
      rw [AList.lookup_insert] at hcache'
      obtain rfl := Option.some.inj hcache'
      exact hholds.rebuild_snd
    refine ⟨rfl, hwritten.dropUnused (fun _ => by simp) (.inr ?_),
      fun _ => ⟨permissionOf s.vfs f.path, ?_⟩⟩
    · rw [fileBytes_insertFile hkey hins, hholds.rebuild_fst, hbytes]
    · rw [vfs_dropUnused, stat_insertFile hkey hins, hholds.rebuild_fst]
  | fail hmode _ hins =>
    obtain ⟨v, hv⟩ := exists_insertFile (hfit.2.2 hmode) _ _
    rw [hv] at hins
    cases hins

/-! ### Calls -/

lemma call_other {op : FileOp} {reply : Reply} (h : Shares s p file)
    (hfd : s.fdTable.lookup fd = some f) (hpath : f.path ≠ p)
    (hcall : s.onHandle fd op = some (reply, s')) : Shares s' p file := by
  simp only [onHandle, hfd] at hcall
  cases hcache : s.caches.lookup f.path with
  | none => simp [hcache] at hcall
  | some cache =>
    simp only [hcache, Option.map_eq_some_iff, Prod.mk.injEq, Prod.exists] at hcall
    obtain ⟨_, handle', cache', hstep, rfl, rfl⟩ := hcall
    have hmode : handle'.mode = f.handle.mode := FileHandle.mode_step hstep
    refine h.frame (fun fd' f' hpath' => ?_) (AList.lookup_insert_ne hpath.symm) rfl id ?_
    · by_cases heq : fd' = fd
      · subst heq
        simp only [AList.lookup_insert, hfd, Option.some.injEq]
        constructor
        · rintro rfl
          exact absurd hpath' hpath
        · rintro rfl
          exact absurd hpath' hpath
      · simp only [AList.lookup_insert_ne heq]
    · intro fd' f' hf' hpath' hwrite
      by_cases heq : fd' = fd
      · subst heq
        rw [AList.lookup_insert] at hf'
        obtain rfl := Option.some.inj hf'
        simp only [hmode] at hwrite
        exact h.others (f := f) hfd hpath hwrite
      · rw [AList.lookup_insert_ne heq] at hf'
        exact h.others hf' hpath' hwrite

/-- A call on a descriptor of the path is one on the file. -/
lemma call_own {op : FileOp} (h : Shares s p file) (hfd : s.fdTable.lookup fd = some f)
    (hpath : f.path = p)
    (hok : ∀ cache, s.caches.lookup p = some cache → CallWritesThrough f.handle cache op) :
    ∃ reply s' bytes' handle', s.onHandle fd op = some (reply, s') ∧
      ByteFile.Step f.handle.mode { bytes := file.bytes, pos := f.handle.pos } op reply
        { bytes := bytes', pos := handle'.pos } ∧
      CallLeaves f.handle handle' file.bytes bytes' ∧
      s'.fdTable.lookup fd = some { f with handle := handle' } ∧
      Shares s' p
        { bytes := bytes'
          cursors := Function.update file.cursors fd (some (f.handle.mode, handle'.pos)) } := by
  obtain ⟨cache, hcache⟩ := Option.isSome_iff_exists.mp (h.cached.mp ⟨fd, f, hfd, hpath⟩)
  have hfit := h.fits fd f hfd
  rw [Fits, if_pos hpath] at hfit
  obtain ⟨reply, handle', cache', bytes', hstep, hfile, hleaves, hholds⟩ :=
    (h.holds cache hcache).step hfit.1 hfit.2.1 (hok cache hcache)
  subst hpath
  refine ⟨reply, { s with
    fdTable := s.fdTable.insert fd { f with handle := handle' }
    caches := s.caches.insert f.path cache' }, bytes', handle', ?_, hfile, hleaves,
    AList.lookup_insert _, ?_⟩
  · simp only [onHandle, hfd, hcache, hstep, Option.map_some]
  have hcases : ∀ fd' f', (s.fdTable.insert fd { f with handle := handle' }).lookup fd' = some f' →
      (fd' = fd ∧ f' = { f with handle := handle' }) ∨
        fd' ≠ fd ∧ s.fdTable.lookup fd' = some f' := by
    intro fd' f' hf'
    by_cases heq : fd' = fd
    · subst heq
      rw [AList.lookup_insert] at hf'
      exact .inl ⟨rfl, (Option.some.inj hf').symm⟩
    · rw [AList.lookup_insert_ne heq] at hf'
      exact .inr ⟨heq, hf'⟩
  refine ⟨⟨fun fd' cursor => ?_, fun c hc => ?_, fun fd' f' hf' => ?_⟩, ?_, ?_⟩
  · by_cases heq : fd' = fd
    · subst heq
      simp [AList.lookup_insert, hleaves.mode]
    · simp only [Function.update_of_ne heq, AList.lookup_insert_ne heq]
      exact h.cursor fd' cursor
  · rw [AList.lookup_insert] at hc
    obtain rfl := Option.some.inj hc
    exact hholds
  · rcases hcases fd' f' hf' with ⟨rfl, rfl⟩ | ⟨_, hf'⟩
    · rw [Fits, if_pos rfl]
      exact ⟨hleaves.blockSize, hleaves.own, fun hmode => hfit.2.2 (hleaves.mode ▸ hmode)⟩
    · have hfit' := h.fits fd' f' hf'
      unfold Fits at hfit' ⊢
      split_ifs at hfit' ⊢
      · exact ⟨hfit'.1, hfit'.2.1.trans hleaves.grows, hfit'.2.2⟩
      · exact hfit'
  · simp only [AList.lookup_insert, Option.isSome_some, iff_true]
    exact ⟨fd, _, AList.lookup_insert _, rfl⟩
  · by_cases hwriter : ∃ fd' f', s.fdTable.lookup fd' = some f' ∧ f'.path = f.path ∧
        f'.handle.mode.canWrite
    · obtain ⟨fd', f', hf', hpath', hmode'⟩ := hwriter
      left
      by_cases heq : fd' = fd
      · subst heq
        rw [hfd] at hf'
        obtain rfl := Option.some.inj hf'
        exact ⟨fd', _, AList.lookup_insert _, rfl, hleaves.mode ▸ hmode'⟩
      · exact ⟨fd', f', by rw [AList.lookup_insert_ne heq]; exact hf', hpath', hmode'⟩
    · rcases hleaves.unchanged with rfl | hmode
      · exact .inr (h.stored.resolve_left hwriter)
      · exact absurd ⟨fd, f, hfd, rfl, hmode⟩ hwriter

/-! ### Opening -/

end Shares

/-- The condition on opening the path. A file that is opened first fits into a cache unless it is
truncated. One that is open already has the blocks of the filesystem's file in its cache, and is
empty if it is to be truncated. A writer's file can be written back. -/
def OpensCoherently (s : AsyncVfs) (p : Text) (mode : OpenMode) : Prop :=
  (mode.canWrite → s.vfs.canInsert p) ∧
    match s.caches.lookup p with
    | none => mode = .write ∨ (s.vfs.fileBytes p).length ≤ maxCached
    | some cache =>
      if mode = .write then cache.fileSize = 0
      else ∀ n < numBlocks (s.vfs.fileBytes p).length,
        cache.lookup n = some (blockAt defaultBlockSize (s.vfs.fileBytes p) n)

instance : Decidable (s.OpensCoherently p mode) :=
  match hcache : s.caches.lookup p with
  | none =>
    decidable_of_iff ((mode.canWrite → s.vfs.canInsert p) ∧
      (mode = .write ∨ (s.vfs.fileBytes p).length ≤ maxCached))
      (by rw [OpensCoherently, hcache])
  | some cache =>
    decidable_of_iff ((mode.canWrite → s.vfs.canInsert p) ∧
      if mode = .write then cache.fileSize = 0
      else ∀ n < numBlocks (s.vfs.fileBytes p).length,
        cache.lookup n = some (blockAt defaultBlockSize (s.vfs.fileBytes p) n))
      (by rw [OpensCoherently, hcache])

namespace Shares

variable {content : List UInt8}

/-- The cache that an open leaves holds the file, and the descriptor's copy is no longer. -/
lemma populated (h : Shares s p file) (hcontent : openContent s.vfs p mode = .ok content)
    (hok : s.OpensCoherently p mode) :
    Holds (populate content (s.getOrCreateCache p content.length))
        (if mode = .write then [] else file.bytes) ∧
      content.length ≤ (if mode = .write then [] else file.bytes).length ∧
      ((if mode = .write then [] else file.bytes) = file.bytes ∨ ¬ s.IsOpen p) := by
  have hbytes := content_eq hcontent
  obtain ⟨_, hok⟩ := hok
  cases hcache : s.caches.lookup p with
  | none =>
    have hclosed : ¬ s.IsOpen p := by
      rw [h.cached, hcache]
      simp
    have hfile : s.vfs.fileBytes p = file.bytes :=
      h.stored.resolve_left fun ⟨fd, f, hf, hpath, _⟩ => hclosed ⟨fd, f, hf, hpath⟩
    rw [hfile] at hbytes
    rw [← hbytes, getOrCreateCache, hcache]
    refine ⟨Holds.populate_new ?_, le_rfl, .inr hclosed⟩
    simp only [hcache, hfile] at hok
    rcases hok with rfl | hok
    · simp [hbytes]
    · rw [hbytes]
      split_ifs
      · exact Nat.zero_le _
      · exact hok
  | some cache =>
    have hholds := h.holds cache hcache
    simp only [hcache] at hok
    rw [getOrCreateCache, hcache]
    split_ifs at hok hbytes ⊢ with hmode
    · have hempty : file.bytes = [] := by
        rw [← List.length_eq_zero_iff, ← hholds.fileSize, hok]
      subst hbytes
      rw [hempty] at hholds ⊢
      exact ⟨hholds.populate fun n hn => absurd hn (Nat.not_lt_zero _), le_rfl, .inl rfl⟩
    · subst hbytes
      have hsame := fun n hn => hok n (lt_numBlocks_iff.mpr hn)
      exact ⟨hholds.populate hsame, hholds.length_le hsame, .inl rfl⟩

/-- An open of the path puts a new cursor into the file. -/
lemma open_own (h : Shares s p file) (hcontent : openContent s.vfs p mode = .ok content)
    (hfresh : s.fdTable.lookup s.nextFd = none) (hok : s.OpensCoherently p mode) :
    Shares
      { s with
        fdTable := s.fdTable.insert s.nextFd
          { handle := .new (.new content)
              (populate content (s.getOrCreateCache p content.length)) mode
            path := p }
        caches := s.caches.insert p (populate content (s.getOrCreateCache p content.length))
        nextFd := (s.nextFd + 1) % 2 ^ 32 } p
      { bytes := if mode = .write then [] else file.bytes
        cursors := Function.update file.cursors s.nextFd
          (some (mode, if mode = .append then file.bytes.length else 0)) } := by
  obtain ⟨hholds, hlen, hbytes⟩ := h.populated hcontent hok
  have hpos : (FileHandle.new (.new content)
      (populate content (s.getOrCreateCache p content.length)) mode).pos =
        if mode = .append then file.bytes.length else 0 := by
    rw [FileHandle.new, hholds.fileSize]
    split_ifs with happend hwrite
    · rw [hwrite] at happend
      cases happend
    · rfl
    · rfl
  have hne : ∀ fd f, s.fdTable.lookup fd = some f → fd ≠ s.nextFd := by
    rintro fd f hf rfl
    rw [hfresh] at hf
    cases hf
  refine ⟨⟨fun fd cursor => ?_, fun cache hcache => ?_, fun fd f hf => ?_⟩, ?_, ?_⟩
  · by_cases heq : fd = s.nextFd
    · subst heq
      simp [AList.lookup_insert, FileHandle.new] at hpos ⊢
      rw [hpos]
    · simp only [Function.update_of_ne heq, AList.lookup_insert_ne heq]
      exact h.cursor fd cursor
  · rw [AList.lookup_insert] at hcache
    obtain rfl := Option.some.inj hcache
    exact hholds
  · by_cases heq : fd = s.nextFd
    · subst heq
      rw [AList.lookup_insert] at hf
      obtain rfl := Option.some.inj hf
      rw [Fits, if_pos rfl]
      exact ⟨rfl, hlen, hok.1⟩
    · rw [AList.lookup_insert_ne heq] at hf
      have hfit := h.fits fd f hf
      by_cases hpath : f.path = p
      · simp only [hbytes.resolve_right (not_not_intro ⟨fd, f, hf, hpath⟩)]
        exact hfit
      · rw [Fits, if_neg hpath] at hfit ⊢
        exact hfit
  · simp only [AList.lookup_insert, Option.isSome_some, iff_true]
    exact ⟨s.nextFd, _, AList.lookup_insert _, rfl⟩
  · by_cases hmode : mode.canWrite
    · exact .inl ⟨s.nextFd, _, AList.lookup_insert _, rfl, hmode⟩
    · have hread : mode ≠ .write := by
        rintro rfl
        exact hmode rfl
      rw [if_neg hread]
      refine h.stored.imp_left ?_
      rintro ⟨fd, f, hf, hpath, hwrite⟩
      exact ⟨fd, f, by rw [AList.lookup_insert_ne (hne fd f hf)]; exact hf, hpath, hwrite⟩

/-- An open of another path. -/
lemma open_other {handle : FileHandle} {next : ℕ} (h : Shares s p file) (hpath : q ≠ p)
    (hfresh : s.fdTable.lookup s.nextFd = none)
    (hok : handle.mode.canWrite → Vfs.normalizePath q ≠ Vfs.normalizePath p) :
    Shares
      { s with
        fdTable := s.fdTable.insert s.nextFd { handle, path := q }
        caches := s.caches.insert q cache
        nextFd := next } p file := by
  have hlookup : ∀ fd f, f.path = p →
      ((s.fdTable.insert s.nextFd { handle, path := q }).lookup fd = some f ↔
        s.fdTable.lookup fd = some f) := by
    intro fd f hf
    by_cases heq : fd = s.nextFd
    · subst heq
      rw [AList.lookup_insert, hfresh]
      simp only [Option.some.injEq, reduceCtorEq, iff_false]
      rintro rfl
      exact hpath hf
    · rw [AList.lookup_insert_ne heq]
  refine h.frame hlookup (AList.lookup_insert_ne hpath.symm) rfl id fun fd f hf hother hmode => ?_
  by_cases heq : fd = s.nextFd
  · subst heq
    rw [AList.lookup_insert] at hf
    obtain rfl := Option.some.inj hf
    exact hok hmode
  · rw [AList.lookup_insert_ne heq] at hf
    exact h.others hf hother hmode

end Shares

/-! ### Runs -/

/-- What an event is for the descriptors of a path. -/
def observe (s : AsyncVfs) (p : Text) : Event → Option SharedFile.Event
  | .openFile path mode =>
    match normalizePath path, s.openFile path mode with
    | .ok q, .ok (fd, _) => if q = p then some (.opened fd mode) else none
    | _, _ => none
  | .close fd =>
    match s.fdTable.lookup fd with
    | some f => if f.path = p then some (.closed fd) else none
    | none => none
  | .call fd op =>
    match s.fdTable.lookup fd, s.onHandle fd op with
    | some f, some (reply, _) => if f.path = p then some (.replied fd op reply) else none
    | _, _ => none

/-- The condition on an event: an open gets a number that is not in use, and other paths do not name
the same file for writing, nor do their calls panic. -/
def Coherent (s : AsyncVfs) (p : Text) : Event → Prop
  | .openFile path mode =>
    match normalizePath path with
    | .ok q =>
      (openContent s.vfs q mode).isOk → (s.fdTable.lookup s.nextFd).isNone ∧
        if q = p then s.OpensCoherently p mode
        else mode.canWrite → Vfs.normalizePath q ≠ Vfs.normalizePath p
    | .error _ => True
  | .close _ => True
  | .call fd op =>
    match s.fdTable.lookup fd with
    | some f =>
      if f.path = p then ∀ cache ∈ s.caches.lookup p, CallWritesThrough f.handle cache op
      else (s.onHandle fd op).isSome
    | none => True

instance (e : Event) : Decidable (s.Coherent p e) :=
  match e with
  | .openFile path mode =>
    match hq : normalizePath path with
    | .ok q =>
      decidable_of_iff ((openContent s.vfs q mode).isOk → (s.fdTable.lookup s.nextFd).isNone ∧
        if q = p then s.OpensCoherently p mode
        else mode.canWrite → Vfs.normalizePath q ≠ Vfs.normalizePath p)
        (by rw [Coherent, hq])
    | .error _ => .isTrue (by rw [Coherent, hq]; trivial)
  | .close _ => .isTrue trivial
  | .call fd op =>
    match hfd : s.fdTable.lookup fd with
    | some f =>
      decidable_of_iff
        (if f.path = p then ∀ cache ∈ s.caches.lookup p, CallWritesThrough f.handle cache op
        else (s.onHandle fd op).isSome) (by rw [Coherent, hfd])
    | none => .isTrue (by rw [Coherent, hfd]; trivial)

lemma Shares.step_openFile (h : Shares s p file) (hok : s.Coherent p (.openFile path mode)) :
    ∃ s', s.step (.openFile path mode) = some s' ∧
      match s.observe p (.openFile path mode) with
      | some event => ∃ file', SharedFile.Step file event file' ∧ Shares s' p file'
      | none => Shares s' p file := by
  cases hopen : s.openFile path mode with
  | error e =>
    refine ⟨s, by simp only [step, hopen], ?_⟩
    have hnone : s.observe p (.openFile path mode) = none := by
      simp only [observe, hopen]
      cases normalizePath path <;> rfl
    rw [hnone]
    exact h
  | ok r =>
    obtain ⟨fd, s'⟩ := r
    refine ⟨s', by simp only [step, hopen], ?_⟩
    obtain ⟨q, content, hq, hcontent, rfl, rfl⟩ := openFile_eq_ok.mp hopen
    simp only [Coherent, hq, hcontent, Except.isOk, Except.toBool, forall_const] at hok
    obtain ⟨hfresh, hok⟩ := hok
    rw [Option.isNone_iff_eq_none] at hfresh
    simp only [observe, hq, hopen]
    split_ifs at hok ⊢ with hpath
    · subst hpath
      refine ⟨_, .opened ?_, h.open_own hcontent hfresh hok⟩
      by_contra hsome
      obtain ⟨cursor, hcursor⟩ := Option.ne_none_iff_exists'.mp hsome
      obtain ⟨f, hf, _⟩ := (h.cursor _ _).mp hcursor
      rw [hfresh] at hf
      cases hf
    · exact h.open_other hpath hfresh hok

lemma Shares.step_close (h : Shares s p file) :
    ∃ s', s.step (.close fd) = some s' ∧
      match s.observe p (.close fd) with
      | some event => ∃ file', SharedFile.Step file event file' ∧ Shares s' p file'
      | none => Shares s' p file := by
  refine ⟨_, rfl, ?_⟩
  cases hfd : s.fdTable.lookup fd with
  | none =>
    have hclose : (s.close fd).2 = s := by simp only [close, hfd]
    simp only [observe, hfd, hclose]
    exact h
  | some f =>
    simp only [observe, hfd]
    split_ifs with hpath
    · exact ⟨_, .closed, (h.close_own hfd hpath).2.1⟩
    · exact h.close_other hfd hpath

lemma Shares.step_call {op : FileOp} (h : Shares s p file) (hok : s.Coherent p (.call fd op)) :
    ∃ s', s.step (.call fd op) = some s' ∧
      match s.observe p (.call fd op) with
      | some event => ∃ file', SharedFile.Step file event file' ∧ Shares s' p file'
      | none => Shares s' p file := by
  cases hfd : s.fdTable.lookup fd with
  | none =>
    refine ⟨s, by simp only [step, onHandle, hfd, Option.map_some], ?_⟩
    simp only [observe, hfd]
    exact h
  | some f =>
    simp only [Coherent, hfd] at hok
    split_ifs at hok with hpath
    · obtain ⟨reply, s', bytes', handle', hcall, hfile, _, _, hshares⟩ := h.call_own hfd hpath hok
      refine ⟨s', by simp only [step, hcall, Option.map_some], ?_⟩
      simp only [observe, hfd, hcall, if_pos hpath]
      exact ⟨_, .replied ((h.cursor _ _).mpr ⟨f, hfd, hpath, rfl⟩) hfile, hshares⟩
    · obtain ⟨⟨reply, s'⟩, hcall⟩ := Option.isSome_iff_exists.mp hok
      refine ⟨s', by simp only [step, hcall, Option.map_some], ?_⟩
      simp only [observe, hfd, hcall, if_neg hpath]
      exact h.call_other hfd hpath hcall

/-- One event is one of the shared file, or none at all. -/
theorem Shares.step {e : Event} (h : Shares s p file) (hok : s.Coherent p e) :
    ∃ s', s.step e = some s' ∧
      match s.observe p e with
      | some event => ∃ file', SharedFile.Step file event file' ∧ Shares s' p file'
      | none => Shares s' p file := by
  cases e with
  | openFile path mode => exact h.step_openFile hok
  | close fd => exact h.step_close
  | call fd op => exact h.step_call hok

/-- A sequence of events that do not panic, and what they are for the descriptors of a path. -/
def trace (p : Text) (s : AsyncVfs) : List Event → Option (List SharedFile.Event × AsyncVfs)
  | [] => some ([], s)
  | e :: es => do
    let s' ← s.step e
    let (observed, s'') ← trace p s' es
    some ((s.observe p e).toList ++ observed, s'')

/-- Every event of a run meets the condition in its turn. -/
def RunCoherent (p : Text) (s : AsyncVfs) (es : List Event) : Prop :=
  Meets (fun s e => s.Coherent p e) step s es

instance (es : List Event) : Decidable (s.RunCoherent p es) :=
  inferInstanceAs (Decidable (Meets _ _ s es))

theorem Shares.run {es : List Event} (h : Shares s p file) (hok : s.RunCoherent p es) :
    ∃ observed s' file', s.trace p es = some (observed, s') ∧
      SharedFile.Run file observed file' ∧ Shares s' p file' := by
  induction es generalizing s file with
  | nil => exact ⟨[], s, file, rfl, .nil, h⟩
  | cons e es ih =>
    obtain ⟨hevent, hrest⟩ := hok
    obtain ⟨s₁, hstep, hshares⟩ := h.step hevent
    have hrest := hrest s₁ hstep
    cases hobserve : s.observe p e with
    | none =>
      rw [hobserve] at hshares
      obtain ⟨observed, s', file', htrace, hrun, hshares'⟩ := ih hshares hrest
      refine ⟨observed, s', file', ?_, hrun, hshares'⟩
      simp [trace, hstep, htrace, hobserve]
    | some event =>
      rw [hobserve] at hshares
      obtain ⟨file₁, hfile, hshares⟩ := hshares
      obtain ⟨observed, s', file', htrace, hrun, hshares'⟩ := ih hshares hrest
      refine ⟨event :: observed, s', file', ?_, .cons hfile hrun, hshares'⟩
      simp [trace, hstep, htrace, hobserve]

/-- Over a run whose events are coherent for a path, its descriptors are cursors in one file, which
has the shared size, and which the filesystem has when the last of them is closed. -/
theorem oneFile (vfs : Vfs) (p : Text) (es : List Event) (hok : (fromVfs vfs).RunCoherent p es) :
    ∃ observed s file, (fromVfs vfs).trace p es = some (observed, s) ∧
      SharedFile.Run (.ofBytes (vfs.fileBytes p)) observed file ∧
      (∀ fd cursor, file.cursors fd = some cursor ↔
        ∃ f, s.fdTable.lookup fd = some f ∧ f.path = p ∧
          (f.handle.mode, f.handle.pos) = cursor) ∧
      (s.IsOpen p → ∃ cache, s.caches.lookup p = some cache ∧
        cache.fileSize = file.bytes.length) ∧
      (¬ s.IsOpen p → s.vfs.fileBytes p = file.bytes) := by
  obtain ⟨observed, s, file, htrace, hrun, hshares⟩ := (shares_fromVfs vfs p).run hok
  refine ⟨observed, s, file, htrace, hrun, hshares.cursor, fun hopen => ?_, fun hclosed => ?_⟩
  · obtain ⟨cache, hcache⟩ := Option.isSome_iff_exists.mp (hshares.cached.mp hopen)
    exact ⟨cache, hcache, (hshares.holds cache hcache).fileSize⟩
  · exact hshares.stored.resolve_left fun ⟨fd, f, hf, hpath, _⟩ => hclosed ⟨fd, f, hf, hpath⟩

/-- A filesystem of one file with one byte. -/
def oneByte : Vfs :=
  (Vfs.empty.insert root (.directory .readWrite)).insert "/f".toList (.file [97] .readWrite)

/-- One descriptor writes, another one reads what was written. -/
theorem oneFile_oneByte :
    ∃ observed s file, (fromVfs oneByte).trace "/f".toList
        [.openFile "/f".toList .readWrite, .openFile "/f".toList .read, .call 3 (.write [98, 99]),
          .call 4 (.read 8), .close 3, .close 4] = some (observed, s) ∧
      SharedFile.Run (.ofBytes (oneByte.fileBytes "/f".toList)) observed file ∧
      (∀ fd cursor, file.cursors fd = some cursor ↔
        ∃ f, s.fdTable.lookup fd = some f ∧ f.path = "/f".toList ∧
          (f.handle.mode, f.handle.pos) = cursor) ∧
      (s.IsOpen "/f".toList → ∃ cache, s.caches.lookup "/f".toList = some cache ∧
        cache.fileSize = file.bytes.length) ∧
      (¬ s.IsOpen "/f".toList → s.vfs.fileBytes "/f".toList = file.bytes) :=
  oneFile oneByte "/f".toList _ (by decide +kernel)

/-- An open between a write and the close that follows takes the write back. -/
theorem not_oneFile_oneByte :
    ∃ observed s, (fromVfs oneByte).trace "/f".toList
        [.openFile "/f".toList .readWrite, .call 3 (.write [98]),
          .openFile "/f".toList .readWrite, .close 3, .close 4] = some (observed, s) ∧
      s.fdTable.keys = [] ∧
      ¬ ∃ file, SharedFile.Run (.ofBytes (oneByte.fileBytes "/f".toList)) observed file ∧
        s.vfs.fileBytes "/f".toList = file.bytes := by
  have htrace : ((fromVfs oneByte).trace "/f".toList
      [.openFile "/f".toList .readWrite, .call 3 (.write [98]),
        .openFile "/f".toList .readWrite, .close 3, .close 4]).map
        (fun r => (r.1, r.2.fdTable.keys, r.2.vfs.fileBytes "/f".toList)) =
          some ([.opened 3 .readWrite, .replied 3 (.write [98]) (.written 1), .opened 4 .readWrite,
            .closed 3, .closed 4], [], [97]) := by
    decide +kernel
  obtain ⟨⟨observed, s⟩, hrun, heq⟩ := Option.map_eq_some_iff.mp htrace
  simp only [Prod.mk.injEq] at heq
  obtain ⟨rfl, hkeys, hbytes⟩ := heq
  refine ⟨_, s, hrun, hkeys, ?_⟩
  rintro ⟨file, hfile, hsame⟩
  rw [hbytes] at hsame
  cases hfile with
  | cons h₁ hfile =>
    cases h₁
    cases hfile with
    | cons h₂ hfile =>
      cases h₂ with
      | replied hcursor hwrite =>
        simp [SharedFile.ofBytes] at hcursor
        obtain ⟨rfl, rfl⟩ := hcursor
        cases hwrite
        cases hfile with
        | cons h₃ hfile =>
          cases h₃
          cases hfile with
          | cons h₄ hfile =>
            cases h₄
            cases hfile with
            | cons h₅ hfile =>
              cases h₅
              cases hfile
              revert hsame
              decide +kernel

end AsyncVfs

end AmlaSandbox
