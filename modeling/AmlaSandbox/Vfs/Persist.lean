import AmlaSandbox.Vfs.Shared

/-!
# One descriptor

A file that is edited through a single descriptor is what a byte array becomes under the same calls,
as long as its blocks can all be cached and no write leaves out a block.
-/

namespace AmlaSandbox.AsyncVfs

open Library Vfs

/-- The calls on one descriptor, with their replies. -/
def calls (fd : ℕ) (s : AsyncVfs) : List FileOp → Option (List Reply × AsyncVfs)
  | [] => some ([], s)
  | op :: ops => do
    let (reply, s') ← s.onHandle fd op
    let (replies, s'') ← calls fd s' ops
    some (reply :: replies, s'')

/-- A write goes into the blocks of the file, or the one behind them, and these can be cached. -/
def CallWritesInto (s : AsyncVfs) (fd : ℕ) : FileOp → Prop
  | .write buf =>
    ∀ f ∈ s.fdTable.lookup fd, ∀ cache ∈ s.caches.lookup f.path,
      buf ≠ [] → WritesInto f.handle cache buf
  | _ => True

instance {s : AsyncVfs} {fd : ℕ} (op : FileOp) : Decidable (s.CallWritesInto fd op) :=
  match op with
  | .read _ => .isTrue trivial
  | .write buf => inferInstanceAs (Decidable (∀ f ∈ s.fdTable.lookup fd,
      ∀ cache ∈ s.caches.lookup f.path, buf ≠ [] → WritesInto f.handle cache buf))
  | .seek _ => .isTrue trivial

/-- Every call meets the condition in its turn. -/
def CallsWriteInto (fd : ℕ) (s : AsyncVfs) (ops : List FileOp) : Prop :=
  Meets (fun s op => s.CallWritesInto fd op) (fun s op => (s.onHandle fd op).map Prod.snd) s ops

instance {s : AsyncVfs} {fd : ℕ} (ops : List FileOp) : Decidable (s.CallsWriteInto fd ops) :=
  inferInstanceAs (Decidable (Meets _ _ s ops))

variable {s s₁ : AsyncVfs} {vfs : Vfs} {path p : Text} {mode : OpenMode} {file : SharedFile}
variable {fd : ℕ} {f : OpenFile} {ops : List FileOp}

/-- A descriptor whose copy is as long as the file keeps it so. -/
theorem Shares.calls (h : Shares s p file) (hfd : s.fdTable.lookup fd = some f)
    (hpath : f.path = p) (hown : f.handle.store.data.length = file.bytes.length)
    (hok : s.CallsWriteInto fd ops) :
    ∃ replies s' f' file', s.calls fd ops = some (replies, s') ∧
      ByteFile.Run f.handle.mode { bytes := file.bytes, pos := f.handle.pos } ops replies
        { bytes := file'.bytes, pos := f'.handle.pos } ∧
      s'.fdTable.lookup fd = some f' ∧ f'.path = p ∧ f'.handle.mode = f.handle.mode ∧
      Shares s' p file' := by
  induction ops generalizing s file f with
  | nil => exact ⟨[], s, f, file, rfl, .nil, hfd, hpath, rfl, h⟩
  | cons op ops ih =>
    obtain ⟨hcall, hrest⟩ := hok
    have hthrough : ∀ cache, s.caches.lookup p = some cache →
        CallWritesThrough f.handle cache op := by
      intro cache hcache
      cases op with
      | write buf =>
        intro _ hbuf
        have hdate : f.handle.store.data.length = cache.fileSize := by
          rw [hown, (h.holds cache hcache).fileSize]
        exact ⟨hcall f hfd cache (hpath ▸ hcache) hbuf, .inl hdate⟩
      | read len => trivial
      | seek seekFrom => trivial
    obtain ⟨reply, s', bytes', handle', hstep, hfile, hleaves, hlookup, hshares⟩ :=
      h.call_own hfd hpath hthrough
    obtain ⟨replies, s'', f'', file'', hcalls, hrun, hlookup'', hpath'', hmode'', hshares''⟩ :=
      ih hshares hlookup hpath (hleaves.upToDate hown) (hrest s' (by simp [hstep]))
    refine ⟨reply :: replies, s'', f'', file'', ?_, ?_, hlookup'', hpath'',
      hmode''.trans hleaves.mode, hshares''⟩
    · simp [AsyncVfs.calls, hstep, hcalls]
    · rw [hleaves.mode] at hrun
      exact .cons hfile hrun

/-- What a descriptor starts from. -/
def startBytes (vfs : Vfs) (p : Text) (mode : OpenMode) : List UInt8 :=
  if mode = .write then [] else vfs.fileBytes p

/-- Open, calls and close: the file in the filesystem becomes what the calls make of a byte
array. -/
theorem persists (vfs : Vfs) (path p : Text) (mode : OpenMode) (fd : ℕ) (s₁ : AsyncVfs)
    (ops : List FileOp) (hmode : mode.canWrite) (hpath : normalizePath path = .ok p)
    (hopen : (fromVfs vfs).openFile path mode = .ok (fd, s₁)) (hinsert : vfs.canInsert p)
    (hfits : (startBytes vfs p mode).length ≤ maxCached) (hok : s₁.CallsWriteInto fd ops) :
    ∃ replies s₂ file permission, s₁.calls fd ops = some (replies, s₂) ∧
      ByteFile.Run mode
        { bytes := startBytes vfs p mode
          pos := if mode = .append then (startBytes vfs p mode).length else 0 } ops replies file ∧
      (s₂.close fd).1 = .ok () ∧
      (s₂.close fd).2.vfs.stat p = .ok (.file file.bytes permission) := by
  obtain ⟨q, content, hq, hcontent, rfl, rfl⟩ := openFile_eq_ok.mp hopen
  obtain rfl := Except.ok.inj (hq.symm.trans hpath)
  have hcoherent : (fromVfs vfs).OpensCoherently q mode := by
    refine ⟨fun _ => hinsert, ?_⟩
    rw [startBytes] at hfits
    split_ifs at hfits with hwrite
    · exact .inl hwrite
    · exact .inr hfits
  have hstart : content = startBytes vfs q mode := content_eq hcontent
  have hshares := (shares_fromVfs vfs q).open_own hcontent rfl hcoherent
  obtain ⟨replies, s₂, f, file, hcalls, hrun, hfd, hpath', hmode', hshares'⟩ :=
    hshares.calls (AList.lookup_insert _) rfl (congrArg List.length hstart) hok
  obtain ⟨hclose, _, hstat⟩ := hshares'.close_own hfd hpath'
  obtain ⟨permission, hstat⟩ := hstat (hmode' ▸ hmode)
  have hpos := (hshares.cursor _ _).mpr ⟨_, AList.lookup_insert _, rfl, rfl⟩
  simp only [Function.update_self, Option.some.injEq, Prod.mk.injEq] at hpos
  have happend : (if mode = .append then (vfs.fileBytes q).length else 0) =
      if mode = .append then (startBytes vfs q mode).length else 0 := by
    split_ifs with happend
    · rw [startBytes, if_neg]
      rw [happend]
      exact OpenMode.noConfusion
    · rfl
  rw [← hpos.2] at hrun
  refine ⟨replies, s₂, { bytes := file.bytes, pos := f.handle.pos }, permission, hcalls, ?_, hclose,
    hstat⟩
  rw [← happend]
  exact hrun

/-- A new file is written, read and written again. -/
theorem persists_oneByte :
    ∃ s₁, (fromVfs oneByte).openFile "/g".toList .readWrite = .ok (3, s₁) ∧
      ∃ replies s₂ file permission,
        s₁.calls 3 [.write [1, 2, 3], .seek (.start 1), .read 1, .write [4, 5]] =
          some (replies, s₂) ∧
        ByteFile.Run .readWrite
          { bytes := startBytes oneByte "/g".toList .readWrite
            pos := if OpenMode.readWrite = .append
              then (startBytes oneByte "/g".toList .readWrite).length else 0 }
          [.write [1, 2, 3], .seek (.start 1), .read 1, .write [4, 5]] replies file ∧
        (s₂.close 3).1 = .ok () ∧
        (s₂.close 3).2.vfs.stat "/g".toList = .ok (.file file.bytes permission) := by
  refine ⟨_, rfl, persists oneByte "/g".toList "/g".toList .readWrite 3 _ _ rfl ?_ rfl ?_ ?_ ?_⟩
  all_goals decide +kernel

/-- The blocks that a write leaves out are not written back. -/
theorem not_persists_gap :
    ∃ s₁ replies s₂, (fromVfs oneByte).openFile "/g".toList .write = .ok (3, s₁) ∧
      s₁.calls 3 [.seek (.start 4096), .write [1]] = some (replies, s₂) ∧
      ¬ ∃ file permission,
        ByteFile.Run .write { bytes := startBytes oneByte "/g".toList .write, pos := 0 }
          [.seek (.start 4096), .write [1]] replies file ∧
        (s₂.close 3).2.vfs.stat "/g".toList = .ok (.file file.bytes permission) := by
  obtain ⟨s₁, hopen⟩ : ∃ s₁, (fromVfs oneByte).openFile "/g".toList .write = .ok (3, s₁) :=
    ⟨_, rfl⟩
  have hcalls : ((fromVfs oneByte).openFile "/g".toList .write).toOption.bind (fun r =>
      (r.2.calls 3 [.seek (.start 4096), .write [1]]).map fun r =>
        (r.1, (r.2.close 3).2.vfs.fileBytes "/g".toList)) =
          some ([.position 4096, .written 1], [1]) := by
    decide +kernel
  simp only [hopen, Except.toOption, Option.bind_some] at hcalls
  obtain ⟨⟨replies, s₂⟩, hrun, heq⟩ := Option.map_eq_some_iff.mp hcalls
  simp only [Prod.mk.injEq] at heq
  obtain ⟨rfl, hbytes⟩ := heq
  refine ⟨s₁, _, s₂, hopen, hrun, ?_⟩
  rintro ⟨file, permission, hfile, hstat⟩
  rw [fileBytes, hstat] at hbytes
  cases hfile with
  | cons hseek hfile =>
    cases hseek
    cases hfile with
    | cons hwrite hfile =>
      cases hwrite
      cases hfile
      have hlen := congrArg List.length hbytes
      simp only [length_writeAt] at hlen
      revert hlen
      decide +kernel

end AmlaSandbox.AsyncVfs
