import AmlaSandbox.Library.Reachability
import AmlaSandbox.Vfs.CacheOrder
import AmlaSandbox.Vfs.FileHandle

/-!
# A handle as a byte array with a cursor

As long as every cached block is the file's own, the calls on a handle are those of a byte array. A
write can leave a cached block that is shorter than the file's.
-/

namespace AmlaSandbox.Vfs

open Library

namespace FileHandle

variable {handle handle' : FileHandle} {cache cache' : PageCache} {n off len : ℕ}
variable {data bytes buf block : List UInt8}

/-! ### One block -/

lemma lookup_pollReadBlock {store : MemoryBlockStore} {m : ℕ}
    (h : (store.pollReadBlock n cache).lookup m = some block) :
    cache.lookup m = some block ∨
      cache.lookup n = none ∧ m = n ∧ block = blockAt store.blockSize store.data n := by
  cases hn : cache.lookup n with
  | none =>
    rw [MemoryBlockStore.pollReadBlock_of_none hn] at h
    by_cases hm : m = n
    · subst hm
      rw [PageCache.lookup_insert_self] at h
      exact .inr ⟨rfl, rfl, (Option.some.inj h).symm⟩
    · exact .inl (PageCache.lookup_insert_of_ne hm h)
  | some b =>
    rw [MemoryBlockStore.pollReadBlock_of_some hn] at h
    exact .inl h

lemma lookup_pollReadBlock_self {store : MemoryBlockStore} :
    ∃ block, (store.pollReadBlock n cache).lookup n = some block := by
  cases hn : cache.lookup n with
  | none =>
    rw [MemoryBlockStore.pollReadBlock_of_none hn]
    exact ⟨_, PageCache.lookup_insert_self⟩
  | some b =>
    rw [MemoryBlockStore.pollReadBlock_of_some hn]
    exact ⟨b, hn⟩

lemma fileSize_pollReadBlock {store : MemoryBlockStore} :
    (store.pollReadBlock n cache).fileSize = cache.fileSize := by
  cases hn : cache.lookup n with
  | none => rw [MemoryBlockStore.pollReadBlock_of_none hn, PageCache.fileSize_insert]
  | some b => rw [MemoryBlockStore.pollReadBlock_of_some hn, PageCache.fileSize_touch]

lemma blockSize_pollReadBlock {store : MemoryBlockStore} :
    (store.pollReadBlock n cache).blockSize = cache.blockSize := by
  cases hn : cache.lookup n with
  | none => rw [MemoryBlockStore.pollReadBlock_of_none hn, PageCache.blockSize_insert]
  | some b => rw [MemoryBlockStore.pollReadBlock_of_some hn, PageCache.blockSize_touch]

/-- The block that a write prepares is the one of the written file, if what is merged is the file's
block or cannot be told from nothing. -/
lemma blockData_fst (data : List UInt8) (hlen : off + bytes.length ≤ cache.blockSize)
    (hsome : ∀ block, cache.lookup n = some block → block = blockAt cache.blockSize data n)
    (hnone : cache.lookup n = none → (∀ i < off, (data[n * cache.blockSize + i]?).getD 0 = 0) ∧
      (data.length ≤ n * cache.blockSize + off + bytes.length ∨
        off + bytes.length = cache.blockSize)) :
    (blockData cache n off bytes).1 =
      blockAt cache.blockSize (writeAt 0 data (n * cache.blockSize + off) bytes) n := by
  rw [blockAt_writeAt_self hlen]
  have hblock : (blockAt cache.blockSize data n).length ≤ cache.blockSize := by
    rw [length_blockAt]
    omega
  unfold blockData
  split_ifs with hfull
  · obtain ⟨rfl, hbytes⟩ := hfull
    calc bytes
      _ = writeAt 0 [] 0 bytes := by simp [writeAt]
      _ = writeAt 0 (blockAt cache.blockSize data n) 0 bytes := by
        refine writeAt_congr (fun i hi => absurd hi (Nat.not_lt_zero i)) ?_
        rw [List.drop_nil, List.drop_eq_nil_of_le (by omega)]
  · cases hn : cache.lookup n with
    | some existing =>
      simp only [PageCache.get_of_some hn, resizeAndCopy_eq_writeAt, hsome existing hn]
    | none =>
      obtain ⟨hzero, hend⟩ := hnone hn
      simp only [PageCache.get_of_none hn, resizeAndCopy_eq_writeAt]
      refine writeAt_congr (fun i hi => ?_) ?_
      · rw [getElem?_blockAt, if_pos (by omega), hzero i hi, List.getElem?_replicate,
          if_pos (by omega), Option.getD_some]
      · rw [List.drop_eq_nil_of_le (by simp), List.drop_eq_nil_of_le]
        rw [length_blockAt]
        omega

lemma blockData_snd_lookup (m : ℕ) : (blockData cache n off bytes).2.lookup m = cache.lookup m := by
  unfold blockData
  split_ifs
  · rfl
  · cases hn : cache.lookup n <;> simp [PageCache.get, hn]

lemma blockData_snd_maxBlocks : (blockData cache n off bytes).2.maxBlocks = cache.maxBlocks := by
  unfold blockData
  split_ifs
  · rfl
  · cases hn : cache.lookup n <;> simp [PageCache.get, hn]

lemma blockData_snd_blockSize : (blockData cache n off bytes).2.blockSize = cache.blockSize := by
  unfold blockData
  split_ifs
  · rfl
  · cases hn : cache.lookup n <;> simp [PageCache.get, hn]

lemma blockData_snd_of_none (h : cache.lookup n = none) :
    (blockData cache n off bytes).2 = cache := by
  unfold blockData
  split_ifs
  · rfl
  · rw [PageCache.get_of_none h]

/-- A read before the end gets bytes at the cursor out of the block there. -/
lemma read_of_lt (data : List UInt8) (len : ℕ) (hmode : handle.mode.canRead)
    (hbs : 0 < cache.blockSize)
    (hsize : cache.fileSize = data.length) (hpos : handle.pos < cache.fileSize)
    (hblock : ∀ block, (handle.store.pollReadBlock (handle.pos / cache.blockSize) cache).lookup
      (handle.pos / cache.blockSize) = some block →
      block = blockAt cache.blockSize data (handle.pos / cache.blockSize)) :
    ∃ k, handle.read cache len = some (.ok ((data.drop handle.pos).take k),
        { handle with pos := handle.pos + k },
        ((handle.store.pollReadBlock (handle.pos / cache.blockSize) cache).get
          (handle.pos / cache.blockSize)).2) ∧
      k ≤ len ∧ handle.pos + k ≤ data.length ∧ (k = 0 → len = 0) := by
  obtain ⟨block, hget⟩ : ∃ block, (handle.store.pollReadBlock (handle.pos / cache.blockSize)
      cache).lookup (handle.pos / cache.blockSize) = some block := lookup_pollReadBlock_self
  have hb : block = blockAt cache.blockSize data (handle.pos / cache.blockSize) := hblock block hget
  have hdiv : handle.pos / cache.blockSize * cache.blockSize + handle.pos % cache.blockSize =
      handle.pos := Nat.div_add_mod' _ _
  have hmod : handle.pos % cache.blockSize < cache.blockSize := Nat.mod_lt _ hbs
  have hlen : block.length = min cache.blockSize
      (data.length - handle.pos / cache.blockSize * cache.blockSize) := by
    rw [hb, length_blockAt]
  refine ⟨min (min len (block.length - handle.pos % cache.blockSize))
    (cache.fileSize - handle.pos), ?_, by omega, by omega, by omega⟩
  have hbytes : ∀ k, k ≤ block.length - handle.pos % cache.blockSize →
      (block.drop (handle.pos % cache.blockSize)).take k = (data.drop handle.pos).take k := by
    intro k hk
    rw [hb, blockAt, List.drop_take, List.drop_drop, hdiv, List.take_take, Nat.min_eq_left]
    omega
  rw [FileHandle.read, if_neg (not_not_intro hmode), if_neg (by omega)]
  simp only [PageCache.get_of_some hget]
  rw [hbytes _ (by omega)]

lemma read_at_end (hmode : handle.mode.canRead) (hpos : cache.fileSize ≤ handle.pos) :
    handle.read cache len = some (.ok [], handle, cache) := by
  rw [FileHandle.read, if_neg (not_not_intro hmode), if_pos hpos]

lemma toWrite_pos (handle : FileHandle) (hbs : 0 < cache.blockSize) (hbuf : buf ≠ []) :
    0 < handle.toWrite cache buf := by
  have hmod : handle.pos % cache.blockSize < cache.blockSize := Nat.mod_lt _ hbs
  have hpos : 0 < buf.length := List.length_pos_of_ne_nil hbuf
  rw [toWrite]
  omega

lemma length_take_toWrite (handle : FileHandle) (cache : PageCache) (buf : List UInt8) :
    (buf.take (handle.toWrite cache buf)).length = handle.toWrite cache buf := by
  rw [List.length_take, toWrite]
  omega

lemma toWrite_fits (handle : FileHandle) (buf : List UInt8) (hbs : 0 < cache.blockSize) :
    handle.pos % cache.blockSize + handle.toWrite cache buf ≤ cache.blockSize := by
  have hmod : handle.pos % cache.blockSize < cache.blockSize := Nat.mod_lt _ hbs
  rw [toWrite]
  omega

/-- The block at the cursor, as a write prepares it. -/
def preparedBlock (handle : FileHandle) (cache : PageCache) (buf : List UInt8) : List UInt8 :=
  (blockData cache (handle.pos / cache.blockSize) (handle.pos % cache.blockSize)
    (buf.take (handle.toWrite cache buf))).1

/-- The prepared block is the one of the written file. -/
lemma preparedBlock_eq (handle : FileHandle) (buf data : List UInt8) (hbs : 0 < cache.blockSize)
    (hsome : ∀ block, cache.lookup (handle.pos / cache.blockSize) = some block →
      block = blockAt cache.blockSize data (handle.pos / cache.blockSize))
    (hnone : cache.lookup (handle.pos / cache.blockSize) = none →
      (∀ i < handle.pos % cache.blockSize,
        (data[handle.pos / cache.blockSize * cache.blockSize + i]?).getD 0 = 0) ∧
      (data.length ≤ handle.pos + handle.toWrite cache buf ∨
        handle.pos % cache.blockSize + handle.toWrite cache buf = cache.blockSize)) :
    handle.preparedBlock cache buf = blockAt cache.blockSize
      (writeAt 0 data handle.pos (buf.take (handle.toWrite cache buf)))
      (handle.pos / cache.blockSize) := by
  have hdiv : handle.pos / cache.blockSize * cache.blockSize + handle.pos % cache.blockSize =
      handle.pos := Nat.div_add_mod' _ _
  have hk := length_take_toWrite handle cache buf
  have hblock := blockData_fst data (by rw [hk]; exact toWrite_fits handle buf hbs) hsome
    (by rwa [hdiv, hk])
  rwa [hdiv] at hblock

/-- A write whose block fits into the store does not panic. -/
lemma exists_write (cache : PageCache) (hmode : handle.mode.canWrite) (hbuf : buf ≠ [])
    (hfits : handle.pos / cache.blockSize * handle.store.blockSize +
      (handle.preparedBlock cache buf).length ≤ max handle.store.data.length isizeMax) :
    ∃ result handle' cache', handle.write cache buf = some (result, handle', cache') := by
  obtain ⟨store', cache', hpoll⟩ := MemoryBlockStore.exists_pollWriteBlock
    (blockData cache (handle.pos / cache.blockSize) (handle.pos % cache.blockSize)
      (buf.take (handle.toWrite cache buf))).2 hfits
  rw [FileHandle.write, if_neg (not_not_intro hmode), if_neg hbuf]
  simp only
  rw [preparedBlock] at hpoll
  rw [hpoll]
  exact ⟨_, _, _, rfl⟩

/-- A write prepares a block and puts it into the cache and the store. -/
lemma write_eq_some {result : Except VfsError ℕ} (hmode : handle.mode.canWrite) (hbuf : buf ≠ [])
    (hwrite : handle.write cache buf = some (result, handle', cache')) :
    result = .ok (handle.toWrite cache buf) ∧
      handle' = {
        store := { handle.store with
          data := writeAt 0 handle.store.data
            (handle.pos / cache.blockSize * handle.store.blockSize)
            (handle.preparedBlock cache buf) }
        pos := handle.pos + handle.toWrite cache buf
        mode := handle.mode } ∧
      cache'.fileSize = max handle'.store.data.length handle'.pos ∧
      cache'.blockSize = cache.blockSize ∧ cache'.maxBlocks = cache.maxBlocks ∧
      ∀ m, cache'.lookup m = ((blockData cache (handle.pos / cache.blockSize)
        (handle.pos % cache.blockSize) (buf.take (handle.toWrite cache buf))).2.insert
          (handle.pos / cache.blockSize) (handle.preparedBlock cache buf)).lookup m := by
  rw [FileHandle.write, if_neg (not_not_intro hmode), if_neg hbuf] at hwrite
  simp only at hwrite
  split at hwrite
  · cases hwrite
  · rename_i store cache₁ hpoll
    obtain ⟨rfl, rfl⟩ := MemoryBlockStore.pollWriteBlock_eq_some hpoll
    obtain ⟨rfl, hrest⟩ := Prod.mk.inj (Option.some.inj hwrite)
    obtain ⟨rfl, rfl⟩ := Prod.mk.inj hrest
    refine ⟨rfl, rfl, ?_, ?_, ?_, ?_⟩
    · split_ifs with hlt
      · exact (max_eq_right (Nat.le_of_lt hlt)).symm
      · exact (max_eq_left (Nat.le_of_not_lt hlt)).symm
    · split_ifs <;> simp [blockData_snd_blockSize]
    · split_ifs <;> simp [blockData_snd_maxBlocks]
    · intro m
      split_ifs <;> rfl

/-! ### The relation -/

/-- The cache is consistent with the file in the store. -/
structure Exact (handle : FileHandle) (cache : PageCache) : Prop where
  fileSize : cache.fileSize = handle.store.data.length
  blockSize : handle.store.blockSize = cache.blockSize
  blockSize_pos : 0 < cache.blockSize
  blocks : ∀ n block, cache.lookup n = some block →
    block = blockAt cache.blockSize handle.store.data n

/-- A write merges with the block itself: it is cached, or has nothing but zeros before the new
bytes and nothing behind them. No block that the write fills up with zeros, on the way to its own,
stays in the cache. And the file does not outgrow a buffer. -/
structure MergesExactly (handle : FileHandle) (cache : PageCache) (buf : List UInt8) : Prop where
  merge : cache.lookup (handle.pos / cache.blockSize) = none →
    (∀ i < handle.pos % cache.blockSize,
      (handle.store.data[handle.pos / cache.blockSize * cache.blockSize + i]?).getD 0 = 0) ∧
    (handle.store.data.length ≤ handle.pos + handle.toWrite cache buf ∨
      handle.pos % cache.blockSize + handle.toWrite cache buf = cache.blockSize)
  gap : ∀ m < handle.pos / cache.blockSize, cache.lookup m ≠ none →
    cache.Stays (handle.pos / cache.blockSize) m →
      (m + 1) * cache.blockSize ≤ handle.store.data.length
  capacity : handle.pos + handle.toWrite cache buf ≤ isizeMax

instance : Decidable (handle.MergesExactly cache buf) :=
  decidable_of_iff (_ ∧ _ ∧ _)
    ⟨fun ⟨hmerge, hgap, hcapacity⟩ => ⟨hmerge, hgap, hcapacity⟩,
      fun h => ⟨h.merge, h.gap, h.capacity⟩⟩

/-- The condition on a call. -/
def CallMergesExactly (handle : FileHandle) (cache : PageCache) : FileOp → Prop
  | .write buf => handle.mode.canWrite → buf ≠ [] → handle.MergesExactly cache buf
  | _ => True

instance (op : FileOp) : Decidable (handle.CallMergesExactly cache op) :=
  match op with
  | .read _ => inferInstanceAs (Decidable True)
  | .write buf => inferInstanceAs (Decidable (handle.mode.canWrite → buf ≠ [] → _))
  | .seek _ => inferInstanceAs (Decidable True)

namespace Exact

/-- A read gets bytes at the cursor. -/
lemma read (len : ℕ) (h : Exact handle cache) (hmode : handle.mode.canRead) :
    ∃ k cache', handle.read cache len =
        some (.ok ((handle.store.data.drop handle.pos).take k),
          { handle with pos := handle.pos + k }, cache') ∧
      k ≤ len ∧ handle.pos + k ≤ max handle.pos handle.store.data.length ∧
      (k = 0 → len = 0 ∨ handle.store.data.length ≤ handle.pos) ∧
      Exact { handle with pos := handle.pos + k } cache' := by
  by_cases hpos : handle.pos < cache.fileSize
  · have hblocks : ∀ m block,
        (handle.store.pollReadBlock (handle.pos / cache.blockSize) cache).lookup m = some block →
          block = blockAt cache.blockSize handle.store.data m := by
      intro m block hm
      rcases lookup_pollReadBlock hm with hm | ⟨_, rfl, rfl⟩
      · exact h.blocks m block hm
      · rw [h.blockSize]
    obtain ⟨k, hread, hk, hend, hzero⟩ :=
      read_of_lt handle.store.data len hmode h.blockSize_pos h.fileSize hpos (hblocks _)
    have hbs : ((handle.store.pollReadBlock (handle.pos / cache.blockSize) cache).get
        (handle.pos / cache.blockSize)).2.blockSize = cache.blockSize := by
      rw [PageCache.blockSize_get, blockSize_pollReadBlock]
    refine ⟨k, _, hread, hk, by omega, fun hk => .inl (hzero hk), ?_, ?_, ?_, ?_⟩
    · rw [PageCache.fileSize_get, fileSize_pollReadBlock, h.fileSize]
    · rw [hbs, h.blockSize]
    · rw [hbs]
      exact h.blockSize_pos
    · intro m block hm
      rw [PageCache.lookup_get] at hm
      rw [hbs]
      exact hblocks m block hm
  · refine ⟨0, cache, ?_, Nat.zero_le _, by omega, fun _ => .inr ?_, h⟩
    · exact read_at_end hmode (by omega)
    · rw [← h.fileSize]
      omega

/-- A write puts bytes at the cursor. -/
lemma write (h : Exact handle cache) (hmode : handle.mode.canWrite) (hbuf : buf ≠ [])
    (hmerge : handle.MergesExactly cache buf) :
    ∃ k handle' cache', handle.write cache buf = some (.ok k, handle', cache') ∧
      handle'.mode = handle.mode ∧ 0 < k ∧ k ≤ buf.length ∧
      handle'.toByteFile = {
        bytes := writeAt 0 handle.store.data handle.pos (buf.take k)
        pos := handle.pos + k } ∧
      Exact handle' cache' := by
  have hfit := toWrite_fits handle buf h.blockSize_pos
  have hk := length_take_toWrite handle cache buf
  have hdiv : handle.pos / cache.blockSize * cache.blockSize + handle.pos % cache.blockSize =
      handle.pos := Nat.div_add_mod' _ _
  have hprepared :=
    preparedBlock_eq handle buf handle.store.data h.blockSize_pos (h.blocks _) hmerge.merge
  have hfits : handle.pos / cache.blockSize * handle.store.blockSize +
      (handle.preparedBlock cache buf).length ≤ max handle.store.data.length isizeMax := by
    have hcapacity := hmerge.capacity
    rw [hprepared, length_blockAt, length_writeAt, hk, h.blockSize]
    omega
  obtain ⟨result, handle', cache', hwrite⟩ := exists_write cache hmode hbuf hfits
  obtain ⟨rfl, rfl, hsize, hbs, _, hlookup⟩ := write_eq_some hmode hbuf hwrite
  have hdata : writeAt 0 handle.store.data (handle.pos / cache.blockSize * handle.store.blockSize)
      (handle.preparedBlock cache buf) =
        writeAt 0 handle.store.data handle.pos (buf.take (handle.toWrite cache buf)) := by
    rw [hprepared, h.blockSize, writeAt_blockAt_writeAt hdiv (by omega)]
  refine ⟨_, _, _, hwrite, rfl, toWrite_pos handle h.blockSize_pos hbuf, ?_, ?_, ?_, ?_, ?_, ?_⟩
  · rw [toWrite]
    omega
  · rw [toByteFile, hdata]
  · rw [hsize]
    simp only [hdata, length_writeAt, hk]
    omega
  · rw [hbs, h.blockSize]
  · rw [hbs]
    exact h.blockSize_pos
  · intro m block hm
    rw [hlookup] at hm
    rw [hbs, hdata]
    by_cases hself : m = handle.pos / cache.blockSize
    · subst hself
      rw [PageCache.lookup_insert_self] at hm
      rw [← Option.some.inj hm, hprepared]
    · have hcached : cache.lookup m = some block := by
        rw [← blockData_snd_lookup]
        exact PageCache.lookup_insert_of_ne hself hm
      have hstays : cache.Stays (handle.pos / cache.blockSize) m := by
        intro hevicted
        rw [blockData_snd_of_none hevicted.1.2.1, PageCache.lookup_insert_eq, if_neg hself,
          if_pos hevicted] at hm
        cases hm
      rw [h.blocks m block hcached]
      rcases Nat.lt_or_gt_of_ne hself with hlt | hgt
      · rw [blockAt_writeAt_of_lt hdiv hlt]
        exact hmerge.gap m hlt (by simp [hcached]) hstays
      · rw [blockAt_writeAt_of_gt hdiv hgt (by omega)]

/-- One call. -/
theorem step {op : FileOp} (h : Exact handle cache) (hok : handle.CallMergesExactly cache op) :
    ∃ reply handle' cache', handle.step cache op = some (reply, handle', cache') ∧
      handle'.mode = handle.mode ∧
      ByteFile.Step handle.mode handle.toByteFile op reply handle'.toByteFile ∧
      Exact handle' cache' := by
  cases op with
  | read len =>
    by_cases hmode : handle.mode.canRead
    · obtain ⟨k, cache', hread, hk, hend, hzero, hexact⟩ := h.read len hmode
      refine ⟨.bytes ((handle.store.data.drop handle.pos).take k),
        { handle with pos := handle.pos + k }, cache', ?_, rfl, ?_, hexact⟩
      · rw [FileHandle.step, hread, Option.map_some]
      · exact .read hmode hk hend hzero
    · refine ⟨.denied (notOpenFor "reading"), handle, cache, ?_, rfl, .denyRead hmode, h⟩
      rw [FileHandle.step, FileHandle.read, if_pos hmode, Option.map_some]
  | write buf =>
    by_cases hmode : handle.mode.canWrite
    · by_cases hbuf : buf = []
      · subst hbuf
        refine ⟨.written 0, handle, cache, ?_, rfl, .writeNothing hmode, h⟩
        rw [FileHandle.step, FileHandle.write, if_neg (not_not_intro hmode), if_pos rfl,
          Option.map_some]
      · obtain ⟨k, handle', cache', hwrite, hmode', hpos, hk, hfile, hexact⟩ :=
          h.write hmode hbuf (hok hmode hbuf)
        refine ⟨.written k, handle', cache', ?_, hmode', ?_, hexact⟩
        · rw [FileHandle.step, hwrite, Option.map_some]
        · rw [hfile]
          exact .write hmode hpos hk
    · refine ⟨.denied (notOpenFor "writing"), handle, cache, ?_, rfl, .denyWrite hmode, h⟩
      rw [FileHandle.step, FileHandle.write, if_pos hmode, Option.map_some]
  | seek seekFrom =>
    refine ⟨_, _, _, rfl, rfl, ?_, ?_⟩
    · simp only [FileHandle.seek, toByteFile, h.fileSize]
      exact .seek
    · exact ⟨h.fileSize, h.blockSize, h.blockSize_pos, h.blocks⟩

end Exact

/-! ### Runs -/

/-- Every call of a run meets the condition in its turn. -/
def RunMergesExactly (handle : FileHandle) (cache : PageCache) (ops : List FileOp) : Prop :=
  Meets (fun (handle, cache) op => CallMergesExactly handle cache op)
    (fun (handle, cache) op => (handle.step cache op).map Prod.snd) (handle, cache) ops

instance (ops : List FileOp) : Decidable (RunMergesExactly handle cache ops) :=
  inferInstanceAs (Decidable (Meets _ _ (handle, cache) ops))

lemma Exact.run {ops : List FileOp} (h : Exact handle cache)
    (hok : RunMergesExactly handle cache ops) :
    ∃ replies handle' cache', handle.run cache ops = some (replies, handle', cache') ∧
      ByteFile.Run handle.mode handle.toByteFile ops replies handle'.toByteFile := by
  induction ops generalizing handle cache with
  | nil => exact ⟨[], handle, cache, rfl, .nil⟩
  | cons op ops ih =>
    obtain ⟨hcall, hrest⟩ := hok
    obtain ⟨reply, handle₁, cache₁, hstep, hmode, hfile, hexact⟩ := h.step hcall
    obtain ⟨replies, handle', cache', hrun, hfiles⟩ :=
      ih hexact (hrest (handle₁, cache₁) (by simp [hstep]))
    refine ⟨reply :: replies, handle', cache', ?_, .cons hfile (hmode ▸ hfiles)⟩
    simp [FileHandle.run, hstep, hrun]

/-- Over a store and a consistent cache, calls whose writes merge exactly are the calls on a byte
array with a cursor. -/
theorem refines_byteFile (content : List UInt8) (blockSize : ℕ) (cache : PageCache)
    (ops : List FileOp)
    (hcache : Exact (new { data := content, blockSize } cache .readWrite) cache)
    (hok : RunMergesExactly (new { data := content, blockSize } cache .readWrite) cache ops) :
    ∃ replies handle' cache',
      (new { data := content, blockSize } cache .readWrite).run cache ops =
        some (replies, handle', cache') ∧
      ByteFile.Run .readWrite { bytes := content, pos := 0 } ops replies handle'.toByteFile :=
  hcache.run hok

/-- Reads and a partial write of the block that was read, with room for one block. -/
theorem refines_byteFile_oneBlock :
    ∃ replies handle' cache',
      (new { data := [1, 2, 3], blockSize := 2 } (.withMaxBlocks 2 3 1) .readWrite).run
        (.withMaxBlocks 2 3 1) [.read 1, .write [9, 9], .read 8, .seek (.start 0), .read 8] =
          some (replies, handle', cache') ∧
      ByteFile.Run .readWrite { bytes := [1, 2, 3], pos := 0 }
        [.read 1, .write [9, 9], .read 8, .seek (.start 0), .read 8] replies
        handle'.toByteFile := by
  refine refines_byteFile [1, 2, 3] 2 (.withMaxBlocks 2 3 1) _ ⟨rfl, rfl, by decide, ?_⟩
    (by decide +kernel)
  intro n block h
  cases h

/-- A write of the second of two bytes, with nothing cached, clears the first. -/
theorem not_refines_byteFile_uncached :
    ¬ ∀ (content : List UInt8) (blockSize : ℕ) (cache : PageCache) (ops : List FileOp),
      Exact (new { data := content, blockSize } cache .readWrite) cache →
      ∃ replies handle' cache',
        (new { data := content, blockSize } cache .readWrite).run cache ops =
          some (replies, handle', cache') ∧
        ByteFile.Run .readWrite { bytes := content, pos := 0 } ops replies handle'.toByteFile := by
  intro h
  have hexact : Exact (new { data := [1, 2], blockSize := 4 } (.withMaxBlocks 4 2 1) .readWrite)
      (.withMaxBlocks 4 2 1) := ⟨rfl, rfl, by decide, fun n block h => by cases h⟩
  obtain ⟨replies, handle', cache', hrun, hfile⟩ :=
    h [1, 2] 4 (.withMaxBlocks 4 2 1) [.seek (.start 1), .write [9]] hexact
  have hdata : (((new { data := [1, 2], blockSize := 4 } (.withMaxBlocks 4 2 1) .readWrite).run
      (.withMaxBlocks 4 2 1) [.seek (.start 1), .write [9]]).map fun r => r.2.1.store.data) =
        some [0, 9] := by
    decide +kernel
  rw [hrun] at hdata
  have hbytes : handle'.toByteFile.bytes = [0, 9] := Option.some.inj hdata
  generalize handle'.toByteFile = f at hfile hbytes
  cases hfile with
  | cons hseek hrest =>
    cases hseek
    cases hrest with
    | cons hwrite hnil =>
      cases hnil
      cases hwrite with
      | write _ hpos hk =>
        obtain rfl := Nat.le_antisymm hk hpos
        revert hbytes
        decide +kernel
      | denyWrite hmode => exact hmode rfl

end FileHandle

end AmlaSandbox.Vfs
