import AmlaSandbox.Vfs.AsyncVfs
import AmlaSandbox.Vfs.Refinement

/-!
# A cache that holds a whole file

While a file has no more blocks than the cache can keep, and every block is cached, reads and
writes need nothing of the stores, and the file can be put together from the cache.
-/

namespace AmlaSandbox.Vfs

open Library

/-- The longest file whose blocks can all be cached. -/
def maxCached : ℕ := PageCache.defaultMaxBlocks * defaultBlockSize

/-- Every block of the file is cached, and no other. -/
structure Holds (cache : PageCache) (bytes : List UInt8) : Prop where
  blockSize : cache.blockSize = defaultBlockSize
  maxBlocks : cache.maxBlocks = PageCache.defaultMaxBlocks
  fileSize : cache.fileSize = bytes.length
  fits : bytes.length ≤ maxCached
  lookup : ∀ n, cache.lookup n =
    if n * defaultBlockSize < bytes.length then some (blockAt defaultBlockSize bytes n) else none

variable {cache cache' : PageCache} {bytes content : List UInt8} {n m limit : ℕ}

/-! ### Room in the cache -/

/-- A block that is not cached finds room below a limit on the block numbers. -/
lemma PageCache.lookup_insert_of_lt {data : List UInt8}
    (hall : ∀ m, cache.lookup m ≠ none → m < cache.maxBlocks) (hn : n < cache.maxBlocks) :
    (cache.insert n data).lookup m = if m = n then some data else cache.lookup m := by
  refine PageCache.lookup_insert ?_
  by_cases hcached : cache.lookup n = none
  · right
    have hsub : n :: cache.blocks.keys ⊆ List.range cache.maxBlocks := by
      intro m hm
      rw [List.mem_range]
      rcases List.mem_cons.mp hm with rfl | hm
      · exact hn
      · refine hall m ?_
        have hsome := AList.lookup_isSome.mpr (AList.mem_keys.mpr hm)
        exact Option.ne_none_iff_isSome.mpr hsome
    have hnot : n ∉ cache.blocks.keys := by
      rw [← AList.mem_keys, ← AList.lookup_eq_none]
      exact hcached
    have hnodup : (n :: cache.blocks.keys).Nodup :=
      List.nodup_cons.mpr ⟨hnot, cache.blocks.keys_nodup⟩
    have hlen := (List.subperm_of_subset hnodup hsub).length_le
    rw [List.length_cons, List.length_range] at hlen
    exact hlen
  · exact .inl hcached

namespace PageCache

/-- The blocks below `n` are put into the cache, in order. -/
def insertAll (cache : PageCache) (f : ℕ → List UInt8) (n : ℕ) : PageCache :=
  (List.range n).foldl (fun cache blockNum => cache.insert blockNum (f blockNum)) cache

variable {f : ℕ → List UInt8}

lemma insertAll_succ : cache.insertAll f (n + 1) = (cache.insertAll f n).insert n (f n) := by
  simp [insertAll, List.range_succ]

@[simp] lemma fileSize_insertAll : (cache.insertAll f n).fileSize = cache.fileSize := by
  induction n with
  | zero => rfl
  | succ n ih => rw [insertAll_succ, fileSize_insert, ih]

@[simp] lemma blockSize_insertAll : (cache.insertAll f n).blockSize = cache.blockSize := by
  induction n with
  | zero => rfl
  | succ n ih => rw [insertAll_succ, blockSize_insert, ih]

@[simp] lemma maxBlocks_insertAll : (cache.insertAll f n).maxBlocks = cache.maxBlocks := by
  induction n with
  | zero => rfl
  | succ n ih => rw [insertAll_succ, maxBlocks_insert, ih]

lemma lookup_insertAll (hcount : n ≤ cache.maxBlocks)
    (hall : ∀ m, cache.lookup m ≠ none → m < cache.maxBlocks) :
    (cache.insertAll f n).lookup m = if m < n then some (f m) else cache.lookup m := by
  induction n generalizing m with
  | zero => rfl
  | succ n ih =>
    have hall' : ∀ m, (cache.insertAll f n).lookup m ≠ none →
        m < (cache.insertAll f n).maxBlocks := by
      intro m hm
      rw [maxBlocks_insertAll]
      rw [ih (by omega)] at hm
      split_ifs at hm with hlt
      · omega
      · exact hall m hm
    rw [insertAll_succ, lookup_insert_of_lt hall' (by rw [maxBlocks_insertAll]; omega),
      ih (by omega)]
    split_ifs with h₁ h₂ h₃
    all_goals first | rfl | omega | rw [h₁]

end PageCache

/-! ### Opening -/

lemma lt_numBlocks_iff {size : ℕ} :
    n < AsyncVfs.numBlocks size ↔ n * defaultBlockSize < size := by
  unfold AsyncVfs.numBlocks defaultBlockSize
  omega

lemma numBlocks_le (h : bytes.length ≤ maxCached) :
    AsyncVfs.numBlocks bytes.length ≤ PageCache.defaultMaxBlocks := by
  unfold maxCached PageCache.defaultMaxBlocks defaultBlockSize at *
  unfold AsyncVfs.numBlocks defaultBlockSize
  omega

lemma populate_eq_insertAll :
    AsyncVfs.populate content cache =
      cache.insertAll (blockAt defaultBlockSize content) (AsyncVfs.numBlocks content.length) := by
  simp only [AsyncVfs.populate, PageCache.insertAll, MemoryBlockStore.slice_eq_blockAt]

namespace Holds

lemma lt_of_lookup (h : Holds cache bytes) (hn : cache.lookup n ≠ none) : n < cache.maxBlocks := by
  have hfits := h.fits
  rw [h.lookup] at hn
  split_ifs at hn with hlt
  · rw [h.maxBlocks]
    unfold maxCached at hfits
    unfold defaultBlockSize at *
    omega
  · exact absurd rfl hn

/-- A new cache is filled with the content. -/
lemma populate_new (h : bytes.length ≤ maxCached) :
    Holds (AsyncVfs.populate bytes (.new defaultBlockSize bytes.length)) bytes := by
  have hlookup : ∀ m, (PageCache.new defaultBlockSize bytes.length).lookup m = none := fun m => rfl
  rw [populate_eq_insertAll]
  refine ⟨PageCache.blockSize_insertAll, PageCache.maxBlocks_insertAll,
    PageCache.fileSize_insertAll, h, fun n => ?_⟩
  rw [PageCache.lookup_insertAll (numBlocks_le h) fun m hm => absurd (hlookup m) hm, hlookup]
  simp only [lt_numBlocks_iff]

/-- Content that is in the cache already changes nothing. -/
lemma populate (h : Holds cache bytes)
    (hsame : ∀ n, n * defaultBlockSize < content.length →
      cache.lookup n = some (blockAt defaultBlockSize content n)) :
    Holds (AsyncVfs.populate content cache) bytes := by
  have hcount : AsyncVfs.numBlocks content.length ≤ cache.maxBlocks := by
    by_contra hlt
    have hcached := hsame cache.maxBlocks (lt_numBlocks_iff.mp (by omega))
    exact lt_irrefl _ (h.lt_of_lookup (n := cache.maxBlocks) (by simp [hcached]))
  rw [populate_eq_insertAll]
  refine ⟨?_, ?_, ?_, h.fits, fun n => ?_⟩
  · rw [PageCache.blockSize_insertAll, h.blockSize]
  · rw [PageCache.maxBlocks_insertAll, h.maxBlocks]
  · rw [PageCache.fileSize_insertAll, h.fileSize]
  · rw [PageCache.lookup_insertAll hcount fun m hm => h.lt_of_lookup hm, ← h.lookup]
    split_ifs with hlt
    · exact (hsame n (lt_numBlocks_iff.mp hlt)).symm
    · rfl

/-- Content that is in the cache is no longer than the file. -/
lemma length_le (h : Holds cache bytes)
    (hsame : ∀ n, n * defaultBlockSize < content.length →
      cache.lookup n = some (blockAt defaultBlockSize content n)) :
    content.length ≤ bytes.length := by
  by_cases hcontent : content.length = 0
  · omega
  · have hlast := hsame ((content.length - 1) / defaultBlockSize)
      (lt_of_le_of_lt (Nat.div_mul_le_self _ _) (by omega))
    rw [h.lookup] at hlast
    split_ifs at hlast
    have hlen := congrArg List.length (Option.some.inj hlast)
    rw [length_blockAt, length_blockAt] at hlen
    unfold defaultBlockSize at *
    omega

end Holds

/-! ### Closing -/

lemma collect_succ {k : ℕ} :
    AsyncVfs.collect (List.range (k + 1)) cache =
      match (AsyncVfs.collect (List.range k) cache).2.get k with
      | (some block, cache') => ((AsyncVfs.collect (List.range k) cache).1 ++ block, cache')
      | (none, cache') => ((AsyncVfs.collect (List.range k) cache).1, cache') := by
  unfold AsyncVfs.collect
  rw [List.range_succ, List.foldl_append]
  rfl

/-- Collecting blocks only marks them as used. -/
lemma collect_snd (cache : PageCache) (k : ℕ) :
    (AsyncVfs.collect (List.range k) cache).2.blockSize = cache.blockSize ∧
      (AsyncVfs.collect (List.range k) cache).2.maxBlocks = cache.maxBlocks ∧
      (AsyncVfs.collect (List.range k) cache).2.fileSize = cache.fileSize ∧
      ∀ n, (AsyncVfs.collect (List.range k) cache).2.lookup n = cache.lookup n := by
  induction k with
  | zero => exact ⟨rfl, rfl, rfl, fun n => rfl⟩
  | succ k ih =>
    have hsnd : (AsyncVfs.collect (List.range (k + 1)) cache).2 =
        ((AsyncVfs.collect (List.range k) cache).2.get k).2 := by
      rw [collect_succ]
      split
      · rename_i heq
        rw [heq]
      · rename_i heq
        rw [heq]
    rw [hsnd]
    simpa only [PageCache.blockSize_get, PageCache.maxBlocks_get, PageCache.fileSize_get,
      PageCache.lookup_get] using ih

lemma rebuild_eq :
    AsyncVfs.rebuild cache =
      ((AsyncVfs.collect (List.range (AsyncVfs.numBlocks cache.fileSize)) cache).1.take
        cache.fileSize,
        (AsyncVfs.collect (List.range (AsyncVfs.numBlocks cache.fileSize)) cache).2) := rfl

namespace Holds

lemma collect_fst (h : Holds cache bytes) {k : ℕ} (hk : k ≤ AsyncVfs.numBlocks bytes.length) :
    (AsyncVfs.collect (List.range k) cache).1 = bytes.take (k * defaultBlockSize) := by
  induction k with
  | zero => simp [AsyncVfs.collect]
  | succ k ih =>
    have hlookup : ((AsyncVfs.collect (List.range k) cache).2.get k).1 =
        some (blockAt defaultBlockSize bytes k) := by
      rw [PageCache.get_fst, (collect_snd cache k).2.2.2, h.lookup, if_pos (lt_numBlocks_iff.mp hk)]
    rw [collect_succ]
    split
    · rename_i block cache' heq
      rw [heq] at hlookup
      obtain rfl := Option.some.inj hlookup
      rw [ih (by omega), blockAt, ← List.take_add, Nat.succ_mul]
    · rename_i heq
      rw [heq] at hlookup
      cases hlookup

/-- The file is put together from the cache. -/
lemma rebuild_fst (h : Holds cache bytes) : (AsyncVfs.rebuild cache).1 = bytes := by
  have hlen : bytes.length ≤ AsyncVfs.numBlocks bytes.length * defaultBlockSize := by
    unfold AsyncVfs.numBlocks defaultBlockSize
    omega
  rw [rebuild_eq, h.fileSize, h.collect_fst le_rfl, List.take_of_length_le hlen,
    List.take_length]

lemma rebuild_snd (h : Holds cache bytes) : Holds (AsyncVfs.rebuild cache).2 bytes := by
  obtain ⟨hbs, hmax, hsize, hlookup⟩ :=
    collect_snd cache (AsyncVfs.numBlocks cache.fileSize)
  exact ⟨hbs.trans h.blockSize, hmax.trans h.maxBlocks, hsize.trans h.fileSize, h.fits,
    fun n => (hlookup n).trans (h.lookup n)⟩

end Holds

/-! ### Reading and writing -/

/-- A write leaves no gap of whole blocks, and the file stays cacheable. -/
structure WritesInto (handle : FileHandle) (cache : PageCache) (buf : List UInt8) : Prop where
  noGap : handle.pos / defaultBlockSize * defaultBlockSize ≤ cache.fileSize
  fits : handle.pos + handle.toWrite cache buf ≤ maxCached

/-- Besides, the descriptor's own copy is as long as the file, or the write reaches the file's last
block. -/
structure WritesThrough (handle : FileHandle) (cache : PageCache) (buf : List UInt8) : Prop
    extends WritesInto handle cache buf where
  upToDate : handle.store.data.length = cache.fileSize ∨
    cache.fileSize ≤ (handle.pos / defaultBlockSize + 1) * defaultBlockSize

instance {handle : FileHandle} {buf : List UInt8} : Decidable (WritesInto handle cache buf) :=
  decidable_of_iff (_ ∧ _) ⟨fun ⟨hgap, hfits⟩ => ⟨hgap, hfits⟩, fun h => ⟨h.noGap, h.fits⟩⟩

instance {handle : FileHandle} {buf : List UInt8} : Decidable (WritesThrough handle cache buf) :=
  decidable_of_iff (WritesInto handle cache buf ∧ _)
    ⟨fun ⟨hinto, hdate⟩ => ⟨hinto, hdate⟩, fun h => ⟨h.toWritesInto, h.upToDate⟩⟩

namespace Holds

variable {handle : FileHandle} {buf : List UInt8}

lemma blockSize_pos (h : Holds cache bytes) : 0 < cache.blockSize := by
  rw [h.blockSize]
  decide

/-- A read needs the cache only. -/
lemma read (len : ℕ) (h : Holds cache bytes) (hmode : handle.mode.canRead) :
    ∃ k cache', handle.read cache len =
        some (.ok ((bytes.drop handle.pos).take k), { handle with pos := handle.pos + k }, cache') ∧
      k ≤ len ∧ handle.pos + k ≤ max handle.pos bytes.length ∧
      (k = 0 → len = 0 ∨ bytes.length ≤ handle.pos) ∧ Holds cache' bytes := by
  by_cases hpos : handle.pos < cache.fileSize
  · have hlookup : cache.lookup (handle.pos / cache.blockSize) =
        some (blockAt cache.blockSize bytes (handle.pos / cache.blockSize)) := by
      have hle : handle.pos / cache.blockSize * cache.blockSize ≤ handle.pos :=
        Nat.div_mul_le_self _ _
      rw [h.lookup, h.blockSize, if_pos]
      rw [h.blockSize] at hle
      rw [h.fileSize] at hpos
      omega
    obtain ⟨k, hread, hk, hend, hzero⟩ := FileHandle.read_of_lt bytes len hmode
      h.blockSize_pos h.fileSize hpos (by
        intro block hblock
        rw [MemoryBlockStore.pollReadBlock_of_some hlookup, PageCache.lookup_touch,
          hlookup] at hblock
        exact (Option.some.inj hblock).symm)
    rw [MemoryBlockStore.pollReadBlock_of_some hlookup] at hread
    refine ⟨k, _, hread, hk, by omega, fun hk => .inl (hzero hk), ?_⟩
    refine ⟨?_, ?_, ?_, h.fits, fun n => ?_⟩
    · rw [PageCache.blockSize_get, PageCache.blockSize_touch, h.blockSize]
    · rw [PageCache.maxBlocks_get, PageCache.maxBlocks_touch, h.maxBlocks]
    · rw [PageCache.fileSize_get, PageCache.fileSize_touch, h.fileSize]
    · rw [PageCache.lookup_get, PageCache.lookup_touch, h.lookup]
  · refine ⟨0, cache, ?_, Nat.zero_le _, by omega, fun _ => .inr ?_, h⟩
    · exact FileHandle.read_at_end hmode (by omega)
    · rw [← h.fileSize]
      omega

/-- The prepared block is the one of the written file: what is not cached is not there. -/
lemma preparedBlock_eq (h : Holds cache bytes) (handle : FileHandle) (buf : List UInt8) :
    handle.preparedBlock cache buf = blockAt defaultBlockSize
      (writeAt 0 bytes handle.pos (buf.take (handle.toWrite cache buf)))
      (handle.pos / defaultBlockSize) := by
  have hprepared := FileHandle.preparedBlock_eq handle buf bytes h.blockSize_pos ?_ ?_
  · rwa [h.blockSize] at hprepared
  · intro block hblock
    rw [h.lookup] at hblock
    split_ifs at hblock
    rw [h.blockSize] at hblock ⊢
    exact (Option.some.inj hblock).symm
  · intro hnone
    rw [h.lookup] at hnone
    split_ifs at hnone with hlt
    have hle : handle.pos / cache.blockSize * cache.blockSize ≤ handle.pos :=
      Nat.div_mul_le_self _ _
    rw [h.blockSize] at hlt hle ⊢
    refine ⟨fun i _ => ?_, .inl (by omega)⟩
    rw [List.getElem?_eq_none (by omega), Option.getD_none]

lemma maxCached_le : maxCached ≤ isizeMax := by decide

/-- The cache after a write has the blocks of the written file. -/
lemma lookup_write (h : Holds cache bytes) (handle : FileHandle) (hbuf : buf ≠ [])
    (hgap : handle.pos / defaultBlockSize * defaultBlockSize ≤ bytes.length)
    (hfits : handle.pos + handle.toWrite cache buf ≤ maxCached) (m : ℕ) :
    ((FileHandle.blockData cache (handle.pos / cache.blockSize) (handle.pos % cache.blockSize)
        (buf.take (handle.toWrite cache buf))).2.insert (handle.pos / cache.blockSize)
          (handle.preparedBlock cache buf)).lookup m =
      if m * defaultBlockSize < max bytes.length (handle.pos + handle.toWrite cache buf) then
        some (blockAt defaultBlockSize
          (writeAt 0 bytes handle.pos (buf.take (handle.toWrite cache buf))) m)
      else none := by
  have hpos := FileHandle.toWrite_pos handle h.blockSize_pos hbuf
  have hfit := FileHandle.toWrite_fits handle buf h.blockSize_pos
  have hk := FileHandle.length_take_toWrite handle cache buf
  have hdiv : handle.pos / defaultBlockSize * defaultBlockSize + handle.pos % defaultBlockSize =
      handle.pos := Nat.div_add_mod' _ _
  have hroom : handle.pos / defaultBlockSize < cache.maxBlocks := by
    rw [h.maxBlocks]
    unfold maxCached at hfits
    unfold defaultBlockSize at *
    omega
  have hprepared := h.preparedBlock_eq handle buf
  rw [h.blockSize] at hfit ⊢
  rw [PageCache.lookup_insert_of_lt, FileHandle.blockData_snd_lookup, h.lookup, hprepared]
  · rcases Nat.lt_trichotomy m (handle.pos / defaultBlockSize) with hlt | rfl | hgt
    · have hle : (m + 1) * defaultBlockSize ≤ handle.pos / defaultBlockSize * defaultBlockSize :=
        Nat.mul_le_mul_right _ hlt
      have hsucc : (m + 1) * defaultBlockSize = m * defaultBlockSize + defaultBlockSize :=
        Nat.succ_mul _ _
      have hbs : 0 < defaultBlockSize := by decide
      rw [if_neg (by omega), if_pos (by omega), if_pos (by omega),
        blockAt_writeAt_of_lt hdiv hlt (by omega)]
    · rw [if_pos rfl, if_pos (by omega)]
    · have hle : (handle.pos / defaultBlockSize + 1) * defaultBlockSize ≤ m * defaultBlockSize :=
        Nat.mul_le_mul_right _ hgt
      have hsucc : (handle.pos / defaultBlockSize + 1) * defaultBlockSize =
        handle.pos / defaultBlockSize * defaultBlockSize + defaultBlockSize := Nat.succ_mul _ _
      rw [if_neg (by omega), blockAt_writeAt_of_gt hdiv hgt (by omega)]
      by_cases hin : m * defaultBlockSize < bytes.length
      · rw [if_pos hin, if_pos (by omega)]
      · rw [if_neg hin, if_neg (by omega)]
  · intro m hm
    rw [FileHandle.blockData_snd_lookup] at hm
    rw [FileHandle.blockData_snd_maxBlocks]
    exact h.lt_of_lookup hm
  · rw [FileHandle.blockData_snd_maxBlocks]
    exact hroom

/-- A write leaves the written file in the cache. -/
lemma write (h : Holds cache bytes) (hmode : handle.mode.canWrite) (hbuf : buf ≠ [])
    (hstore : handle.store.blockSize = defaultBlockSize)
    (hown : handle.store.data.length ≤ bytes.length) (hok : WritesThrough handle cache buf) :
    ∃ k handle' cache', handle.write cache buf = some (.ok k, handle', cache') ∧ 0 < k ∧
      k ≤ buf.length ∧ handle'.mode = handle.mode ∧ handle'.pos = handle.pos + k ∧
      handle'.store.blockSize = defaultBlockSize ∧
      handle'.store.data.length ≤ (writeAt 0 bytes handle.pos (buf.take k)).length ∧
      (handle.store.data.length = bytes.length →
        handle'.store.data.length = (writeAt 0 bytes handle.pos (buf.take k)).length) ∧
      Holds cache' (writeAt 0 bytes handle.pos (buf.take k)) := by
  obtain ⟨⟨hgap, hfits⟩, hdate⟩ := hok
  have hpos := FileHandle.toWrite_pos handle h.blockSize_pos hbuf
  have hfit := FileHandle.toWrite_fits handle buf h.blockSize_pos
  have hk := FileHandle.length_take_toWrite handle cache buf
  have hprepared := h.preparedBlock_eq handle buf
  have hdiv : handle.pos / defaultBlockSize * defaultBlockSize + handle.pos % defaultBlockSize =
      handle.pos := Nat.div_add_mod' _ _
  have hsucc : (handle.pos / defaultBlockSize + 1) * defaultBlockSize =
      handle.pos / defaultBlockSize * defaultBlockSize + defaultBlockSize := Nat.succ_mul _ _
  have hlen : (writeAt 0 bytes handle.pos (buf.take (handle.toWrite cache buf))).length =
      max bytes.length (handle.pos + handle.toWrite cache buf) := by
    rw [length_writeAt, hk]
  have hmax := maxCached_le
  have hbytes := h.fits
  rw [h.fileSize] at hgap hdate
  rw [h.blockSize] at hfit
  have hblock : handle.pos / defaultBlockSize * defaultBlockSize +
      (handle.preparedBlock cache buf).length = min (max bytes.length
        (handle.pos + handle.toWrite cache buf))
        ((handle.pos / defaultBlockSize + 1) * defaultBlockSize) := by
    rw [hprepared, length_blockAt, hlen]
    omega
  have hnoPanic : handle.pos / cache.blockSize * handle.store.blockSize +
      (handle.preparedBlock cache buf).length ≤ max handle.store.data.length isizeMax := by
    rw [h.blockSize, hstore, hblock]
    omega
  obtain ⟨result, handle', cache', hwrite⟩ := FileHandle.exists_write cache hmode hbuf hnoPanic
  obtain ⟨rfl, rfl, hsize, hbs, hmaxBlocks, hlookup⟩ := FileHandle.write_eq_some hmode hbuf hwrite
  have hown' : (writeAt 0 handle.store.data
      (handle.pos / cache.blockSize * handle.store.blockSize)
      (handle.preparedBlock cache buf)).length = max handle.store.data.length
        (min (max bytes.length (handle.pos + handle.toWrite cache buf))
          ((handle.pos / defaultBlockSize + 1) * defaultBlockSize)) := by
    rw [length_writeAt, h.blockSize, hstore, hblock]
  refine ⟨_, _, _, hwrite, hpos, ?_, rfl, rfl, hstore, ?_, fun heq => ?_, ?_⟩
  · rw [FileHandle.toWrite]
    omega
  · simp only [hown', hlen]
    omega
  · simp only [hown', hlen]
    omega
  · refine ⟨hbs.trans h.blockSize, hmaxBlocks.trans h.maxBlocks, ?_, ?_, fun m => ?_⟩
    · rw [hsize]
      simp only [hown', hlen]
      omega
    · rw [hlen]
      omega
    · rw [hlookup, hlen]
      exact h.lookup_write handle hbuf hgap hfits m

end Holds

/-! ### Calls -/

/-- The condition on a call. -/
def CallWritesThrough (handle : FileHandle) (cache : PageCache) : FileOp → Prop
  | .write buf => handle.mode.canWrite → buf ≠ [] → WritesThrough handle cache buf
  | _ => True

instance {handle : FileHandle} (op : FileOp) : Decidable (CallWritesThrough handle cache op) :=
  match op with
  | .read _ => inferInstanceAs (Decidable True)
  | .write buf =>
    inferInstanceAs (Decidable (handle.mode.canWrite → buf ≠ [] → WritesThrough handle cache buf))
  | .seek _ => inferInstanceAs (Decidable True)

/-- What a call leaves: a file that is not shorter, and a handle whose copy is no longer than it. -/
structure CallLeaves (handle handle' : FileHandle) (bytes bytes' : List UInt8) : Prop where
  mode : handle'.mode = handle.mode
  blockSize : handle'.store.blockSize = defaultBlockSize
  own : handle'.store.data.length ≤ bytes'.length
  upToDate : handle.store.data.length = bytes.length → handle'.store.data.length = bytes'.length
  grows : bytes.length ≤ bytes'.length
  unchanged : bytes' = bytes ∨ handle.mode.canWrite

/-- A call is one on the file that the cache holds. -/
theorem Holds.step {handle : FileHandle} {op : FileOp} (h : Holds cache bytes)
    (hstore : handle.store.blockSize = defaultBlockSize)
    (hown : handle.store.data.length ≤ bytes.length) (hok : CallWritesThrough handle cache op) :
    ∃ reply handle' cache' bytes', handle.step cache op = some (reply, handle', cache') ∧
      ByteFile.Step handle.mode { bytes, pos := handle.pos } op reply
        { bytes := bytes', pos := handle'.pos } ∧
      CallLeaves handle handle' bytes bytes' ∧ Holds cache' bytes' := by
  have hsame : ∀ pos, CallLeaves handle { handle with pos } bytes bytes :=
    fun pos => ⟨rfl, hstore, hown, id, le_rfl, .inl rfl⟩
  cases op with
  | read len =>
    by_cases hmode : handle.mode.canRead
    · obtain ⟨k, cache', hread, hk, hend, hzero, hholds⟩ := h.read len hmode
      refine ⟨.bytes ((bytes.drop handle.pos).take k), { handle with pos := handle.pos + k },
        cache', bytes, ?_, .read hmode hk hend hzero, hsame _, hholds⟩
      rw [FileHandle.step, hread, Option.map_some]
    · refine ⟨.denied (FileHandle.notOpenFor "reading"), handle, cache, bytes, ?_, .denyRead hmode,
        hsame _, h⟩
      rw [FileHandle.step, FileHandle.read, if_pos hmode, Option.map_some]
  | write buf =>
    by_cases hmode : handle.mode.canWrite
    · by_cases hbuf : buf = []
      · subst hbuf
        refine ⟨.written 0, handle, cache, bytes, ?_, .writeNothing hmode, hsame _, h⟩
        rw [FileHandle.step, FileHandle.write, if_neg (not_not_intro hmode), if_pos rfl,
          Option.map_some]
      · obtain ⟨k, handle', cache', hwrite, hpos, hk, hmode', hpos', hbs, hown', hdate, hholds⟩ :=
          h.write hmode hbuf hstore hown (hok hmode hbuf)
        refine ⟨.written k, handle', cache', _, ?_, hpos' ▸ .write hmode hpos hk,
          ⟨hmode', hbs, hown', hdate, ?_, .inr hmode⟩, hholds⟩
        · rw [FileHandle.step, hwrite, Option.map_some]
        · rw [length_writeAt]
          omega
    · refine ⟨.denied (FileHandle.notOpenFor "writing"), handle, cache, bytes, ?_, .denyWrite hmode,
        hsame _, h⟩
      rw [FileHandle.step, FileHandle.write, if_pos hmode, Option.map_some]
  | seek seekFrom =>
    refine ⟨_, _, _, bytes, rfl, ?_, hsame _, h⟩
    simp only [FileHandle.seek, h.fileSize]
    exact .seek

end AmlaSandbox.Vfs
