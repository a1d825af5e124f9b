import Mathlib.Data.List.Infix
import AmlaSandbox.Vfs.FullCache

/-!
# A cache that covers the start of a file

The blocks of some bytes are cached, each perhaps with more behind it. Then a file that is put
together from the cache begins with these bytes, and writes behind them keep it so.
-/

namespace AmlaSandbox.Vfs

open Library

structure Covers (cache : PageCache) (bytes : List UInt8) : Prop where
  blockSize : cache.blockSize = defaultBlockSize
  maxBlocks : cache.maxBlocks = PageCache.defaultMaxBlocks
  size : bytes.length ≤ cache.fileSize
  fits : cache.fileSize ≤ maxCached
  room : ∀ n block, cache.lookup n = some block →
    n < cache.maxBlocks ∧ block.length ≤ defaultBlockSize
  blocks : ∀ n, n * defaultBlockSize < bytes.length →
    ∃ block, cache.lookup n = some block ∧ blockAt defaultBlockSize bytes n <+: block

/-- Every block of the file is cached, and reaches to the next one or to the end. -/
def PageCache.Whole (cache : PageCache) : Prop :=
  ∀ n < AsyncVfs.numBlocks cache.fileSize, ∃ block ∈ cache.lookup n,
    min defaultBlockSize (cache.fileSize - n * defaultBlockSize) ≤ block.length

instance {cache : PageCache} : Decidable cache.Whole :=
  inferInstanceAs (Decidable (∀ n < AsyncVfs.numBlocks cache.fileSize, ∃ block ∈ cache.lookup n,
    min defaultBlockSize (cache.fileSize - n * defaultBlockSize) ≤ block.length))

namespace Covers

variable {cache cache' : PageCache} {bytes old : List UInt8} {n k : ℕ}

/-! ### Opening -/

lemma new {size : ℕ} (h : size ≤ maxCached) : Covers (.new defaultBlockSize size) [] := by
  refine ⟨rfl, rfl, Nat.zero_le _, h, fun n block hn => ?_, fun n hn => ?_⟩
  · cases hn
  · exact absurd hn (Nat.not_lt_zero _)

lemma lt_of_lookup (h : Covers cache bytes) (hn : cache.lookup n ≠ none) : n < cache.maxBlocks := by
  obtain ⟨block, hblock⟩ := Option.ne_none_iff_exists'.mp hn
  exact (h.room n block hblock).1

/-- Whatever was cached, the blocks that are put in are covered. -/
lemma populate (h : Covers cache old) (hsize : bytes.length ≤ cache.fileSize) :
    Covers (AsyncVfs.populate bytes cache) bytes := by
  have hcount : AsyncVfs.numBlocks bytes.length ≤ cache.maxBlocks := by
    rw [h.maxBlocks]
    exact numBlocks_le (hsize.trans h.fits)
  have hlookup := fun m => PageCache.lookup_insertAll (f := blockAt defaultBlockSize bytes)
    (m := m) hcount fun m hm => h.lt_of_lookup hm
  rw [populate_eq_insertAll]
  refine ⟨?_, ?_, ?_, ?_, fun n block hn => ?_, fun n hn => ?_⟩
  · rw [PageCache.blockSize_insertAll, h.blockSize]
  · rw [PageCache.maxBlocks_insertAll, h.maxBlocks]
  · rwa [PageCache.fileSize_insertAll]
  · rw [PageCache.fileSize_insertAll]
    exact h.fits
  · rw [hlookup] at hn
    rw [PageCache.maxBlocks_insertAll]
    split_ifs at hn with hlt
    · obtain rfl := Option.some.inj hn
      rw [length_blockAt]
      exact ⟨by omega, by omega⟩
    · exact h.room n block hn
  · rw [hlookup, if_pos (lt_numBlocks_iff.mpr hn)]
    exact ⟨_, rfl, List.prefix_refl _⟩

/-! ### Closing -/

/-- The same blocks. -/
lemma congr (h : Covers cache bytes) (hbs : cache'.blockSize = cache.blockSize)
    (hmax : cache'.maxBlocks = cache.maxBlocks) (hsize : cache'.fileSize = cache.fileSize)
    (hlookup : ∀ n, cache'.lookup n = cache.lookup n) : Covers cache' bytes := by
  refine ⟨hbs.trans h.blockSize, hmax.trans h.maxBlocks, hsize ▸ h.size, hsize ▸ h.fits, ?_, ?_⟩
  · intro n block hn
    rw [hmax]
    exact h.room n block (hlookup n ▸ hn)
  · intro n hn
    rw [hlookup]
    exact h.blocks n hn

lemma rebuild_snd (h : Covers cache bytes) : Covers (AsyncVfs.rebuild cache).2 bytes := by
  obtain ⟨hbs, hmax, hsize, hlookup⟩ := collect_snd cache (AsyncVfs.numBlocks cache.fileSize)
  exact h.congr hbs hmax hsize hlookup

lemma collect_fst_succ :
    (AsyncVfs.collect (List.range (k + 1)) cache).1 =
      (AsyncVfs.collect (List.range k) cache).1 ++ (cache.lookup k).getD [] := by
  rw [collect_succ]
  have hget : ((AsyncVfs.collect (List.range k) cache).2.get k).1 =
      (AsyncVfs.collect (List.range k) cache).2.lookup k := PageCache.get_fst
  rw [(collect_snd cache k).2.2.2] at hget
  split
  · rename_i heq
    rw [heq] at hget
    rw [← hget, Option.getD_some]
  · rename_i heq
    rw [heq] at hget
    rw [← hget, Option.getD_none, List.append_nil]

lemma collect_mono {m : ℕ} (h : k ≤ m) :
    (AsyncVfs.collect (List.range k) cache).1 <+: (AsyncVfs.collect (List.range m) cache).1 := by
  induction m with
  | zero =>
    obtain rfl := Nat.le_zero.mp h
    exact List.prefix_refl _
  | succ m ih =>
    rcases Nat.lt_or_ge m k with hlt | hge
    · obtain rfl : k = m + 1 := by omega
      exact List.prefix_refl _
    · rw [collect_fst_succ]
      exact (ih hge).trans (List.prefix_append _ _)

/-- Full blocks are put one after another. -/
lemma length_collect (h : ∀ n < k, ∃ block, cache.lookup n = some block ∧
      block.length = defaultBlockSize) :
    (AsyncVfs.collect (List.range k) cache).1.length = k * defaultBlockSize := by
  induction k with
  | zero => simp [AsyncVfs.collect]
  | succ k ih =>
    obtain ⟨block, hblock, hfull⟩ := h k (by omega)
    rw [collect_fst_succ, hblock, Option.getD_some, List.length_append,
      ih fun n hn => h n (by omega), hfull, Nat.succ_mul]

lemma collect_take (h : Covers cache bytes) (hk : k * defaultBlockSize ≤ bytes.length) :
    (AsyncVfs.collect (List.range k) cache).1 = bytes.take (k * defaultBlockSize) := by
  induction k with
  | zero => simp [AsyncVfs.collect]
  | succ k ih =>
    rw [Nat.succ_mul] at hk
    have hbs : 0 < defaultBlockSize := by decide
    obtain ⟨block, hblock, hprefix⟩ := h.blocks k (by omega)
    have heq : blockAt defaultBlockSize bytes k = block := by
      refine hprefix.eq_of_length_le ?_
      rw [length_blockAt]
      have hroom := (h.room k block hblock).2
      omega
    rw [collect_fst_succ, hblock, Option.getD_some, ih (by omega), ← heq, blockAt, ← List.take_add,
      Nat.succ_mul]

/-- The file put together from the cache begins with the bytes. -/
lemma prefix_rebuild (h : Covers cache bytes) : bytes <+: (AsyncVfs.rebuild cache).1 := by
  have hbs : 0 < defaultBlockSize := by decide
  have hdiv : bytes.length / defaultBlockSize * defaultBlockSize ≤ bytes.length :=
    Nat.div_mul_le_self _ _
  have hcollect : bytes <+:
      (AsyncVfs.collect (List.range (AsyncVfs.numBlocks cache.fileSize)) cache).1 := by
    by_cases hfull : bytes.length / defaultBlockSize * defaultBlockSize = bytes.length
    · have htake := h.collect_take hdiv
      rw [List.take_of_length_le (by omega)] at htake
      rw [← htake]
      refine collect_mono ?_
      have hsize := h.size
      unfold AsyncVfs.numBlocks defaultBlockSize at *
      omega
    · obtain ⟨block, hblock, hprefix⟩ := h.blocks (bytes.length / defaultBlockSize) (by omega)
      refine List.IsPrefix.trans ?_
        (collect_mono (k := bytes.length / defaultBlockSize + 1) ?_)
      · rw [collect_fst_succ, h.collect_take hdiv, hblock, Option.getD_some]
        have hlast : blockAt defaultBlockSize bytes (bytes.length / defaultBlockSize) =
            bytes.drop (bytes.length / defaultBlockSize * defaultBlockSize) := by
          rw [blockAt, List.take_of_length_le]
          rw [List.length_drop]
          unfold defaultBlockSize
          omega
        rw [hlast] at hprefix
        obtain ⟨rest, hrest⟩ := hprefix
        rw [← hrest, ← List.append_assoc, List.take_append_drop]
        exact List.prefix_append _ _
      · have hlt := lt_numBlocks_iff.mpr
          (lt_of_lt_of_le (lt_of_le_of_ne hdiv hfull) h.size)
        exact hlt
  rw [rebuild_eq]
  exact List.prefix_take_iff.mpr ⟨hcollect, h.size⟩

/-- A whole cache covers the file that is put together from it. -/
lemma rebuild_whole (h : Covers cache bytes) (hwhole : cache.Whole) :
    Covers (AsyncVfs.rebuild cache).2 (AsyncVfs.rebuild cache).1 := by
  have hbs : 0 < defaultBlockSize := by decide
  obtain ⟨hbs', hmax, hsize, hlookup⟩ :=
    collect_snd cache (AsyncVfs.numBlocks cache.fileSize)
  have hempty : Covers cache (AsyncVfs.rebuild cache).1 := by
    refine ⟨h.blockSize, h.maxBlocks, ?_, h.fits, h.room, fun n hn => ?_⟩
    · rw [rebuild_eq, List.length_take]
      exact Nat.min_le_left _ _
    · have hlt : n * defaultBlockSize < cache.fileSize := by
        rw [rebuild_eq, List.length_take] at hn
        omega
      obtain ⟨block, hblock, hlen⟩ := hwhole n (lt_numBlocks_iff.mpr hlt)
      rw [Option.mem_def] at hblock
      refine ⟨block, hblock, ?_⟩
      have hfull : ∀ m < n, ∃ b, cache.lookup m = some b ∧ b.length = defaultBlockSize := by
        intro m hm
        have hle : (m + 1) * defaultBlockSize ≤ n * defaultBlockSize :=
          Nat.mul_le_mul_right _ hm
        rw [Nat.succ_mul] at hle
        obtain ⟨b, hb, hblen⟩ := hwhole m (lt_numBlocks_iff.mpr (by omega))
        rw [Option.mem_def] at hb
        have hroom := (h.room m b hb).2
        exact ⟨b, hb, by omega⟩
      have hcollect := length_collect hfull
      have hprefix : (AsyncVfs.collect (List.range (n + 1)) cache).1 <+:
          (AsyncVfs.collect (List.range (AsyncVfs.numBlocks cache.fileSize)) cache).1 :=
        collect_mono (lt_numBlocks_iff.mpr hlt)
      obtain ⟨rest, hrest⟩ := hprefix
      rw [collect_fst_succ, hblock, Option.getD_some] at hrest
      rw [rebuild_eq, ← hrest, blockAt, List.drop_take, List.take_take, List.append_assoc,
        ← hcollect, List.drop_left]
      rw [hcollect, List.take_append_of_le_length hlen]
      exact List.take_prefix _ _
  exact hempty.congr hbs' hmax hsize hlookup

/-! ### Calls -/

variable {handle handle' : FileHandle} {buf : List UInt8} {len : ℕ}

/-- A read may put in a block that the bytes do not reach. -/
lemma read {result : Except VfsError (List UInt8)} (h : Covers cache bytes)
    (hstore : handle.store.blockSize = defaultBlockSize)
    (hread : handle.read cache len = some (result, handle', cache')) : Covers cache' bytes := by
  obtain ⟨_, rfl | ⟨hpos, rfl⟩⟩ := FileHandle.read_eq_some hread
  · exact h
  · cases hcached : cache.lookup (handle.pos / cache.blockSize) with
    | some block =>
      rw [MemoryBlockStore.pollReadBlock_of_some hcached]
      exact h.congr PageCache.blockSize_get PageCache.maxBlocks_get PageCache.fileSize_get
        fun n => PageCache.lookup_get
    | none =>
      rw [MemoryBlockStore.pollReadBlock_of_none hcached]
      have hlt : handle.pos / cache.blockSize < cache.maxBlocks := by
        have hfits := h.fits
        rw [h.blockSize, h.maxBlocks]
        unfold maxCached at hfits
        unfold defaultBlockSize at *
        omega
      have hlookup : ∀ m, (cache.insert (handle.pos / cache.blockSize)
          (blockAt handle.store.blockSize handle.store.data
            (handle.pos / cache.blockSize))).lookup m = _ :=
        fun m => PageCache.lookup_insert_of_lt (fun m hm => h.lt_of_lookup hm) hlt
      refine ⟨?_, ?_, ?_, ?_, fun n block hn => ?_, fun n hn => ?_⟩
      · rw [PageCache.blockSize_get, PageCache.blockSize_insert, h.blockSize]
      · rw [PageCache.maxBlocks_get, PageCache.maxBlocks_insert, h.maxBlocks]
      · rw [PageCache.fileSize_get, PageCache.fileSize_insert]
        exact h.size
      · rw [PageCache.fileSize_get, PageCache.fileSize_insert]
        exact h.fits
      · rw [PageCache.lookup_get, hlookup] at hn
        rw [PageCache.maxBlocks_get, PageCache.maxBlocks_insert]
        split_ifs at hn with heq
        · obtain rfl := Option.some.inj hn
          rw [heq, length_blockAt, hstore]
          exact ⟨hlt, by omega⟩
        · exact h.room n block hn
      · rw [PageCache.lookup_get, hlookup]
        obtain ⟨block, hblock, hprefix⟩ := h.blocks n hn
        rw [if_neg]
        · exact ⟨block, hblock, hprefix⟩
        · rintro rfl
          rw [hcached] at hblock
          cases hblock

/-- The block that a write behind the bytes prepares still begins with theirs. -/
lemma preparedBlock (h : Covers cache bytes) (handle : FileHandle) (buf : List UInt8)
    (hpos : bytes.length ≤ handle.pos) :
    (handle.preparedBlock cache buf).length ≤ defaultBlockSize ∧
      (handle.pos / defaultBlockSize * defaultBlockSize < bytes.length →
        blockAt defaultBlockSize bytes (handle.pos / defaultBlockSize) <+:
          handle.preparedBlock cache buf) := by
  have hbs : 0 < cache.blockSize := by
    rw [h.blockSize]
    decide
  have hfit := FileHandle.toWrite_fits handle buf hbs
  have hk := FileHandle.length_take_toWrite handle cache buf
  have hdiv : handle.pos / defaultBlockSize * defaultBlockSize + handle.pos % defaultBlockSize =
      handle.pos := Nat.div_add_mod' _ _
  rw [h.blockSize] at hfit
  rw [FileHandle.preparedBlock, FileHandle.blockData, h.blockSize]
  split_ifs with hfull
  · exact ⟨hfull.2.le, by omega⟩
  · cases hcached : cache.lookup (handle.pos / defaultBlockSize) with
    | some existing =>
      have hroom := (h.room _ existing hcached).2
      simp only [PageCache.get_of_some hcached, resizeAndCopy_eq_writeAt]
      refine ⟨by rw [length_writeAt, hk]; omega, fun hlt => ?_⟩
      obtain ⟨block, hblock, hprefix⟩ := h.blocks _ hlt
      obtain rfl := Option.some.inj (hcached.symm.trans hblock)
      have hshort : (blockAt defaultBlockSize bytes (handle.pos / defaultBlockSize)).length ≤
          handle.pos % defaultBlockSize := by
        rw [length_blockAt]
        omega
      rw [List.prefix_iff_eq_take, take_writeAt hshort hprefix.length_le]
      exact List.prefix_iff_eq_take.mp hprefix
    | none =>
      simp only [PageCache.get_of_none hcached, resizeAndCopy_eq_writeAt]
      refine ⟨by rw [length_writeAt, List.length_replicate, hk]; omega, fun hlt => ?_⟩
      obtain ⟨block, hblock, _⟩ := h.blocks _ hlt
      rw [hcached] at hblock
      cases hblock

/-- A write behind the bytes. -/
lemma write {result : Except VfsError ℕ} (h : Covers cache bytes)
    (hmode : handle.mode.canWrite) (hbuf : buf ≠ [])
    (hstore : handle.store.blockSize = defaultBlockSize)
    (hown : handle.store.data.length ≤ maxCached) (hpos : bytes.length ≤ handle.pos)
    (hfits : handle.pos + handle.toWrite cache buf ≤ maxCached)
    (hwrite : handle.write cache buf = some (result, handle', cache')) :
    Covers cache' bytes ∧ handle'.store.blockSize = defaultBlockSize ∧
      handle'.store.data.length ≤ maxCached := by
  have hbs : 0 < cache.blockSize := by
    rw [h.blockSize]
    decide
  have hk := FileHandle.toWrite_pos handle hbs hbuf
  obtain ⟨hlen, hprefix⟩ := h.preparedBlock handle buf hpos
  have hlt : handle.pos / defaultBlockSize < cache.maxBlocks := by
    rw [h.maxBlocks]
    unfold maxCached at hfits
    unfold defaultBlockSize at *
    omega
  obtain ⟨_, rfl, hsize, hbs', hmax, hlookup⟩ := FileHandle.write_eq_some hmode hbuf hwrite
  rw [h.blockSize] at hlookup hsize ⊢
  have hown' : (writeAt 0 handle.store.data
      (handle.pos / defaultBlockSize * handle.store.blockSize)
      (handle.preparedBlock cache buf)).length ≤ maxCached := by
    rw [length_writeAt, hstore]
    rw [h.maxBlocks] at hlt
    unfold maxCached at *
    unfold defaultBlockSize PageCache.defaultMaxBlocks at *
    omega
  refine ⟨⟨hbs'.trans h.blockSize, hmax.trans h.maxBlocks, ?_, ?_, fun n block hn => ?_,
    fun n hn => ?_⟩, hstore, hown'⟩
  · rw [hsize]
    simp only
    omega
  · rw [hsize]
    exact max_le hown' hfits
  · rw [hlookup, PageCache.lookup_insert_of_lt] at hn
    · rw [hmax]
      split_ifs at hn with heq
      · obtain rfl := Option.some.inj hn
        exact ⟨heq ▸ hlt, hlen⟩
      · rw [FileHandle.blockData_snd_lookup] at hn
        exact h.room n block hn
    · intro m hm
      rw [FileHandle.blockData_snd_lookup] at hm
      rw [FileHandle.blockData_snd_maxBlocks]
      exact h.lt_of_lookup hm
    · rwa [FileHandle.blockData_snd_maxBlocks]
  · rw [hlookup, PageCache.lookup_insert_of_lt]
    · split_ifs with heq
      · subst heq
        exact ⟨_, rfl, hprefix hn⟩
      · rw [FileHandle.blockData_snd_lookup]
        exact h.blocks n hn
    · intro m hm
      rw [FileHandle.blockData_snd_lookup] at hm
      rw [FileHandle.blockData_snd_maxBlocks]
      exact h.lt_of_lookup hm
    · rwa [FileHandle.blockData_snd_maxBlocks]

end Covers

end AmlaSandbox.Vfs
