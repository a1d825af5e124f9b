import AmlaSandbox.Library.Reachability
import AmlaSandbox.Vfs.CacheOrder

/-!
# Coherence of the cache

The blocks of a file are read and written in any order, through a cache that keeps copies of some
of them.
-/

namespace AmlaSandbox.Vfs

open Library

/-! ### Positions in 64 bits -/

namespace MemoryBlockStore

def withBlockSize (data : List UInt8) (blockSize : ℕ) : MemoryBlockStore := { data, blockSize }

variable (store : MemoryBlockStore)

def startOf (blockNum : ℕ) : ℕ := blockNum * store.blockSize % 2 ^ 64

/-- `pollReadBlock` with positions that wrap around; `none` is the panic of a slice that ends before
its start. -/
def pollReadBlock64 (blockNum : ℕ) (cache : PageCache) : Option PageCache :=
  match cache.get blockNum with
  | (some _, cache) => some cache
  | (none, cache) =>
    let start := store.startOf blockNum
    if store.data.length ≤ start then some (cache.insert blockNum [])
    else
      let stop := min ((start + store.blockSize) % 2 ^ 64) store.data.length
      if stop < start then none
      else some (cache.insert blockNum ((store.data.take stop).drop start))

/-- `pollWriteBlock` with positions that wrap around; `none` is the panic of a slice that ends
before its start, or of a buffer that gets too long. -/
def pollWriteBlock64 (blockNum : ℕ) (blockData : List UInt8) (cache : PageCache) :
    Option (MemoryBlockStore × PageCache) :=
  let start := store.startOf blockNum
  let stop := (start + blockData.length) % 2 ^ 64
  if stop < start ∨ store.data.length < stop ∧ isizeMax < stop then none
  else
    let data := resizeAndCopy 0 store.data start blockData
    some ({ store with data }, (cache.insert blockNum blockData).setFileSize data.length)

variable {store} {store' : MemoryBlockStore} {cache cache' : PageCache} {n : ℕ}
variable {block : List UInt8}

lemma startOf_eq (h : n * store.blockSize < 2 ^ 64) : store.startOf n = n * store.blockSize :=
  Nat.mod_eq_of_lt h

/-- Where the position of a block does not wrap around, reads are as without a limit. -/
lemma pollReadBlock64_eq_some (hsize : store.blockSize < 2 ^ 64)
    (h : n * store.blockSize < 2 ^ 64) (hread : store.pollReadBlock64 n cache = some cache') :
    cache' = store.pollReadBlock n cache := by
  cases hn : cache.lookup n with
  | some block =>
    rw [pollReadBlock_of_some hn]
    simpa [pollReadBlock64, PageCache.get_of_some hn] using hread.symm
  | none =>
    simp only [pollReadBlock64, PageCache.get_of_none hn, startOf_eq h] at hread
    simp only [pollReadBlock, PageCache.get_of_none hn]
    split_ifs at hread ⊢ with hpast hstop
    · exact (Option.some.inj hread).symm
    · have hmod : (n * store.blockSize + store.blockSize) % 2 ^ 64 =
          n * store.blockSize + store.blockSize := by omega
      rw [hmod] at hread
      exact (Option.some.inj hread).symm

/-- Where the position of a block does not wrap around, writes are as without a limit. -/
lemma pollWriteBlock64_eq_some (hblock : block.length < 2 ^ 64)
    (h : n * store.blockSize < 2 ^ 64)
    (hwrite : store.pollWriteBlock64 n block cache = some (store', cache')) :
    store.pollWriteBlock n block cache = some (store', cache') := by
  simp only [pollWriteBlock64, startOf_eq h] at hwrite
  simp only [pollWriteBlock]
  split_ifs at hwrite with hpanic
  have hmod : (n * store.blockSize + block.length) % 2 ^ 64 =
      n * store.blockSize + block.length := by omega
  rw [hmod] at hpanic
  rw [if_neg (fun hlong => hpanic (.inr hlong))]
  exact hwrite

end MemoryBlockStore

/-! ### Reads and writes in any order -/

inductive BlockOp
  | read (blockNum : ℕ)
  | write (blockNum : ℕ) (data : List UInt8)
deriving DecidableEq

structure CachedFile where
  store : MemoryBlockStore
  cache : PageCache

namespace CachedFile

variable (f : CachedFile)

def step : BlockOp → Option CachedFile
  | .read n => (f.store.pollReadBlock64 n f.cache).map fun cache => { f with cache }
  | .write n data =>
    (f.store.pollWriteBlock64 n data f.cache).map fun (store, cache) => { store, cache }

/-- Every cached block is the slice of the file that it stands for. -/
def Coherent : Prop :=
  ∀ n block, f.cache.lookup n = some block → block = blockAt f.store.blockSize f.store.data n

/-- The position of the block fits into 64 bits. -/
def Addressable : BlockOp → Prop
  | .read n | .write n _ => n * f.store.blockSize < 2 ^ 64

/-- No more than a block is written. -/
def Within : BlockOp → Prop
  | .read _ => True
  | .write _ data => data.length ≤ f.store.blockSize

instance (op : BlockOp) : Decidable (f.Addressable op) :=
  match op with
  | .read n | .write n _ => inferInstanceAs (Decidable (n * f.store.blockSize < 2 ^ 64))

instance (op : BlockOp) : Decidable (f.Within op) :=
  match op with
  | .read _ => .isTrue trivial
  | .write _ data => inferInstanceAs (Decidable (data.length ≤ f.store.blockSize))

/-- A write fills its block, or reaches the end of the file, and no block before it is cached that
the file ends in or before. -/
def InPlace : BlockOp → Prop
  | .read _ => True
  | .write n data =>
    (data.length = f.store.blockSize ∨
        f.store.data.length ≤ n * f.store.blockSize + data.length) ∧
      ∀ m ∈ f.cache.blocks.keys, m < n → f.cache.Stays n m →
        (m + 1) * f.store.blockSize ≤ f.store.data.length

instance (op : BlockOp) : Decidable (f.InPlace op) :=
  match op with
  | .read _ => .isTrue trivial
  | .write _ _ => inferInstanceAs (Decidable (_ ∧ _))

variable {f} {f' : CachedFile} {n m : ℕ} {data block : List UInt8}

lemma step_write (hsize : f.store.blockSize < 2 ^ 64) (haddr : f.Addressable (.write n data))
    (hdata : data.length ≤ f.store.blockSize) (h : f.step (.write n data) = some f') :
    f'.store = { f.store with data := writeAt 0 f.store.data (n * f.store.blockSize) data } ∧
      ∀ m, f'.cache.lookup m = (f.cache.insert n data).lookup m := by
  obtain ⟨⟨store', cache'⟩, hwrite, rfl⟩ := Option.map_eq_some_iff.mp h
  obtain ⟨rfl, rfl⟩ := MemoryBlockStore.pollWriteBlock_eq_some
    (MemoryBlockStore.pollWriteBlock64_eq_some (Nat.lt_of_le_of_lt hdata hsize) haddr hwrite)
  exact ⟨rfl, fun m => PageCache.lookup_setFileSize⟩

lemma step_read (hsize : f.store.blockSize < 2 ^ 64) (haddr : f.Addressable (.read n))
    (h : f.step (.read n) = some f') :
    f'.store = f.store ∧ f'.cache = f.store.pollReadBlock n f.cache := by
  obtain ⟨cache', hread, rfl⟩ := Option.map_eq_some_iff.mp h
  exact ⟨rfl, MemoryBlockStore.pollReadBlock64_eq_some hsize haddr hread⟩

/-- A read keeps what is cached in step with the file. -/
lemma Coherent.read (h : f.Coherent) (hstore : f'.store = f.store)
    (hcache : f'.cache = f.store.pollReadBlock n f.cache) : f'.Coherent := by
  intro m block hm
  rw [hcache] at hm
  rw [hstore]
  cases hn : f.cache.lookup n with
  | some cached =>
    rw [MemoryBlockStore.pollReadBlock_of_some hn, PageCache.lookup_touch] at hm
    exact h m block hm
  | none =>
    rw [MemoryBlockStore.pollReadBlock_of_none hn] at hm
    by_cases hmn : m = n
    · subst hmn
      rw [PageCache.lookup_insert_self] at hm
      exact (Option.some.inj hm).symm
    · exact h m block (PageCache.lookup_insert_of_ne hmn hm)

/-! ### Writes -/

/-- The block that is written is in step if it reaches as far as the old one. -/
lemma eq_blockAt_writeAt_iff {size : ℕ} {bytes : List UInt8} (hdata : data.length ≤ size) :
    data = blockAt size (writeAt 0 bytes (n * size) data) n ↔
      data.length = size ∨ bytes.length ≤ n * size + data.length := by
  have hself : blockAt size (writeAt 0 bytes (n * size + 0) data) n =
      writeAt 0 (blockAt size bytes n) 0 data := blockAt_writeAt_self (by omega)
  have hdrop : writeAt 0 (blockAt size bytes n) 0 data =
      data ++ (blockAt size bytes n).drop data.length := by
    simp [writeAt]
  rw [Nat.add_zero] at hself
  rw [hself, hdrop, List.self_eq_append_right, List.drop_eq_nil_iff, length_blockAt]
  omega

/-- Another block is in step if the file already reached beyond it, or it is behind the one
written. -/
lemma blockAt_writeAt_eq_iff {size : ℕ} {bytes : List UInt8} (hdata : data.length ≤ size)
    (hne : m ≠ n) :
    blockAt size (writeAt 0 bytes (n * size) data) m = blockAt size bytes m ↔
      (m < n → (m + 1) * size ≤ bytes.length) := by
  rcases Nat.lt_or_gt_of_ne hne with hlt | hgt
  · constructor
    · intro heq _
      rcases Nat.eq_zero_or_pos size with rfl | hpos
      · exact Nat.zero_le _
      have hlength := congrArg List.length heq
      have hle : (m + 1) * size ≤ n * size := Nat.mul_le_mul_right size hlt
      have hsucc : (m + 1) * size = m * size + size := Nat.succ_mul m size
      rw [length_blockAt, length_blockAt, length_writeAt] at hlength
      omega
    · intro hle
      exact blockAt_writeAt_of_lt (Nat.add_zero _) hlt (hle hlt)
  · have hgt' : n < m := hgt
    have hsame : blockAt size (writeAt 0 bytes (n * size) data) m = blockAt size bytes m :=
      blockAt_writeAt_of_gt (Nat.add_zero _) hgt' (by omega)
    exact ⟨fun _ hlt => absurd hlt (by omega), fun _ => hsame⟩

/-- A write keeps what is cached in step with the file if and only if it is in place. -/
lemma Coherent.write_iff (h : f.Coherent) (hdata : data.length ≤ f.store.blockSize)
    (hstore : f'.store =
      { f.store with data := writeAt 0 f.store.data (n * f.store.blockSize) data })
    (hcache : ∀ m, f'.cache.lookup m = (f.cache.insert n data).lookup m) :
    f'.Coherent ↔ f.InPlace (.write n data) := by
  have hlookup : ∀ m, f'.cache.lookup m =
      if m = n then some data else if f.cache.Stays n m then f.cache.lookup m else none := by
    intro m
    rw [hcache, PageCache.lookup_insert_eq]
    by_cases hstays : f.cache.Stays n m
    · rw [if_neg hstays, if_pos hstays]
    · rw [if_pos (not_not.mp hstays), if_neg hstays]
  have hcoherent : f'.Coherent ↔ ∀ m block, f'.cache.lookup m = some block →
      block = blockAt f.store.blockSize
        (writeAt 0 f.store.data (n * f.store.blockSize) data) m := by
    rw [Coherent, hstore]
  rw [hcoherent]
  constructor
  · intro hc
    have hself := hc n data (by rw [hlookup, if_pos rfl])
    refine ⟨(eq_blockAt_writeAt_iff hdata).mp hself, ?_⟩
    intro m hm hlt hstays
    have hne : m ≠ n := Nat.ne_of_lt hlt
    obtain ⟨block, hblock⟩ := Option.ne_none_iff_exists'.mp (PageCache.lookup_ne_none_iff.mpr hm)
    have hnew := hc m block (by rw [hlookup, if_neg hne, if_pos hstays, hblock])
    exact (blockAt_writeAt_eq_iff hdata hne).mp (hnew ▸ h m block hblock) hlt
  · rintro ⟨hself, hbefore⟩ m block hblock
    rw [hlookup] at hblock
    split_ifs at hblock with hm hstays
    · subst hm
      obtain rfl := Option.some.inj hblock
      exact (eq_blockAt_writeAt_iff hdata).mpr hself
    · have hmem : m ∈ f.cache.blocks.keys :=
        PageCache.lookup_ne_none_iff.mp (by rw [hblock]; exact Option.some_ne_none _)
      rw [(blockAt_writeAt_eq_iff hdata hm).mpr fun hlt => hbefore m hmem hlt hstays]
      exact h m block hblock

/-- A call keeps what is cached in step with the file if and only if it is in place. -/
lemma Coherent.step_iff {op : BlockOp} (h : f.Coherent) (hsize : f.store.blockSize < 2 ^ 64)
    (haddr : f.Addressable op) (hdata : f.Within op) (hstep : f.step op = some f') :
    f'.Coherent ↔ f.InPlace op := by
  cases op with
  | read n =>
    obtain ⟨hstore, hcache⟩ := step_read hsize haddr hstep
    exact iff_of_true (h.read hstore hcache) trivial
  | write n data =>
    obtain ⟨hstore, hcache⟩ := step_write hsize haddr hdata hstep
    exact h.write_iff hdata hstore hcache

lemma step_blockSize {op : BlockOp} (hstep : f.step op = some f') :
    f'.store.blockSize = f.store.blockSize := by
  cases op with
  | read n =>
    obtain ⟨cache', _, rfl⟩ := Option.map_eq_some_iff.mp hstep
    rfl
  | write n data =>
    obtain ⟨⟨store', cache'⟩, hwrite, rfl⟩ := Option.map_eq_some_iff.mp hstep
    simp only [MemoryBlockStore.pollWriteBlock64] at hwrite
    split_ifs at hwrite
    obtain ⟨rfl, _⟩ := Prod.mk.inj (Option.some.inj hwrite)
    rfl

/-! ### Runs -/

/-- A file of which nothing is cached yet. -/
def start (data : List UInt8) (blockSize fileSize maxBlocks : ℕ) : CachedFile where
  store := .withBlockSize data blockSize
  cache := .withMaxBlocks blockSize fileSize maxBlocks

/-- A call writes no more than a block, within the positions that 64 bits can count. -/
def Regular (f : CachedFile) (op : BlockOp) : Prop := f.Addressable op ∧ f.Within op

instance (f : CachedFile) (op : BlockOp) : Decidable (Regular f op) :=
  inferInstanceAs (Decidable (_ ∧ _))

/-- In every run of regular calls that are in place, all that is cached is in step with the file. -/
theorem coherent_of_inPlace {blockSize fileSize maxBlocks : ℕ} (hsize : blockSize < 2 ^ 64)
    (h : Reach (fun f op f' => f.step op = some f') (fun f op => Regular f op ∧ f.InPlace op)
      (start data blockSize fileSize maxBlocks) f) :
    f.Coherent := by
  have hkept : f.Coherent ∧ f.store.blockSize = blockSize := by
    refine h.invariant (I := fun f => f.Coherent ∧ f.store.blockSize = blockSize)
      ⟨fun n block hn => (by cases hn), rfl⟩ ?_
    rintro f op f' ⟨hf, rfl⟩ ⟨⟨haddr, hdata⟩, hplace⟩ hstep
    exact ⟨(hf.step_iff hsize haddr hdata hstep).mpr hplace, step_blockSize hstep⟩
  exact hkept.1

/-- A whole block and a last short one, read again. -/
theorem coherent_of_inPlace_twoBlocks :
    ∃ f, [BlockOp.write 0 (List.replicate 4 7), .write 1 [8], .read 0, .read 2].foldlM step
      (start [] 4 0 64) = some f ∧ f.Coherent := by
  obtain ⟨f, hf⟩ := Option.isSome_iff_exists.mp (show ([BlockOp.write 0 (List.replicate 4 7),
    .write 1 [8], .read 0, .read 2].foldlM step (start [] 4 0 64)).isSome by decide +kernel)
  exact ⟨f, hf, coherent_of_inPlace (by decide) (reach_foldlM (by decide +kernel) hf)⟩

/-- A short block stays in the cache when a write behind it fills it up in the file. -/
theorem not_coherent_shortBlock :
    ¬ ∀ data blockSize fileSize maxBlocks f, blockSize < 2 ^ 64 →
      Reach (fun f op f' => step f op = some f') Regular
        (start data blockSize fileSize maxBlocks) f → f.Coherent := by
  intro hall
  have hrun : ([BlockOp.write 0 [1], .write 1 [2]].foldlM step (start [] 4096 0 64)).map
      (fun f => (f.cache.lookup 0, f.store.data.length, f.store.blockSize)) =
        some (some [1], 4097, 4096) := by decide +kernel
  obtain ⟨f, hf, hview⟩ := Option.map_eq_some_iff.mp hrun
  obtain ⟨hcached, hlength, hblock⟩ : f.cache.lookup 0 = some [1] ∧
      f.store.data.length = 4097 ∧ f.store.blockSize = 4096 := by simpa using hview
  have hslice := hall [] 4096 0 64 f (by decide) (reach_foldlM (by decide +kernel) hf) 0 [1] hcached
  have hshort := congrArg List.length hslice
  rw [length_blockAt, hlength, hblock] at hshort
  exact absurd hshort (by decide)

end CachedFile

end AmlaSandbox.Vfs
