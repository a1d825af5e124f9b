import Mathlib.Data.List.AList
import AmlaSandbox.Library.Blocks

/-!
# Page cache and block store

The blocks of a file that were used last, and the file itself in memory, which the cache is filled
from and written through to.
-/

namespace AmlaSandbox.Vfs

open Library

/-! ### The cache -/

/-- `lruOrder` has the block used last at its end. -/
structure PageCache where
  blocks : AList fun _ : ℕ => List UInt8
  lruOrder : List ℕ
  maxBlocks : ℕ
  blockSize : ℕ
  fileSize : ℕ

namespace PageCache

def defaultMaxBlocks : ℕ := 64

def withMaxBlocks (blockSize fileSize maxBlocks : ℕ) : PageCache :=
  { blocks := ∅, lruOrder := [], maxBlocks, blockSize, fileSize }

def new (blockSize fileSize : ℕ) : PageCache := withMaxBlocks blockSize fileSize defaultMaxBlocks

variable (cache : PageCache)

def setFileSize (size : ℕ) : PageCache := { cache with fileSize := size }

def touch (blockNum : ℕ) : PageCache :=
  { cache with lruOrder := cache.lruOrder.erase blockNum ++ [blockNum] }

def lookup (blockNum : ℕ) : Option (List UInt8) := cache.blocks.lookup blockNum

/-- A block that is found is marked as used. -/
def get (blockNum : ℕ) : Option (List UInt8) × PageCache :=
  match cache.lookup blockNum with
  | some data => (some data, cache.touch blockNum)
  | none => (none, cache)

def evictLru : PageCache :=
  match cache.lruOrder with
  | [] => cache
  | blockNum :: rest => { cache with lruOrder := rest, blocks := cache.blocks.erase blockNum }

/-- `maxBlocks = 0` stands for no limit. -/
def insert (blockNum : ℕ) (data : List UInt8) : PageCache :=
  let full := 0 < cache.maxBlocks ∧ cache.lookup blockNum = none ∧
    cache.maxBlocks ≤ cache.blocks.keys.length
  let cache := if full then cache.evictLru else cache
  { cache with blocks := cache.blocks.insert blockNum data }.touch blockNum

end PageCache

/-! ### The store -/

structure MemoryBlockStore where
  data : List UInt8
  blockSize : ℕ
deriving DecidableEq, Repr

def defaultBlockSize : ℕ := 4096

/-- The most bytes that a `Vec` can hold. -/
def isizeMax : ℕ := 2 ^ 63 - 1

namespace MemoryBlockStore

def new (data : List UInt8) : MemoryBlockStore := { data, blockSize := defaultBlockSize }

def pollReadBlock (store : MemoryBlockStore) (blockNum : ℕ) (cache : PageCache) : PageCache :=
  match cache.get blockNum with
  | (some _, cache) => cache
  | (none, cache) =>
    let start := blockNum * store.blockSize
    if store.data.length ≤ start then cache.insert blockNum []
    else
      let stop := min (start + store.blockSize) store.data.length
      cache.insert blockNum ((store.data.take stop).drop start)

/-- `none` is the panic of a buffer that gets too long. -/
def pollWriteBlock (store : MemoryBlockStore) (blockNum : ℕ) (blockData : List UInt8)
    (cache : PageCache) : Option (MemoryBlockStore × PageCache) :=
  let start := blockNum * store.blockSize
  let stop := start + blockData.length
  if store.data.length < stop ∧ isizeMax < stop then none
  else
    let data := resizeAndCopy 0 store.data start blockData
    some ({ store with data }, (cache.insert blockNum blockData).setFileSize data.length)

end MemoryBlockStore

/-! ### What is cached -/

namespace PageCache

variable {cache : PageCache} {n m : ℕ} {block data : List UInt8}

@[simp] lemma lookup_touch : (cache.touch n).lookup m = cache.lookup m := rfl

@[simp] lemma fileSize_touch : (cache.touch n).fileSize = cache.fileSize := rfl

@[simp] lemma blockSize_touch : (cache.touch n).blockSize = cache.blockSize := rfl

@[simp] lemma maxBlocks_touch : (cache.touch n).maxBlocks = cache.maxBlocks := rfl

@[simp] lemma lookup_setFileSize {size : ℕ} : (cache.setFileSize size).lookup m = cache.lookup m :=
  rfl

@[simp] lemma fileSize_setFileSize {size : ℕ} : (cache.setFileSize size).fileSize = size := rfl

@[simp] lemma blockSize_setFileSize {size : ℕ} :
    (cache.setFileSize size).blockSize = cache.blockSize := rfl

@[simp] lemma maxBlocks_setFileSize {size : ℕ} :
    (cache.setFileSize size).maxBlocks = cache.maxBlocks := rfl

lemma get_of_some (h : cache.lookup n = some block) :
    cache.get n = (some block, cache.touch n) := by rw [get, h]

lemma get_of_none (h : cache.lookup n = none) : cache.get n = (none, cache) := by rw [get, h]

lemma get_fst : (cache.get n).1 = cache.lookup n := by
  unfold get
  cases cache.lookup n <;> rfl

@[simp] lemma lookup_get : (cache.get n).2.lookup m = cache.lookup m := by
  unfold get
  cases cache.lookup n <;> rfl

@[simp] lemma fileSize_get : (cache.get n).2.fileSize = cache.fileSize := by
  unfold get
  cases cache.lookup n <;> rfl

@[simp] lemma blockSize_get : (cache.get n).2.blockSize = cache.blockSize := by
  unfold get
  cases cache.lookup n <;> rfl

@[simp] lemma maxBlocks_get : (cache.get n).2.maxBlocks = cache.maxBlocks := by
  unfold get
  cases cache.lookup n <;> rfl

lemma lookup_evictLru (h : cache.evictLru.lookup m = some block) :
    cache.lookup m = some block := by
  unfold evictLru at h
  split at h
  · exact h
  · rename_i k rest _
    by_cases hm : m = k
    · subst hm
      simp [lookup, AList.lookup_erase] at h
    · simpa [lookup, AList.lookup_erase_ne hm] using h

@[simp] lemma fileSize_evictLru : cache.evictLru.fileSize = cache.fileSize := by
  unfold evictLru
  split <;> rfl

@[simp] lemma blockSize_evictLru : cache.evictLru.blockSize = cache.blockSize := by
  unfold evictLru
  split <;> rfl

@[simp] lemma maxBlocks_evictLru : cache.evictLru.maxBlocks = cache.maxBlocks := by
  unfold evictLru
  split <;> rfl

@[simp] lemma fileSize_insert : (cache.insert n data).fileSize = cache.fileSize := by
  simp only [insert, fileSize_touch]
  split_ifs <;> simp

@[simp] lemma blockSize_insert : (cache.insert n data).blockSize = cache.blockSize := by
  simp only [insert, blockSize_touch]
  split_ifs <;> simp

@[simp] lemma maxBlocks_insert : (cache.insert n data).maxBlocks = cache.maxBlocks := by
  simp only [insert, maxBlocks_touch]
  split_ifs <;> simp

@[simp] lemma lookup_insert_self : (cache.insert n data).lookup n = some data := by
  simp [insert, lookup, touch, AList.lookup_insert]

lemma lookup_insert_ne (hm : m ≠ n) :
    (cache.insert n data).lookup m =
      (if 0 < cache.maxBlocks ∧ cache.lookup n = none ∧ cache.maxBlocks ≤ cache.blocks.keys.length
        then cache.evictLru else cache).lookup m :=
  AList.lookup_insert_ne hm

/-- Whatever else is cached after an insertion was cached before. -/
lemma lookup_insert_of_ne (hm : m ≠ n) (h : (cache.insert n data).lookup m = some block) :
    cache.lookup m = some block := by
  rw [lookup_insert_ne hm] at h
  split_ifs at h
  · exact lookup_evictLru h
  · exact h

/-- Below the limit nothing is evicted. -/
lemma lookup_insert (h : cache.lookup n ≠ none ∨ cache.blocks.keys.length < cache.maxBlocks) :
    (cache.insert n data).lookup m = if m = n then some data else cache.lookup m := by
  have hfull : ¬ (0 < cache.maxBlocks ∧ cache.lookup n = none ∧
      cache.maxBlocks ≤ cache.blocks.keys.length) := by
    rintro ⟨_, hnone, hle⟩
    rcases h with hsome | hlt
    · exact hsome hnone
    · omega
  split_ifs with hm
  · rw [hm, lookup_insert_self]
  · rw [lookup_insert_ne hm, if_neg hfull]

end PageCache

/-! ### What the store does -/

namespace MemoryBlockStore

variable {store store' : MemoryBlockStore} {cache cache' : PageCache} {n m : ℕ}
variable {block : List UInt8}

lemma slice_eq_blockAt {data : List UInt8} {size : ℕ} :
    (data.take (min (n * size + size) data.length)).drop (n * size) = blockAt size data n := by
  refine List.ext_getElem? fun i => ?_
  rw [List.getElem?_drop, List.getElem?_take, getElem?_blockAt]
  split_ifs
  all_goals first | rfl | omega | skip
  exact (List.getElem?_eq_none (by omega)).symm

/-- A block that is missing in the cache is read from the file. -/
lemma pollReadBlock_of_none (h : cache.lookup n = none) :
    store.pollReadBlock n cache = cache.insert n (blockAt store.blockSize store.data n) := by
  simp only [pollReadBlock, PageCache.get_of_none h]
  split_ifs with hpast
  · have hnil : blockAt store.blockSize store.data n = [] := by
      rw [← List.length_eq_zero_iff, length_blockAt]
      omega
    rw [hnil]
  · rw [slice_eq_blockAt]

lemma pollReadBlock_of_some (h : cache.lookup n = some block) :
    store.pollReadBlock n cache = cache.touch n := by
  simp only [pollReadBlock, PageCache.get_of_some h]

/-- A block is written through to the file. -/
lemma pollWriteBlock_eq_some (h : store.pollWriteBlock n block cache = some (store', cache')) :
    store' = { store with data := writeAt 0 store.data (n * store.blockSize) block } ∧
      cache' = (cache.insert n block).setFileSize store'.data.length := by
  unfold pollWriteBlock at h
  simp only [resizeAndCopy_eq_writeAt] at h
  split_ifs at h
  obtain ⟨rfl, rfl⟩ := Prod.mk.inj (Option.some.inj h)
  exact ⟨rfl, rfl⟩

/-- Only a file that gets too long is a panic. -/
lemma exists_pollWriteBlock (cache : PageCache)
    (h : n * store.blockSize + block.length ≤ max store.data.length isizeMax) :
    ∃ store' cache', store.pollWriteBlock n block cache = some (store', cache') := by
  unfold pollWriteBlock
  simp only
  rw [if_neg (by omega)]
  exact ⟨_, _, rfl⟩

end MemoryBlockStore

end AmlaSandbox.Vfs
