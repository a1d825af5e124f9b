import AmlaSandbox.Library.Queues
import AmlaSandbox.Vfs.PageCache
import Mathlib.Data.List.Induction

/-!
# The order of a page cache

Which blocks a cache keeps after any sequence of calls, in which order and with which data.
-/

namespace AmlaSandbox.Vfs

open Library

/-! ### Sequences of calls -/

inductive CacheOp
  | get (blockNum : ℕ)
  | insert (blockNum : ℕ) (data : List UInt8)
  | invalidate (blockNum : ℕ)
  | clear
deriving DecidableEq

namespace CacheOp

/-- The block that a call uses. -/
def uses : CacheOp → List ℕ
  | get n | insert n _ => [n]
  | invalidate _ | clear => []

/-- What a call leaves as the data inserted last for block `n`. -/
def inserted (n : ℕ) (data : Option (List UInt8)) : CacheOp → Option (List UInt8)
  | get _ => data
  | insert m block => if m = n then some block else data
  | invalidate m => if m = n then none else data
  | clear => none

end CacheOp

/-- The data inserted last for block `n`, unless the block was invalidated since. -/
def lastInserted (ops : List CacheOp) (n : ℕ) : Option (List UInt8) :=
  ops.foldl (CacheOp.inserted n) none

namespace PageCache

variable (cache : PageCache)

def invalidate (blockNum : ℕ) : PageCache :=
  { cache with
    blocks := cache.blocks.erase blockNum
    lruOrder := cache.lruOrder.erase blockNum }

def clear : PageCache := { cache with blocks := ∅, lruOrder := [] }

def step : CacheOp → PageCache
  | .get n => (cache.get n).2
  | .insert n data => cache.insert n data
  | .invalidate n => cache.invalidate n
  | .clear => cache.clear

def after (ops : List CacheOp) : PageCache := ops.foldl step cache

/-- An insertion of this block evicts another one. -/
def Evicts (n : ℕ) : Prop :=
  0 < cache.maxBlocks ∧ cache.lookup n = none ∧ cache.maxBlocks ≤ cache.blocks.keys.length

instance {n : ℕ} : Decidable (cache.Evicts n) :=
  inferInstanceAs (Decidable (_ ∧ _ ∧ _))

/-- Block `m` is still cached when block `n` has been inserted. -/
def Stays (n m : ℕ) : Prop := ¬ (cache.Evicts n ∧ cache.lruOrder.head? = some m)

instance {n m : ℕ} : Decidable (cache.Stays n m) := inferInstanceAs (Decidable (¬ (_ ∧ _)))

/-- Block `n` is cached, and every other cached block was used after it. -/
def LeastRecent (ops : List CacheOp) (n : ℕ) : Prop :=
  cache.lookup n ≠ none ∧
    ∀ m, cache.lookup m ≠ none → m ≠ n → UsedBefore (ops.flatMap CacheOp.uses) n m

/-- What holds of a cache after the calls `ops`. -/
structure Lru (ops : List CacheOp) : Prop where
  nodup : cache.lruOrder.Nodup
  perm : cache.lruOrder.Perm cache.blocks.keys
  length_le : 0 < cache.maxBlocks → cache.blocks.keys.length ≤ cache.maxBlocks
  get : ∀ n data, (cache.get n).1 = some data → lastInserted ops n = some data
  insert : ∀ n data, ((cache.insert n data).get n).1 = some data
  /-- An insertion into a full cache takes out the block used least recently, and no other. -/
  evicts : ∀ n data, cache.Evicts n → ∃ victim, cache.LeastRecent ops victim ∧
    ∀ m, (cache.insert n data).lookup m =
      if m = n then some data else if m = victim then none else cache.lookup m
  /-- A block that is cached stays cached unless it is invalidated or evicted. -/
  keeps : ∀ op n, cache.lookup n ≠ none → (cache.step op).lookup n = none →
    op = .invalidate n ∨ op = .clear ∨
      ∃ m data, op = .insert m data ∧ cache.Evicts m ∧ cache.LeastRecent ops n

variable {cache} {ops : List CacheOp} {n m : ℕ} {data block : List UInt8}

/-! ### What one call does -/

lemma lookup_ne_none_iff : cache.lookup n ≠ none ↔ n ∈ cache.blocks.keys := by
  rw [lookup, Ne, AList.lookup_eq_none, not_not, AList.mem_keys]

lemma lookup_invalidate :
    (cache.invalidate n).lookup m = if m = n then none else cache.lookup m := by
  split_ifs with hm
  · rw [hm]
    exact AList.lookup_erase _ _
  · exact AList.lookup_erase_ne hm

lemma lookup_clear : cache.clear.lookup m = none := rfl

lemma lruOrder_insert :
    (cache.insert n data).lruOrder =
      (if cache.Evicts n then cache.lruOrder.tail else cache.lruOrder).erase n ++ [n] := by
  have horder : (cache.insert n data).lruOrder =
      (if cache.Evicts n then cache.evictLru else cache).lruOrder.erase n ++ [n] := rfl
  rw [horder]
  by_cases hfull : cache.Evicts n
  · rw [if_pos hfull, if_pos hfull, evictLru]
    cases hlist : cache.lruOrder with
    | nil => simp [hlist]
    | cons k rest => rfl
  · rw [if_neg hfull, if_neg hfull]

lemma lookup_insert_eq :
    (cache.insert n data).lookup m =
      if m = n then some data
      else if cache.Evicts n ∧ cache.lruOrder.head? = some m then none else cache.lookup m := by
  by_cases hm : m = n
  · rw [if_pos hm, hm, lookup_insert_self]
  · have hlookup : (cache.insert n data).lookup m =
        (if cache.Evicts n then cache.evictLru else cache).lookup m := lookup_insert_ne hm
    rw [if_neg hm, hlookup]
    by_cases hfull : cache.Evicts n
    · rw [if_pos hfull, evictLru]
      cases horder : cache.lruOrder with
      | nil => simp
      | cons k rest =>
        by_cases hk : k = m
        · subst hk
          simp [lookup, AList.lookup_erase, hfull]
        · simp [lookup, AList.lookup_erase_ne (Ne.symm hk), hk]
    · rw [if_neg hfull, if_neg (fun h => hfull h.1)]

@[simp] lemma maxBlocks_step {op : CacheOp} : (cache.step op).maxBlocks = cache.maxBlocks := by
  cases op with
  | get n => exact maxBlocks_get
  | insert n data => exact maxBlocks_insert
  | invalidate n => rfl
  | clear => rfl

@[simp] lemma maxBlocks_after : (cache.after ops).maxBlocks = cache.maxBlocks := by
  induction ops generalizing cache with
  | nil => rfl
  | cons op ops ih => exact ih.trans maxBlocks_step

/-! ### The invariant -/

/-- The order lists the cached blocks by recency, within the limit, and these hold what was inserted
last. -/
structure Listed (cache : PageCache) (ops : List CacheOp) : Prop where
  recency : ByRecency (ops.flatMap CacheOp.uses) cache.lruOrder
  mem_iff : ∀ n, n ∈ cache.lruOrder ↔ cache.lookup n ≠ none
  length_le : 0 < cache.maxBlocks → cache.lruOrder.length ≤ cache.maxBlocks
  data : ∀ n data, cache.lookup n = some data → lastInserted ops n = some data

namespace Listed

lemma perm (h : Listed cache ops) : cache.lruOrder.Perm cache.blocks.keys :=
  (List.perm_ext_iff_of_nodup h.recency.nodup cache.blocks.keys_nodup).mpr fun n => by
    rw [h.mem_iff, lookup_ne_none_iff]

/-- A block that is evicted is the first in the order. -/
lemma exists_victim (h : Listed cache ops) (hfull : cache.Evicts n) :
    ∃ victim rest, cache.lruOrder = victim :: rest ∧ cache.LeastRecent ops victim := by
  obtain ⟨hpos, _, hle⟩ := hfull
  have hlength := h.perm.length_eq
  cases horder : cache.lruOrder with
  | nil =>
    rw [horder, List.length_nil] at hlength
    omega
  | cons victim rest =>
    refine ⟨victim, rest, rfl, (h.mem_iff victim).mp (horder ▸ List.mem_cons_self), ?_⟩
    intro m hm hne
    have hmem : m ∈ victim :: rest := horder ▸ (h.mem_iff m).mpr hm
    exact (horder ▸ h.recency).usedBefore_of_head hmem hne

lemma uses_concat {op : CacheOp} :
    (ops ++ [op]).flatMap CacheOp.uses = ops.flatMap CacheOp.uses ++ op.uses := by
  simp [List.flatMap_append]

lemma lastInserted_concat {op : CacheOp} :
    lastInserted (ops ++ [op]) n = op.inserted n (lastInserted ops n) := by
  rw [lastInserted, List.foldl_append]
  rfl

lemma stepGet (h : Listed cache ops) (n : ℕ) :
    Listed (cache.step (.get n)) (ops ++ [.get n]) := by
  have hdata : ∀ m data, (cache.get n).2.lookup m = some data →
      lastInserted (ops ++ [.get n]) m = some data := by
    intro m data hm
    rw [lookup_get] at hm
    rw [lastInserted_concat]
    exact h.data m data hm
  cases hn : cache.lookup n with
  | none =>
    have hget : (cache.get n).2 = cache := by rw [get_of_none hn]
    have hnot : n ∉ cache.lruOrder := fun hmem => (h.mem_iff n).mp hmem hn
    rw [step, hget]
    rw [hget] at hdata
    refine ⟨?_, h.mem_iff, h.length_le, hdata⟩
    rw [uses_concat]
    exact h.recency.pass hnot
  | some data =>
    have hget : (cache.get n).2 = cache.touch n := by rw [get_of_some hn]
    have hmem : n ∈ cache.lruOrder := (h.mem_iff n).mpr (by simp [hn])
    rw [step, hget]
    rw [hget] at hdata
    refine ⟨?_, fun m => ?_, fun hpos => ?_, hdata⟩
    · rw [uses_concat]
      exact h.recency.use
    · have hor : m ∈ cache.lruOrder.erase n ∨ m = n ↔ m ∈ cache.lruOrder := by
        rw [h.recency.nodup.mem_erase_iff]
        by_cases hm : m = n
        · simp [hm, hmem]
        · simp [hm]
      simp only [touch, List.mem_append, List.mem_singleton]
      rw [hor]
      exact h.mem_iff m
    · have hlength := List.length_erase_add_one hmem
      simp only [touch, List.length_append, List.length_singleton, hlength]
      exact h.length_le hpos

/-- What an insertion keeps of the order. -/
lemma mem_kept (h : Listed cache ops) :
    m ∈ (if cache.Evicts n then cache.lruOrder.tail else cache.lruOrder) ↔
      cache.lookup m ≠ none ∧ ¬ (cache.Evicts n ∧ cache.lruOrder.head? = some m) := by
  split_ifs with hfull
  · obtain ⟨victim, rest, horder, _⟩ := h.exists_victim hfull
    have hnodup := List.nodup_cons.mp (horder ▸ h.recency.nodup)
    rw [← h.mem_iff, horder]
    simp only [List.tail_cons, List.mem_cons, List.head?_cons, Option.some.injEq, hfull, true_and]
    constructor
    · intro hmem
      exact ⟨.inr hmem, fun heq => hnodup.1 (heq ▸ hmem)⟩
    · rintro ⟨rfl | hmem, hne⟩
      · exact absurd rfl hne
      · exact hmem
  · simp [h.mem_iff, hfull]

lemma stepInsert (h : Listed cache ops) (n : ℕ) (data : List UInt8) :
    Listed (cache.step (.insert n data)) (ops ++ [.insert n data]) := by
  have hsub : (if cache.Evicts n then cache.lruOrder.tail else cache.lruOrder).Sublist
      cache.lruOrder := by
    split_ifs
    · exact List.tail_sublist _
    · exact List.Sublist.refl _
  have hkept := h.recency.sublist hsub
  refine ⟨?_, fun m => ?_, fun hpos => ?_, fun m block hm => ?_⟩
  · rw [uses_concat, step, lruOrder_insert]
    exact hkept.use
  · rw [step, lruOrder_insert, lookup_insert_eq, List.mem_append, List.mem_singleton,
      hkept.nodup.mem_erase_iff, h.mem_kept]
    by_cases hm : m = n
    · simp [hm]
    · rw [if_neg hm]
      split_ifs with hvictim
      · simp [hm, hvictim]
      · simp [hm, hvictim]
  · rw [maxBlocks_step] at hpos ⊢
    have hle := h.length_le hpos
    rw [step, lruOrder_insert, List.length_append, List.length_singleton]
    by_cases hn : cache.lookup n = none
    · have hkeys := h.perm.length_eq
      have hlength := List.length_erase_le (l :=
        if cache.Evicts n then cache.lruOrder.tail else cache.lruOrder) (a := n)
      split_ifs at hlength ⊢ with hfull
      · rw [List.length_tail] at hlength
        omega
      · have hlt : cache.blocks.keys.length < cache.maxBlocks :=
          Nat.lt_of_not_le fun hge => hfull ⟨hpos, hn, hge⟩
        omega
    · have hfull : ¬ cache.Evicts n := fun hfull => hn hfull.2.1
      rw [if_neg hfull, List.length_erase_add_one ((h.mem_iff n).mpr hn)]
      exact hle
  · rw [step, lookup_insert_eq] at hm
    rw [lastInserted_concat, CacheOp.inserted]
    split_ifs at hm with heq
    · rw [if_pos heq.symm]
      exact hm
    · rw [if_neg (Ne.symm heq)]
      exact h.data m block hm

lemma stepInvalidate (h : Listed cache ops) (n : ℕ) :
    Listed (cache.step (.invalidate n)) (ops ++ [.invalidate n]) := by
  refine ⟨?_, fun m => ?_, fun hpos => ?_, fun m block hm => ?_⟩
  · rw [uses_concat]
    simp only [CacheOp.uses, List.append_nil]
    exact h.recency.sublist List.erase_sublist
  · rw [step, lookup_invalidate]
    simp only [invalidate]
    rw [h.recency.nodup.mem_erase_iff, h.mem_iff]
    by_cases hm : m = n
    · simp [hm]
    · simp [hm]
  · exact Nat.le_trans List.length_erase_le (h.length_le hpos)
  · rw [step, lookup_invalidate] at hm
    rw [lastInserted_concat, CacheOp.inserted]
    split_ifs at hm with heq
    rw [if_neg (Ne.symm heq)]
    exact h.data m block hm

lemma stepClear : Listed (cache.step .clear) (ops ++ [.clear]) := by
  refine ⟨.nil, fun m => ?_, fun _ => Nat.zero_le _, fun m block hm => ?_⟩
  · rw [step, lookup_clear]
    simp [clear]
  · cases hm

lemma step (h : Listed cache ops) (op : CacheOp) : Listed (cache.step op) (ops ++ [op]) := by
  cases op with
  | get n => exact h.stepGet n
  | insert n data => exact h.stepInsert n data
  | invalidate n => exact h.stepInvalidate n
  | clear => exact stepClear

lemma start (blockSize fileSize maxBlocks : ℕ) :
    Listed (withMaxBlocks blockSize fileSize maxBlocks) [] where
  recency := .nil
  mem_iff n := by simp [withMaxBlocks, lookup]
  length_le _ := Nat.zero_le _
  data n data h := by cases h

lemma after (blockSize fileSize maxBlocks : ℕ) (ops : List CacheOp) :
    Listed ((withMaxBlocks blockSize fileSize maxBlocks).after ops) ops := by
  induction ops using List.reverseRecOn with
  | nil => exact start blockSize fileSize maxBlocks
  | append_singleton ops op ih =>
    rw [PageCache.after, List.foldl_append]
    exact ih.step op

/-- What a block is lost by. -/
lemma lost (h : Listed cache ops) (op : CacheOp) (hcached : cache.lookup n ≠ none)
    (hlost : (cache.step op).lookup n = none) :
    op = .invalidate n ∨ op = .clear ∨
      ∃ m data, op = .insert m data ∧ cache.Evicts m ∧ cache.LeastRecent ops n := by
  cases op with
  | get m =>
    rw [PageCache.step, lookup_get] at hlost
    exact absurd hlost hcached
  | insert m data =>
    rw [PageCache.step, lookup_insert_eq] at hlost
    split_ifs at hlost with hm hvictim
    · obtain ⟨victim, rest, horder, hleast⟩ := h.exists_victim hvictim.1
      have hn : victim = n := by simpa [horder] using hvictim.2
      exact .inr (.inr ⟨m, data, rfl, hvictim.1, hn ▸ hleast⟩)
    · exact absurd hlost hcached
  | invalidate m =>
    rw [PageCache.step, lookup_invalidate] at hlost
    split_ifs at hlost with hm
    · exact .inl (by rw [hm])
    · exact absurd hlost hcached
  | clear => exact .inr (.inl rfl)

lemma lru (h : Listed cache ops) : cache.Lru ops where
  nodup := h.recency.nodup
  perm := h.perm
  length_le hpos := h.perm.length_eq ▸ h.length_le hpos
  get n data hget := h.data n data (get_fst ▸ hget)
  insert n data := by rw [get_fst, lookup_insert_self]
  evicts n data hfull := by
    obtain ⟨victim, rest, horder, hleast⟩ := h.exists_victim hfull
    refine ⟨victim, hleast, fun m => ?_⟩
    rw [lookup_insert_eq, horder]
    simp [hfull, eq_comm]
  keeps op n hcached hlost := h.lost op hcached hlost

end Listed

/-- After every sequence of calls the order lists the cached blocks once each, no more than the
limit, and by recency. -/
theorem lru_after (blockSize fileSize maxBlocks : ℕ) (ops : List CacheOp) :
    ((withMaxBlocks blockSize fileSize maxBlocks).after ops).maxBlocks = maxBlocks ∧
      ((withMaxBlocks blockSize fileSize maxBlocks).after ops).Lru ops :=
  ⟨maxBlocks_after, (Listed.after blockSize fileSize maxBlocks ops).lru⟩

end PageCache

end AmlaSandbox.Vfs
