import Mathlib.Data.List.Nodup

/-!
# Generational tables

Slots that are reused under a new generation, a stack of free slots and a counter. A key names a
slot together with the generation it was issued for, so a key outlives its item but never names
another one.
-/

namespace AmlaSandbox.Library

/-- A slot and the generation the slot had when the key was issued. -/
structure Key where
  slot : ℕ
  generation : ℕ
deriving DecidableEq

structure GenTable (α : Type*) where
  slots : List (Option α)
  gens : List ℕ
  free : List ℕ
  count : ℕ

namespace GenTable

variable {α : Type*} (T : GenTable α)

def get? (i : ℕ) : Option α := T.slots[i]?.join

def gen (i : ℕ) : ℕ := T.gens[i]?.getD 0

/-- The key under which the current item of a slot was issued. -/
def keyAt (i : ℕ) : Key := ⟨i, T.gen i⟩

/-- The item of a key, if the slot was not reused since. -/
def lookup (key : Key) : Option α :=
  if T.gen key.slot = key.generation then T.get? key.slot else none

/-- The key of the next insertion: the top free slot under its next generation, or a new slot. -/
def nextKey : Key :=
  match T.free with
  | i :: _ => ⟨i, T.gen i + 1⟩
  | [] => ⟨T.slots.length, 0⟩

def insert (a : α) : GenTable α :=
  match T.free with
  | i :: free =>
    ⟨T.slots.set i (some a), T.gens.set i (T.gen i + 1), free, T.count + 1⟩
  | [] => ⟨T.slots ++ [some a], T.gens ++ [0], [], T.count + 1⟩

def modify (i : ℕ) (f : α → α) : GenTable α :=
  { T with slots := T.slots.modify i (Option.map f) }

/-- Empty a slot and put it on the free list; nothing happens to an empty slot. -/
def clear (i : ℕ) : GenTable α :=
  if (T.get? i).isSome then ⟨T.slots.set i none, T.gens, i :: T.free, T.count - 1⟩ else T

def occupied : ℕ := T.slots.countP Option.isSome

/-- A key that some insertion has returned. -/
def Issued (key : Key) : Prop := key.slot < T.slots.length ∧ key.generation ≤ T.gen key.slot

/-- The free list is exactly the empty slots, each once, and the counter counts the others. -/
structure Wf : Prop where
  gens_length : T.gens.length = T.slots.length
  free_nodup : T.free.Nodup
  mem_free : ∀ i, i ∈ T.free ↔ T.slots[i]? = some none
  count_eq : T.count = T.occupied

variable {T} {i j : ℕ} {key : Key} {a : α} {f : α → α}

/-! ### Lookups -/

lemma get?_eq_some : T.get? i = some a ↔ T.slots[i]? = some (some a) := by
  cases h : T.slots[i]? with
  | none => simp [get?, h]
  | some o => cases o <;> simp [get?, h]

lemma lt_of_get? (h : T.get? i = some a) : i < T.slots.length :=
  (List.getElem?_eq_some_iff.mp (get?_eq_some.mp h)).1

lemma lookup_eq_some :
    T.lookup key = some a ↔ T.get? key.slot = some a ∧ key = T.keyAt key.slot := by
  simp only [lookup, keyAt]
  constructor
  · intro h
    split_ifs at h with hgen
    exact ⟨h, by rw [hgen]⟩
  · rintro ⟨hget, hkey⟩
    rwa [if_pos (by rw [hkey])]

lemma lookup_keyAt : T.lookup (T.keyAt i) = T.get? i := if_pos rfl

/-! ### Insertion -/

lemma Wf.nextKey_slot_empty (h : T.Wf) : T.get? T.nextKey.slot = none := by
  simp only [nextKey]
  split
  · rename_i i free hfree
    have hi : T.slots[i]? = some none := (h.mem_free i).mp (by rw [hfree]; simp)
    simp [get?, hi]
  · simp [get?]

lemma not_issued_nextKey : ¬ T.Issued T.nextKey := by
  simp only [nextKey, Issued]
  split <;> simp

lemma Wf.get?_insert (h : T.Wf) :
    (T.insert a).get? j = if j = T.nextKey.slot then some a else T.get? j := by
  unfold insert nextKey get?
  split
  · rename_i i free hfree
    have hi : T.slots[i]? = some none := (h.mem_free i).mp (by rw [hfree]; simp)
    obtain ⟨hlt, _⟩ := List.getElem?_eq_some_iff.mp hi
    rcases eq_or_ne j i with rfl | hj
    · simp [hlt]
    · simp [hj, List.getElem?_set_ne hj.symm]
  · by_cases hj : j = T.slots.length
    · subst hj
      simp
    · rw [if_neg hj]
      rcases Nat.lt_or_gt_of_ne hj with hlt | hgt
      · rw [List.getElem?_append_left hlt]
      · rw [List.getElem?_eq_none (by simp; omega), List.getElem?_eq_none (by omega)]

lemma Wf.gen_insert (h : T.Wf) :
    (T.insert a).gen j = if j = T.nextKey.slot then T.nextKey.generation else T.gen j := by
  unfold insert nextKey
  split
  · rename_i i free hfree
    have hi : T.slots[i]? = some none := (h.mem_free i).mp (by rw [hfree]; simp)
    obtain ⟨hlt, _⟩ := List.getElem?_eq_some_iff.mp hi
    rcases eq_or_ne j i with rfl | hj
    · simp [gen, h.gens_length, hlt]
    · simp [gen, hj, List.getElem?_set_ne hj.symm]
  · by_cases hj : j = T.slots.length
    · subst hj
      simp [gen, ← h.gens_length]
    · simp only [gen, if_neg hj]
      rcases Nat.lt_or_gt_of_ne hj with hlt | hgt
      · rw [List.getElem?_append_left (by rwa [h.gens_length])]
      · rw [List.getElem?_eq_none (by simp [h.gens_length]; omega),
          List.getElem?_eq_none (by rw [h.gens_length]; omega)]

/-- Insertion keeps every item under its key. -/
lemma Wf.lookup_insert (h : T.Wf) {b : α} (hb : T.lookup key = some b) :
    (T.insert a).lookup key = some b := by
  obtain ⟨hget, hkey⟩ := lookup_eq_some.mp hb
  have hne : key.slot ≠ T.nextKey.slot := by
    intro heq
    rw [heq, h.nextKey_slot_empty] at hget
    cases hget
  rw [lookup_eq_some, h.get?_insert, if_neg hne, keyAt, h.gen_insert, if_neg hne]
  exact ⟨hget, hkey⟩

/-- The inserted item is found under the issued key. -/
lemma Wf.lookup_insert_nextKey (h : T.Wf) : (T.insert a).lookup T.nextKey = some a := by
  rw [lookup_eq_some, h.get?_insert, if_pos rfl, keyAt, h.gen_insert, if_pos rfl]
  exact ⟨rfl, rfl⟩

/-- What is found under a key after an insertion. -/
lemma Wf.lookup_insert_eq (h : T.Wf) :
    (T.insert a).lookup key = if key = T.nextKey then some a else T.lookup key := by
  by_cases hkey : key = T.nextKey
  · rw [if_pos hkey, hkey, h.lookup_insert_nextKey]
  · rw [if_neg hkey, lookup, lookup, h.gen_insert, h.get?_insert]
    by_cases hslot : key.slot = T.nextKey.slot
    · have hgen : T.nextKey.generation ≠ key.generation := by
        intro heq
        exact hkey (by cases key; cases hnext : T.nextKey; simp_all)
      have hempty : T.get? key.slot = none := by rw [hslot, h.nextKey_slot_empty]
      rw [if_pos hslot, if_neg hgen, hempty, ite_self]
    · rw [if_neg hslot, if_neg hslot]

lemma occupied_set (hi : i < T.slots.length) (o : Option α) :
    (T.slots.set i o).countP Option.isSome + (T.slots[i].isSome).toNat =
      T.occupied + o.isSome.toNat := by
  have hpos : T.slots[i].isSome → 0 < T.slots.countP Option.isSome := fun h =>
    List.countP_pos_iff.mpr ⟨_, List.getElem_mem hi, h⟩
  rw [List.countP_set hi, occupied]
  cases h : T.slots[i].isSome <;> cases o.isSome <;> simp_all

lemma Wf.insert (h : T.Wf) : (T.insert a).Wf := by
  simp only [GenTable.insert]
  split
  · rename_i i free hfree
    have hi : T.slots[i]? = some none := (h.mem_free i).mp (by rw [hfree]; simp)
    obtain ⟨hlt, hnone⟩ := List.getElem?_eq_some_iff.mp hi
    obtain ⟨hnotin, hnodup⟩ := List.nodup_cons.mp (hfree ▸ h.free_nodup)
    refine ⟨by simp [h.gens_length], hnodup, ?_, ?_⟩
    · intro j
      rcases eq_or_ne j i with rfl | hj
      · simp [hnotin, hlt]
      · have hmem : j ∈ free ↔ j ∈ T.free := by simp [hfree, hj]
        rw [hmem, h.mem_free, List.getElem?_set_ne hj.symm]
    · have hcount := occupied_set hlt (some a)
      simp only [hnone, Option.isSome_none, Option.isSome_some, Bool.toNat_false,
        Bool.toNat_true] at hcount
      simp only [occupied, h.count_eq] at hcount ⊢
      omega
  · rename_i hfree
    refine ⟨by simp [h.gens_length], List.nodup_nil, ?_, ?_⟩
    · intro j
      have hfull : T.slots[j]? ≠ some none := by
        intro hj
        simpa [hfree] using (h.mem_free j).mpr hj
      rcases Nat.lt_trichotomy j T.slots.length with hlt | rfl | hgt
      · simp only [List.not_mem_nil, false_iff]
        rwa [List.getElem?_append_left hlt]
      · simp
      · simp [List.getElem?_eq_none (show (T.slots ++ [some a]).length ≤ j by simp; omega)]
    · simp [occupied, h.count_eq, List.countP_append]

lemma issued_insert (h : T.Wf) (hkey : T.Issued key) : (T.insert a).Issued key := by
  obtain ⟨hlt, hgen⟩ := hkey
  refine ⟨?_, ?_⟩
  · simp only [insert]
    split <;> simp <;> omega
  · rw [h.gen_insert]
    split_ifs with hslot
    · simp only [nextKey] at hslot ⊢
      split
      · rename_i hfree
        simp only [hfree] at hslot
        rw [hslot] at hgen
        exact Nat.le_succ_of_le hgen
      · rename_i hfree
        simp only [hfree] at hslot
        omega
    · exact hgen

lemma issued_insert_nextKey (h : T.Wf) : (T.insert a).Issued T.nextKey := by
  have hlt := lt_of_get? (lookup_eq_some.mp (h.lookup_insert_nextKey (a := a))).1
  exact ⟨hlt, Nat.le_of_eq (h.gen_insert.trans (if_pos rfl)).symm⟩

/-! ### Clearing -/

lemma get?_clear : (T.clear i).get? j = if j = i then none else T.get? j := by
  simp only [clear]
  split_ifs with hi hj hj
  · subst hj
    obtain ⟨a, ha⟩ := Option.isSome_iff_exists.mp hi
    simp [get?, lt_of_get? ha]
  · simp [get?, List.getElem?_set_ne (Ne.symm hj)]
  · subst hj
    exact Option.not_isSome_iff_eq_none.mp hi
  · rfl

lemma gen_clear : (T.clear i).gen j = T.gen j := by
  simp only [clear]
  split_ifs <;> rfl

lemma Wf.clear (h : T.Wf) : (T.clear i).Wf := by
  simp only [GenTable.clear]
  split_ifs with hi
  · obtain ⟨a, ha⟩ := Option.isSome_iff_exists.mp hi
    have hlt := lt_of_get? ha
    obtain ⟨_, hsome⟩ := List.getElem?_eq_some_iff.mp (get?_eq_some.mp ha)
    refine ⟨by simp [h.gens_length], List.nodup_cons.mpr ⟨?_, h.free_nodup⟩, ?_, ?_⟩
    · rw [h.mem_free, get?_eq_some.mp ha]
      simp
    · intro j
      rcases eq_or_ne j i with rfl | hj
      · simp [hlt]
      · rw [List.mem_cons, h.mem_free, List.getElem?_set_ne hj.symm]
        simp [hj]
    · have hcount := occupied_set hlt none
      simp only [hsome, Option.isSome_none, Option.isSome_some, Bool.toNat_false,
        Bool.toNat_true] at hcount
      simp only [occupied, h.count_eq] at hcount ⊢
      omega
  · exact h

/-! ### Modification -/

lemma get?_modify :
    (T.modify i f).get? j = if j = i then (T.get? j).map f else T.get? j := by
  simp only [modify, get?, List.getElem?_modify]
  rcases eq_or_ne j i with rfl | hj
  · rcases T.slots[j]? with _ | _ | a <;> simp
  · simp [hj, hj.symm]

lemma lookup_modify :
    (T.modify i f).lookup key = if key.slot = i then (T.lookup key).map f else T.lookup key := by
  simp only [lookup]
  rw [get?_modify]
  show (if T.gen key.slot = key.generation then _ else none) = _
  split_ifs <;> simp

lemma occupied_modify : (T.modify i f).occupied = T.occupied := by
  have hmap : ∀ (slots : List (Option α)) (i : ℕ),
      (slots.modify i (Option.map f)).countP Option.isSome = slots.countP Option.isSome := by
    intro slots
    induction slots with
    | nil => simp
    | cons o slots ih =>
      intro i
      cases i with
      | zero => simp [List.countP_cons]
      | succ i => simp [List.countP_cons, ih]
  exact hmap T.slots i

lemma Wf.modify (h : T.Wf) : (T.modify i f).Wf where
  gens_length := by simp [GenTable.modify, h.gens_length]
  free_nodup := h.free_nodup
  mem_free j := by
    apply (h.mem_free j).trans
    simp only [GenTable.modify, List.getElem?_modify]
    rcases T.slots[j]? with _ | _ | a <;> by_cases hj : i = j <;> simp [hj]
  count_eq := by rw [occupied_modify]; exact h.count_eq

lemma issued_modify : (T.modify i f).Issued key ↔ T.Issued key := by
  simp [Issued, modify, gen]

/-- A table without items counts none. -/
lemma Wf.count_eq_zero (h : T.Wf) : T.count = 0 ↔ ∀ i, T.get? i = none := by
  rw [h.count_eq, occupied, List.countP_eq_zero]
  constructor
  · intro hall i
    by_contra hi
    obtain ⟨a, ha⟩ := Option.ne_none_iff_exists'.mp hi
    exact hall _ (List.mem_of_getElem? (get?_eq_some.mp ha)) rfl
  · intro hnone o ho
    obtain ⟨i, hi⟩ := List.getElem?_of_mem ho
    rcases o with _ | a
    · simp
    · have := hnone i
      rw [get?_eq_some.mpr hi] at this
      cases this

end GenTable

end AmlaSandbox.Library
