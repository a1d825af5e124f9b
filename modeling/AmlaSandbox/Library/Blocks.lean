import Mathlib.Data.List.Basic
import Mathlib.Algebra.Group.Nat.Defs
import Mathlib.Tactic.Common

/-!
# Blocks of a list

Lists written at a position, with a filler in the gap before it, and lists cut into blocks of one
size.
-/

namespace AmlaSandbox.Library

variable {α : Type*}

/-- The list with `bytes` at `pos`; what is missing before `pos` is filled up. -/
def writeAt (fill : α) (data : List α) (pos : ℕ) (bytes : List α) : List α :=
  data.take pos ++ List.replicate (pos - data.length) fill ++ bytes ++
    data.drop (pos + bytes.length)

/-- The block of a number; the last one may be short, and later ones are empty. -/
def blockAt (size : ℕ) (data : List α) (n : ℕ) : List α := (data.drop (n * size)).take size

variable {fill : α} {data base bytes l l' : List α} {pos size n m off i : ℕ}

@[simp] lemma length_writeAt :
    (writeAt fill data pos bytes).length = max data.length (pos + bytes.length) := by
  simp [writeAt]
  omega

@[simp] lemma length_blockAt :
    (blockAt size data n).length = min size (data.length - n * size) := by
  simp [blockAt]

/-- A part of a list from a position on, and what follows there. -/
lemma append_prefix_drop (h : l <+: data.drop pos) (h' : l' <+: data.drop (pos + l.length)) :
    l ++ l' <+: data.drop pos := by
  rw [List.prefix_iff_eq_take] at h h'
  rw [← List.drop_drop] at h'
  rw [List.prefix_iff_eq_take, List.length_append, List.take_add, ← h, ← h']

/-- The end of a block, from an offset on. -/
lemma drop_blockAt (off : ℕ) :
    (blockAt size data n).drop off = (data.drop (n * size + off)).take (size - off) := by
  rw [blockAt, List.drop_take, List.drop_drop]

/-- A read in a block stops where the block or the list does. -/
lemma take_drop_blockAt (off len : ℕ) :
    ((blockAt size data n).drop off).take
        (min (min len ((blockAt size data n).length - off)) (data.length - (n * size + off))) =
      (data.drop (n * size + off)).take (min len (size - off)) := by
  rw [length_blockAt, drop_blockAt, List.take_take, List.take_eq_take_iff, List.length_drop]
  omega

lemma getElem?_blockAt :
    (blockAt size data n)[i]? = if i < size then data[n * size + i]? else none := by
  rw [blockAt, List.getElem?_take, List.getElem?_drop]

lemma getElem?_writeAt :
    (writeAt fill data pos bytes)[i]? =
      if i < pos then some (data[i]?.getD fill)
      else if i < pos + bytes.length then bytes[i - pos]? else data[i]? := by
  have hlen : (data.take pos ++ List.replicate (pos - data.length) fill).length = pos := by
    simp
    omega
  rw [writeAt, List.append_assoc, List.getElem?_append, hlen]
  split_ifs with hpos hbytes
  · rw [List.getElem?_append, List.length_take]
    split_ifs with hdata
    · rw [List.getElem?_take, if_pos hpos, List.getElem?_eq_getElem (by omega), Option.getD_some]
    · rw [List.getElem?_replicate, if_pos (by omega), List.getElem?_eq_none (by omega),
        Option.getD_none]
  · rw [List.getElem?_append, if_pos (by omega)]
  · rw [List.getElem?_append, if_neg (by omega), List.getElem?_drop]
    congr 1
    omega

/-- A write as a buffer does it: it is made long enough, then the range is copied over. -/
def resizeAndCopy (fill : α) (data : List α) (pos : ℕ) (bytes : List α) : List α :=
  let stop := pos + bytes.length
  let data :=
    if data.length < stop then data ++ List.replicate (stop - data.length) fill else data
  data.take pos ++ bytes ++ data.drop stop

lemma resizeAndCopy_eq_writeAt :
    resizeAndCopy fill data pos bytes = writeAt fill data pos bytes := by
  simp only [resizeAndCopy, writeAt]
  split_ifs with hlt
  · have hdrop : data.drop (pos + bytes.length) = [] := List.drop_eq_nil_of_le (by omega)
    have hmin : min (pos - data.length) (pos + bytes.length - data.length) = pos - data.length := by
      omega
    simp [List.take_append, List.drop_append, hdrop, hmin]
  · have hgap : pos - data.length = 0 := by omega
    simp [hgap]

lemma take_writeAt (h : i ≤ pos) (hi : i ≤ data.length) :
    (writeAt fill data pos bytes).take i = data.take i := by
  refine List.ext_getElem? fun j => ?_
  rw [List.getElem?_take, List.getElem?_take, getElem?_writeAt]
  split_ifs with hj hpos
  · rw [List.getElem?_eq_getElem (by omega), Option.getD_some]
  all_goals first | rfl | omega

/-- What a write covers does not matter. -/
lemma writeAt_congr (hbefore : ∀ i, i < pos → (l[i]?).getD fill = (l'[i]?).getD fill)
    (hafter : l.drop (pos + bytes.length) = l'.drop (pos + bytes.length)) :
    writeAt fill l pos bytes = writeAt fill l' pos bytes := by
  refine List.ext_getElem? fun i => ?_
  simp only [getElem?_writeAt]
  split_ifs with hpos hbytes
  · rw [hbefore i hpos]
  · rfl
  · obtain ⟨j, rfl⟩ : ∃ j, i = pos + bytes.length + j := ⟨i - (pos + bytes.length), by omega⟩
    rw [← List.getElem?_drop, ← List.getElem?_drop, hafter]

/-- Written bytes stay within their block. -/
lemma writeAt_writeAt_block
    (hbase : ∀ i, i < off → (base[i]?).getD fill = (data[n * size + i]?).getD fill)
    (hafter : ∀ i, off + bytes.length ≤ i → i < base.length → base[i]? = data[n * size + i]?) :
    writeAt fill data (n * size) (writeAt fill base off bytes) =
      writeAt fill data (n * size + off) bytes := by
  refine List.ext_getElem? fun i => ?_
  simp only [getElem?_writeAt, length_writeAt]
  by_cases hstart : i < n * size
  · rw [if_pos hstart, if_pos (by omega)]
  · obtain ⟨j, rfl⟩ : ∃ j, i = n * size + j := ⟨i - n * size, by omega⟩
    rw [if_neg hstart]
    simp only [Nat.add_sub_cancel_left, Nat.add_lt_add_iff_left]
    by_cases hoff : j < off
    · rw [if_pos (by omega), if_pos hoff, if_pos hoff, hbase j hoff]
    · by_cases hbytes : j < off + bytes.length
      · rw [if_pos (by omega), if_neg hoff, if_pos hbytes, if_neg hoff, if_pos (by omega)]
        congr 1
        omega
      · have hend : ¬ n * size + j < n * size + off + bytes.length := by omega
        simp only [if_neg hoff, if_neg hbytes, if_neg hend]
        split_ifs with hlen
        · exact hafter j (by omega) (by omega)
        · rfl

lemma writeAt_writeAt_blockAt (h : off + bytes.length ≤ size) :
    writeAt fill data (n * size) (writeAt fill (blockAt size data n) off bytes) =
      writeAt fill data (n * size + off) bytes := by
  refine writeAt_writeAt_block (fun i hi => ?_) fun i _ hi => ?_
  · rw [getElem?_blockAt, if_pos (by omega)]
  · rw [length_blockAt] at hi
    rw [getElem?_blockAt, if_pos (by omega)]

/-- The block that is written to. -/
lemma blockAt_writeAt_self (h : off + bytes.length ≤ size) :
    blockAt size (writeAt fill data (n * size + off) bytes) n =
      writeAt fill (blockAt size data n) off bytes := by
  refine List.ext_getElem? fun i => ?_
  simp only [getElem?_writeAt, getElem?_blockAt, Nat.add_lt_add_iff_left, Nat.add_assoc]
  split_ifs with hsize hoff hbytes hoff hbytes
  all_goals first | rfl | omega | skip
  all_goals congr 1; omega

/-- A list is written by writing the new block. -/
lemma writeAt_blockAt_writeAt (hpos : n * size + off = pos) (h : off + bytes.length ≤ size) :
    writeAt fill data (n * size) (blockAt size (writeAt fill data pos bytes) n) =
      writeAt fill data pos bytes := by
  rw [← hpos, blockAt_writeAt_self h, writeAt_writeAt_blockAt h]

/-- The blocks before the one written to stay, unless they are filled up. -/
lemma blockAt_writeAt_of_lt (hpos : n * size + off = pos) (hm : m < n)
    (hfull : (m + 1) * size ≤ data.length) :
    blockAt size (writeAt fill data pos bytes) m = blockAt size data m := by
  have hle : (m + 1) * size ≤ n * size := Nat.mul_le_mul_right size hm
  have hsucc : (m + 1) * size = m * size + size := Nat.succ_mul m size
  refine List.ext_getElem? fun i => ?_
  simp only [getElem?_blockAt, getElem?_writeAt]
  split_ifs with hsize hpos hbytes
  · rw [List.getElem?_eq_getElem (by omega), Option.getD_some]
  all_goals first | rfl | omega

/-- The blocks behind the one written to stay. -/
lemma blockAt_writeAt_of_gt (hpos : n * size + off = pos) (hm : n < m)
    (h : off + bytes.length ≤ size) :
    blockAt size (writeAt fill data pos bytes) m = blockAt size data m := by
  have hle : (n + 1) * size ≤ m * size := Nat.mul_le_mul_right size hm
  have hsucc : (n + 1) * size = n * size + size := Nat.succ_mul n size
  refine List.ext_getElem? fun i => ?_
  simp only [getElem?_blockAt, getElem?_writeAt]
  split_ifs with hsize hpos hbytes
  all_goals first | rfl | omega

end AmlaSandbox.Library
