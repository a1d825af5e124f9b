import Mathlib.Data.List.Basic
import Mathlib.Tactic.Common

/-!
# Ring buffers

A list of fixed length read around the end. A slice is a run of cells from a position on; what is
written at a position is read back as a slice, and slices of other cells stay.
-/

namespace AmlaSandbox.Library.Ring

variable {α : Type*}

/-- The cell at a position, counted around the ring. -/
def at? (buf : List α) (i : ℕ) : Option α := buf[i % buf.length]?

/-- `n` cells from a position on. -/
def slice (buf : List α) (start n : ℕ) : List α := (List.range' start n).filterMap (at? buf)

/-- Overwrite the cells from a position on, without going around the end. -/
def splice (buf : List α) (i : ℕ) (src : List α) : List α :=
  buf.take i ++ src ++ buf.drop (i + src.length)

/-- `buf'` is `buf` with `src` written from a position on, around the end. -/
structure Written (buf : List α) (pos : ℕ) (src buf' : List α) : Prop where
  length_eq : buf'.length = buf.length
  new : ∀ k < src.length, at? buf' (pos + k) = src[k]?
  old : ∀ k, src.length ≤ k → k < buf.length → at? buf' (pos + k) = at? buf (pos + k)

variable {buf buf' buf'' src src' : List α} {start pos i k m n : ℕ}

/-! ### Slices -/

lemma at?_add_mod : at? buf (i % buf.length + k) = at? buf (i + k) := by
  simp only [at?, Nat.mod_add_mod]

lemma at?_add_length : at? buf (i + buf.length) = at? buf i := by
  simp only [at?, Nat.add_mod_right]

@[simp] lemma slice_zero : slice buf start 0 = [] := rfl

lemma slice_add : slice buf start (m + n) = slice buf start m ++ slice buf (start + m) n := by
  rw [slice, ← List.range'_append_1, List.filterMap_append]
  rfl

lemma slice_one (start : ℕ) (h : 0 < buf.length) :
    ∃ a, slice buf start 1 = [a] ∧ at? buf start = some a := by
  have hlt : start % buf.length < buf.length := Nat.mod_lt _ h
  refine ⟨buf[start % buf.length], ?_, List.getElem?_eq_getElem hlt⟩
  simp [slice, at?, List.getElem?_eq_getElem hlt]

lemma slice_succ_eq_cons {a : α} {l : List α} (h : 0 < buf.length) :
    slice buf start (n + 1) = a :: l ↔ at? buf start = some a ∧ slice buf (start + 1) n = l := by
  obtain ⟨c, hone, hat⟩ := slice_one start h
  rw [Nat.add_comm n 1, slice_add, hone, hat]
  simp

lemma slice_congr (h : ∀ k < n, at? buf (start + k) = at? buf' (pos + k)) :
    slice buf start n = slice buf' pos n := by
  induction n generalizing start pos with
  | zero => rfl
  | succ n ih =>
    have hhead : at? buf start = at? buf' pos := h 0 (Nat.succ_pos n)
    have htail : slice buf (start + 1) n = slice buf' (pos + 1) n := by
      apply ih
      intro k hk
      have := h (k + 1) (by omega)
      rwa [Nat.add_comm k 1, ← Nat.add_assoc, ← Nat.add_assoc] at this
    simp only [slice, List.range'_succ, List.filterMap_cons, hhead]
    simp only [slice] at htail
    rw [htail]

lemma slice_mod : slice buf (start % buf.length) n = slice buf start n :=
  slice_congr fun _ _ => at?_add_mod

lemma slice_add_length : slice buf (start + buf.length) n = slice buf start n :=
  slice_congr fun k _ => by rw [Nat.add_right_comm, at?_add_length]

lemma slice_wrap (h : start + m = buf.length) :
    slice buf start (m + n) = slice buf start m ++ slice buf 0 n := by
  have hzero : slice buf (0 + buf.length) n = slice buf 0 n := slice_add_length
  rw [slice_add, h, ← hzero, Nat.zero_add]

lemma length_slice (h : 0 < buf.length) : (slice buf start n).length = n := by
  induction n generalizing start with
  | zero => rfl
  | succ n ih =>
    obtain ⟨a, hone, _⟩ := slice_one start h
    rw [Nat.add_comm, slice_add, List.length_append, hone, ih, List.length_singleton]

/-- A slice that does not go around the end is a segment of the list. -/
lemma slice_eq_take_drop (h : start + n ≤ buf.length) :
    slice buf start n = (buf.drop start).take n := by
  induction n generalizing start with
  | zero => simp
  | succ n ih =>
    have hlt : start < buf.length := by omega
    have hat : at? buf start = some buf[start] := by
      rw [at?, Nat.mod_eq_of_lt hlt, List.getElem?_eq_getElem hlt]
    have htail : slice buf (start + 1) n = (buf.drop (start + 1)).take n := ih (by omega)
    simp only [slice, List.range'_succ, List.filterMap_cons, hat] at htail ⊢
    rw [htail, List.drop_eq_getElem_cons hlt, List.take_succ_cons]

/-- A slice that goes around the end is two segments. -/
lemma slice_eq_append (hstart : start ≤ buf.length) (hwrap : buf.length ≤ start + n)
    (hn : n ≤ buf.length) :
    slice buf start n = buf.drop start ++ buf.take (n - (buf.length - start)) := by
  obtain ⟨r, rfl⟩ : ∃ r, n = (buf.length - start) + r := ⟨n - (buf.length - start), by omega⟩
  have hend : start + (buf.length - start) = 0 + buf.length := by omega
  rw [slice_add, hend, slice_add_length, slice_eq_take_drop (by omega),
    slice_eq_take_drop (by omega), List.take_of_length_le (by simp), Nat.add_sub_cancel_left,
    List.drop_zero]

lemma take_slice (h : m ≤ n) : (slice buf start n).take m = slice buf start m := by
  obtain ⟨r, rfl⟩ := Nat.exists_eq_add_of_le h
  rcases Nat.eq_zero_or_pos buf.length with hzero | hpos
  · obtain rfl := List.length_eq_zero_iff.mp hzero
    simp [slice, at?, List.filterMap_eq_nil_iff.mpr]
  · rw [slice_add, List.take_left' (length_slice hpos)]

lemma drop_slice (h : m ≤ n) : (slice buf start n).drop m = slice buf (start + m) (n - m) := by
  obtain ⟨r, rfl⟩ := Nat.exists_eq_add_of_le h
  rcases Nat.eq_zero_or_pos buf.length with hzero | hpos
  · obtain rfl := List.length_eq_zero_iff.mp hzero
    simp [slice, at?, List.filterMap_eq_nil_iff.mpr]
  · rw [slice_add, List.drop_left' (length_slice hpos), Nat.add_sub_cancel_left]

lemma at?_slice (h : k < n) (hbuf : 0 < buf.length) :
    (slice buf start n)[k]? = at? buf (start + k) := by
  obtain ⟨a, hone, hat⟩ := slice_one (start + k) hbuf
  have hsplit : slice buf start n =
      slice buf start k ++ (slice buf (start + k) 1 ++ slice buf (start + k + 1) (n - k - 1)) := by
    rw [← slice_add, ← slice_add]
    congr 1
    omega
  rw [hsplit, List.getElem?_append_right (Nat.le_of_eq (length_slice hbuf)), length_slice hbuf,
    hone, hat]
  simp

/-! ### Writing -/

lemma written_nil : Written buf pos [] buf := ⟨rfl, by simp, fun _ _ _ => rfl⟩

lemma length_splice (h : i + src.length ≤ buf.length) : (splice buf i src).length = buf.length := by
  simp [splice]
  omega

lemma getElem?_splice (h : i + src.length ≤ buf.length) :
    (splice buf i src)[k]? =
      if i ≤ k ∧ k < i + src.length then src[k - i]? else buf[k]? := by
  have hi : (buf.take i).length = i := by simp; omega
  rw [splice]
  by_cases hlt : k < i
  · rw [List.append_assoc, List.getElem?_append_left (by omega), List.getElem?_take_of_lt hlt,
      if_neg (by omega)]
  · by_cases hsrc : k < i + src.length
    · rw [List.getElem?_append_left (by simp; omega), List.getElem?_append_right (by omega), hi,
        if_pos (by omega)]
    · rw [List.getElem?_append_right (by simp; omega), List.getElem?_drop, if_neg (by omega)]
      congr 1
      simp
      omega

lemma written_splice (h : i + src.length ≤ buf.length) : Written buf i src (splice buf i src) where
  length_eq := length_splice h
  new k hk := by
    rw [at?, length_splice h, Nat.mod_eq_of_lt (by omega), getElem?_splice h, if_pos (by omega),
      Nat.add_sub_cancel_left]
  old k hsrc hk := by
    simp only [at?, length_splice h, getElem?_splice h]
    apply if_neg
    by_cases hwrap : i + k < buf.length
    · rw [Nat.mod_eq_of_lt hwrap]
      omega
    · rw [Nat.mod_eq_sub_mod (by omega), Nat.mod_eq_of_lt (by omega)]
      omega

/-- Writing on where the first write ended. -/
lemma Written.append (h : Written buf pos src buf')
    (h' : Written buf' (pos + src.length) src' buf'')
    (hle : src.length + src'.length ≤ buf.length) : Written buf pos (src ++ src') buf'' where
  length_eq := h'.length_eq.trans h.length_eq
  new k hk := by
    rw [List.length_append] at hk
    by_cases hsrc : k < src.length
    · -- the second write does not come around to the first
      have hold := h'.old (buf.length - src.length + k) (by omega) (by rw [h.length_eq]; omega)
      have hpos : pos + src.length + (buf.length - src.length + k) = pos + k + buf.length := by
        omega
      rw [hpos, ← h.length_eq, at?_add_length, ← h'.length_eq, at?_add_length] at hold
      rw [hold, h.new k hsrc, List.getElem?_append_left hsrc]
    · have hnew := h'.new (k - src.length) (by omega)
      rw [Nat.add_assoc, Nat.add_sub_cancel' (by omega)] at hnew
      rw [hnew, List.getElem?_append_right (by omega)]
  old k hsrc hk := by
    rw [List.length_append] at hsrc
    have hold := h'.old (k - src.length) (by omega) (by rw [h.length_eq]; omega)
    rw [Nat.add_assoc, Nat.add_sub_cancel' (by omega)] at hold
    rw [hold, h.old k (by omega) hk]

lemma written_mod : Written buf (pos % buf.length) src buf' ↔ Written buf pos src buf' := by
  have hat : buf'.length = buf.length → ∀ k,
      at? buf' (pos % buf.length + k) = at? buf' (pos + k) := fun hlen k => by
    rw [← hlen, at?_add_mod]
  constructor
  · rintro ⟨hlen, hnew, hold⟩
    refine ⟨hlen, fun k hk => ?_, fun k hsrc hk => ?_⟩
    · rw [← hat hlen, hnew k hk]
    · rw [← hat hlen, hold k hsrc hk, at?_add_mod]
  · rintro ⟨hlen, hnew, hold⟩
    refine ⟨hlen, fun k hk => ?_, fun k hsrc hk => ?_⟩
    · rw [hat hlen, hnew k hk]
    · rw [hat hlen, hold k hsrc hk, at?_add_mod]

/-- Writing around the end in two segments. -/
lemma written_around (hpos : pos < buf.length) (hwrap : buf.length ≤ pos + src.length)
    (hsrc : src.length ≤ buf.length) :
    Written buf pos src
      (splice (splice buf pos (src.take (buf.length - pos))) 0 (src.drop (buf.length - pos))) := by
  have hfirst : pos + (src.take (buf.length - pos)).length = buf.length := by
    simp
    omega
  have hlen := length_splice (Nat.le_of_eq hfirst)
  have hsecond : Written (splice buf pos (src.take (buf.length - pos)))
      (pos + (src.take (buf.length - pos)).length) (src.drop (buf.length - pos))
      (splice (splice buf pos (src.take (buf.length - pos))) 0 (src.drop (buf.length - pos))) := by
    rw [← written_mod, hfirst, hlen, Nat.mod_self]
    apply written_splice
    rw [hlen]
    simp
    omega
  have hboth := (written_splice (Nat.le_of_eq hfirst)).append hsecond (by simp; omega)
  rwa [List.take_append_drop] at hboth

/-- What was written is read back. -/
lemma Written.slice_new (h : Written buf pos src buf') (hsrc : src.length ≤ buf.length) :
    slice buf' pos src.length = src := by
  rcases Nat.eq_zero_or_pos buf.length with hzero | hpos
  · obtain rfl : src = [] := List.length_eq_zero_iff.mp (by omega)
    rfl
  · rw [← h.length_eq] at hpos
    apply List.ext_getElem?
    intro k
    by_cases hk : k < src.length
    · rw [at?_slice hk hpos, h.new k hk]
    · rw [List.getElem?_eq_none (by rw [length_slice hpos]; omega),
        List.getElem?_eq_none (by omega)]

/-- The cells behind the written ones, up to the position where the write began, stay. -/
lemma Written.slice_old (h : Written buf pos src buf') (hm : src.length ≤ m)
    (hle : m + n ≤ buf.length) : slice buf' (pos + m) n = slice buf (pos + m) n := by
  apply slice_congr
  intro k hk
  rw [Nat.add_assoc]
  exact h.old (m + k) (by omega) (by omega)

/-- The cells before a write stay, as long as the write does not come around to them. -/
lemma Written.slice_before (h : Written buf (start + n) src buf')
    (hle : n + src.length ≤ buf.length) : slice buf' start n = slice buf start n := by
  have hold := h.slice_old (m := buf.length - n) (n := n) (by omega) (by omega)
  have hpos : start + n + (buf.length - n) = start + buf.length := by omega
  rwa [hpos, ← h.length_eq, slice_add_length, h.length_eq, slice_add_length] at hold

end AmlaSandbox.Library.Ring
