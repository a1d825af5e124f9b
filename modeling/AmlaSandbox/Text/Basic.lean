import Mathlib.Data.List.DropRight
import Mathlib.Tactic.Common

/-!
# Strings

A string of the source is the list of its characters. It is indexed by byte offsets in UTF-8, and
offsets at character boundaries are positions in that list; a slice that does not start or end on
one panics.
-/

namespace AmlaSandbox

/-! ## Characters -/

abbrev Text := List Char

/-- A number can be read back from its digits. -/
lemma toString_nat_injective {m n : Nat} (h : toString m = toString n) : m = n := by
  have hdigits : Nat.toDigits 10 m = Nat.toDigits 10 n := by
    simpa [Nat.toList_repr] using congrArg String.toList h
  simpa [Nat.ofDigitChars_ten_toDigits] using congrArg (Nat.ofDigitChars 10 · 0) hdigits

namespace Text

/-- The characters with the Unicode property `White_Space`. -/
def isWhitespace (c : Char) : Bool :=
  (9 ≤ c.val && c.val ≤ 13) || c.val == 32 || c.val == 0x85 || c.val == 0xA0 || c.val == 0x1680 ||
    (0x2000 ≤ c.val && c.val ≤ 0x200A) || c.val == 0x2028 || c.val == 0x2029 || c.val == 0x202F ||
    c.val == 0x205F || c.val == 0x3000

def trim (s : Text) : Text := (s.dropWhile isWhitespace).rdropWhile isWhitespace

lemma dropWhile_isWhitespace_append {text rest : Text} (hne : text ≠ [])
    (h : ∀ c ∈ text.head?, isWhitespace c = false) :
    (text ++ rest).dropWhile isWhitespace = text ++ rest := by
  cases text with
  | nil => exact absurd rfl hne
  | cons c text =>
    exact List.dropWhile_cons_of_neg (by rw [h c rfl]; exact Bool.false_ne_true)

/-- The position of the last occurrence of a character. -/
def rfind (c : Char) : Text → Option ℕ
  | [] => none
  | a :: s =>
    match rfind c s with
    | some i => some (i + 1)
    | none => if a = c then some 0 else none

variable {c : Char} {s a b : Text}

lemma rfind_eq_none (h : c ∉ s) : rfind c s = none := by
  induction s with
  | nil => rfl
  | cons a s ih =>
    rw [List.mem_cons, not_or] at h
    obtain ⟨hne, hs⟩ := h
    simp [rfind, ih hs, Ne.symm hne]

lemma rfind_append_cons (h : c ∉ b) : rfind c (a ++ c :: b) = some a.length := by
  induction a with
  | nil => simp [rfind, rfind_eq_none h]
  | cons x a ih => simp [rfind, ih]

/-- A string with the character is cut at its last occurrence. -/
lemma exists_append_cons_of_mem (h : c ∈ s) : ∃ a b, s = a ++ c :: b ∧ c ∉ b := by
  obtain ⟨b, a, hs, hb⟩ := List.eq_append_cons_of_mem (List.mem_reverse.mpr h)
  refine ⟨a.reverse, b.reverse, ?_, by simpa using hb⟩
  simpa using congrArg List.reverse hs

/-- The parts between the occurrences of a character do not have it. -/
lemma not_mem_of_mem_splitOn {part : Text} (h : part ∈ s.splitOn c) : c ∉ part := by
  induction s generalizing part with
  | nil =>
    obtain rfl : part = [] := by simpa using h
    simp
  | cons a s ih =>
    rw [List.splitOn_cons_eq_if_modifyHead] at h
    split_ifs at h with ha
    · rcases List.mem_cons.mp h with rfl | h
      · simp
      · exact ih h
    · cases hs : s.splitOn c with
      | nil => simp [hs] at h
      | cons first rest =>
        rw [hs, List.modifyHead_cons, List.mem_cons] at h
        rcases h with rfl | h
        · have hfirst : c ∉ first := ih (by simp [hs])
          simp only [beq_iff_eq] at ha
          simp [hfirst, Ne.symm ha]
        · exact ih (by simp [hs, h])

end Text

/-! ## Byte offsets -/

namespace Text

/-- `s.len()` -/
def byteLen : Text → ℕ
  | [] => 0
  | c :: s => c.utf8Size + byteLen s

/-- `s[pos..]`; `none` is a panic. -/
def sliceFrom : Text → ℕ → Option Text
  | s, 0 => some s
  | [], _ + 1 => none
  | c :: s, pos + 1 => if pos + 1 < c.utf8Size then none else sliceFrom s (pos + 1 - c.utf8Size)

/-- `s[..n]`; `none` is a panic. -/
def sliceTo : Text → ℕ → Option Text
  | _, 0 => some []
  | [], _ + 1 => none
  | c :: s, n + 1 =>
    if n + 1 < c.utf8Size then none else (sliceTo s (n + 1 - c.utf8Size)).map (c :: ·)

/-- `s[a..b]` -/
def slice (s : Text) (a b : ℕ) : Option Text := (sliceFrom s a).bind fun t => sliceTo t (b - a)

/-- The byte offset of the first occurrence of a character. -/
def find (c : Char) (s : Text) : Option ℕ :=
  if c ∈ s then some (byteLen (s.takeWhile (· ≠ c))) else none

variable {s a b : Text} {c : Char} {pos : ℕ}

@[simp] lemma byteLen_nil : byteLen [] = 0 := rfl

@[simp] lemma byteLen_cons : byteLen (c :: s) = c.utf8Size + byteLen s := rfl

@[simp] lemma byteLen_append : byteLen (a ++ b) = byteLen a + byteLen b := by
  induction a with
  | nil => simp
  | cons c a ih => rw [List.cons_append, byteLen_cons, ih, byteLen_cons, Nat.add_assoc]

/-- The bytes of the first character, and those behind it. -/
lemma exists_byteLen_cons (c : Char) (a : Text) : ∃ n, byteLen (c :: a) = n + 1 ∧
    ¬ n + 1 < c.utf8Size ∧ n + 1 - c.utf8Size = byteLen a := by
  have hpos := c.utf8Size_pos
  refine ⟨c.utf8Size + byteLen a - 1, ?_⟩
  rw [byteLen_cons]
  omega

lemma sliceFrom_append : sliceFrom (a ++ b) (byteLen a) = some b := by
  induction a with
  | nil =>
    cases b <;> rfl
  | cons c a ih =>
    obtain ⟨n, hn, hle, hlen⟩ := exists_byteLen_cons c a
    rw [hn, List.cons_append, sliceFrom, if_neg hle, hlen, ih]

lemma exists_of_sliceFrom (h : sliceFrom s pos = some b) : ∃ a, s = a ++ b ∧ pos = byteLen a := by
  induction s generalizing pos with
  | nil =>
    cases pos with
    | zero => exact ⟨[], Option.some.inj h, rfl⟩
    | succ pos => cases h
  | cons c s ih =>
    cases pos with
    | zero => exact ⟨[], Option.some.inj h, rfl⟩
    | succ pos =>
      rw [sliceFrom] at h
      split_ifs at h with hlt
      obtain ⟨a, rfl, hpos⟩ := ih h
      refine ⟨c :: a, rfl, ?_⟩
      rw [byteLen_cons]
      omega

/-- A slice can be cut again. -/
lemma sliceFrom_add (h : sliceFrom s pos = some (a ++ b)) :
    sliceFrom s (pos + byteLen a) = some b := by
  obtain ⟨front, rfl, rfl⟩ := exists_of_sliceFrom h
  rw [← List.append_assoc, ← byteLen_append, sliceFrom_append]

lemma sliceFrom_cons (h : sliceFrom s pos = some (c :: b)) :
    sliceFrom s (pos + c.utf8Size) = some b := by
  have hadd := sliceFrom_add (a := [c]) h
  simpa using hadd

lemma pos_add_byteLen (h : sliceFrom s pos = some b) : pos + byteLen b = byteLen s := by
  obtain ⟨a, rfl, rfl⟩ := exists_of_sliceFrom h
  rw [byteLen_append]

lemma sliceFrom_byteLen : sliceFrom s (byteLen s) = some [] := by
  have hslice : sliceFrom (s ++ []) (byteLen s) = some [] := sliceFrom_append
  rwa [List.append_nil] at hslice

lemma byteLen_eq_zero : byteLen s = 0 ↔ s = [] := by
  cases s with
  | nil => simp
  | cons c s =>
    have hpos := c.utf8Size_pos
    simp only [byteLen_cons, reduceCtorEq, iff_false]
    omega

/-- Before the end there is a character. -/
lemma pos_lt_iff (h : sliceFrom s pos = some b) : pos < byteLen s ↔ b ≠ [] := by
  have hlen := pos_add_byteLen h
  rw [← not_iff_not, not_ne_iff, ← byteLen_eq_zero]
  omega

lemma sliceTo_append : sliceTo (a ++ b) (byteLen a) = some a := by
  induction a with
  | nil => cases b <;> rfl
  | cons c a ih =>
    obtain ⟨n, hn, hle, hlen⟩ := exists_byteLen_cons c a
    rw [hn, List.cons_append, sliceTo, if_neg hle, hlen, ih, Option.map_some]

/-- Inside a character there is no boundary. -/
lemma sliceFrom_eq_none (h : sliceFrom s pos = some (c :: b)) {n : ℕ} (hn : 0 < n)
    (hlt : n < c.utf8Size) : sliceFrom s (pos + n) = none := by
  cases hslice : sliceFrom s (pos + n) with
  | none => rfl
  | some t =>
    exfalso
    obtain ⟨a, rfl, rfl⟩ := exists_of_sliceFrom h
    obtain ⟨a', heq, hlen⟩ := exists_of_sliceFrom hslice
    rcases List.append_eq_append_iff.mp heq with ⟨m, rfl, hm⟩ | ⟨m, rfl, hm⟩
    · rw [byteLen_append] at hlen
      cases m with
      | nil => simp at hlen; omega
      | cons d m =>
        obtain rfl := (List.cons.inj hm).1
        rw [byteLen_cons] at hlen
        omega
    · rw [byteLen_append] at hlen
      omega

lemma slice_append (h : sliceFrom s pos = some (a ++ b)) :
    slice s pos (pos + byteLen a) = some a := by
  rw [slice, h, Option.bind_some, Nat.add_sub_cancel_left, sliceTo_append]

lemma find_eq_some {n : ℕ} (h : find c s = some n) :
    ∃ a b, s = a ++ c :: b ∧ n = byteLen a := by
  rw [find] at h
  split_ifs at h with hmem
  obtain rfl := Option.some.inj h
  obtain ⟨a, b, rfl, ha⟩ := List.eq_append_cons_of_mem hmem
  have htake : (a ++ c :: b).takeWhile (· ≠ c) = a := by
    rw [List.takeWhile_append_of_pos]
    · simp
    · intro x hx
      simpa using ne_of_mem_of_not_mem hx ha
  exact ⟨a, b, rfl, by rw [htake]⟩

lemma intercalate_cons {sep line : Text} {back : List Text} :
    sep.intercalate (line :: back) = line ++ back.flatMap (sep ++ ·) := by
  induction back generalizing line with
  | nil => simp
  | cons next back ih =>
    rw [List.intercalate_cons_cons, ih]
    simp

/-- The parts before a part end in the separator, those behind it start with it. -/
lemma intercalate_append_cons {sep line : Text} {front back : List Text} :
    sep.intercalate (front ++ line :: back) =
      front.flatMap (· ++ sep) ++ (line ++ back.flatMap (sep ++ ·)) := by
  induction front with
  | nil => exact intercalate_cons
  | cons first front ih =>
    rw [List.cons_append, List.intercalate_cons_of_ne_nil (by simp), ih]
    simp

end Text

end AmlaSandbox
