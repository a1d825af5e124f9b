import Mathlib.Data.List.Basic
import Mathlib.Data.List.Infix
import Mathlib.Tactic.Common

/-!
# Comments and string literals of JavaScript

Where a block comment and a double-quoted string literal end, and which code units the literal
stands for, as a script that is not strict reads it.

A script that is strict has no octal escapes: `\0` is the NUL only where no digit is behind it, and
no other digit may be escaped. A string of JSON knows fewer escapes than a script, and no control
character stands in it. What quotes with no other escaping makes of a text is such a string, and one
with this value exactly if the text has no backslash and no control character.
-/

namespace AmlaSandbox.Library.JsText

/-! ## Scripts that are not strict -/

/-! ### Block comments -/

/-- What follows the first `*/`. -/
def commentRest : List Char → Option (List Char)
  | [] => none
  | [_] => none
  | c :: d :: s => if c = '*' ∧ d = '/' then some s else commentRest (d :: s)

def HasTerminator (s : List Char) : Prop := ['*', '/'] <:+: s

def terminated : List Char → Bool
  | c :: d :: s => (c = '*' && d = '/') || terminated (d :: s)
  | _ => false

section

variable {s t : List Char} {c d : Char}

lemma not_hasTerminator_nil : ¬ HasTerminator [] := by
  simp [HasTerminator]

lemma hasTerminator_cons :
    HasTerminator (c :: s) ↔ (c = '*' ∧ s.head? = some '/') ∨ HasTerminator s := by
  rw [HasTerminator, List.infix_cons_iff, HasTerminator, List.cons_prefix_cons, @eq_comm _ '*' c]
  cases s with
  | nil => simp
  | cons d s => simp [List.cons_prefix_cons, @eq_comm _ '/' d]

lemma terminated_iff : terminated s ↔ HasTerminator s := by
  induction s with
  | nil => simp [terminated, not_hasTerminator_nil]
  | cons c s ih =>
    rw [hasTerminator_cons]
    cases s with
    | nil => simp [terminated, not_hasTerminator_nil]
    | cons d s => simp [terminated, ih]

instance (s : List Char) : Decidable (HasTerminator s) := decidable_of_iff _ terminated_iff

lemma hasTerminator_append :
    HasTerminator (s ++ t) ↔
      HasTerminator s ∨ HasTerminator t ∨ (s.getLast? = some '*' ∧ t.head? = some '/') := by
  induction s with
  | nil => simp [not_hasTerminator_nil]
  | cons c s ih =>
    rw [List.cons_append, hasTerminator_cons, hasTerminator_cons, ih]
    cases s with
    | nil => simp [not_hasTerminator_nil, or_comm]
    | cons d s =>
      simp only [List.cons_append, List.head?_cons, List.getLast?_cons_cons]
      tauto

/-- A text that makes no terminator with what stands around it. -/
structure Inert (s : List Char) : Prop where
  ne_nil : s ≠ []
  head : s.head? ≠ some '/'
  last : s.getLast? ≠ some '*'
  terminator : ¬ HasTerminator s

instance (s : List Char) : Decidable (Inert s) :=
  decidable_of_iff (s ≠ [] ∧ s.head? ≠ some '/' ∧ s.getLast? ≠ some '*' ∧ ¬ HasTerminator s)
    ⟨fun ⟨h, hh, hl, ht⟩ => ⟨h, hh, hl, ht⟩, fun ⟨h, hh, hl, ht⟩ => ⟨h, hh, hl, ht⟩⟩

/-! A string of a program around texts. -/

section

variable {lit : String}

lemma hasTerminator_lit_append (h : Inert lit.toList) :
    HasTerminator (lit.toList ++ t) ↔ HasTerminator t := by
  rw [hasTerminator_append]
  simp [h.terminator, h.last]

lemma hasTerminator_append_lit (h : Inert lit.toList) :
    HasTerminator (s ++ lit.toList) ↔ HasTerminator s := by
  rw [hasTerminator_append]
  simp [h.terminator, h.head]

lemma hasTerminator_append_lit_append (h : Inert lit.toList) :
    HasTerminator (s ++ (lit.toList ++ t)) ↔ HasTerminator s ∨ HasTerminator t := by
  have head : (lit.toList ++ t).head? ≠ some '/' := by
    rw [List.head?_append_of_ne_nil _ h.ne_nil]
    exact h.head
  have apart : ¬ (s.getLast? = some '*' ∧ (lit.toList ++ t).head? = some '/') :=
    fun hc => head hc.2
  rw [hasTerminator_append, hasTerminator_lit_append h]
  tauto

end

lemma commentRest_cons_cons (h : ¬ (c = '*' ∧ d = '/')) :
    commentRest (c :: d :: s) = commentRest (d :: s) := by
  rw [commentRest, if_neg h]

lemma commentRest_of_not_hasTerminator (h : ¬ HasTerminator s) :
    commentRest (s ++ '*' :: '/' :: t) = some t := by
  induction s with
  | nil => rfl
  | cons c s ih =>
    rw [hasTerminator_cons, not_or] at h
    have hrest := ih h.2
    cases s with
    | nil => rwa [List.cons_append, List.nil_append, commentRest_cons_cons (by simp)]
    | cons d s =>
      rw [List.cons_append, List.cons_append, commentRest_cons_cons (by simpa using h.1)]
      exact hrest

/-- The first terminator is no later than a given one. -/
lemma exists_commentRest (s t : List Char) :
    ∃ rest, commentRest (s ++ '*' :: '/' :: t) = some rest ∧ t.length ≤ rest.length := by
  induction s with
  | nil => exact ⟨t, rfl, le_rfl⟩
  | cons c s ih =>
    obtain ⟨rest, hrest, hle⟩ := ih
    obtain ⟨d, u, hu⟩ : ∃ d u, s ++ '*' :: '/' :: t = d :: u := by
      cases s <;> exact ⟨_, _, rfl⟩
    rw [List.cons_append, hu]
    by_cases h : c = '*' ∧ d = '/'
    · refine ⟨u, by rw [commentRest, if_pos h], ?_⟩
      have := congrArg List.length hu
      simp only [List.length_append, List.length_cons] at this
      omega
    · exact ⟨rest, by rw [commentRest_cons_cons h, ← hu, hrest], hle⟩

/-- The first terminator is the one behind `s`, unless `s` has one. -/
theorem commentRest_eq_some_iff :
    commentRest (s ++ '*' :: '/' :: t) = some t ↔ ¬ HasTerminator s := by
  constructor
  · rintro h ⟨a, b, rfl⟩
    obtain ⟨rest, hrest, hle⟩ := exists_commentRest a (b ++ '*' :: '/' :: t)
    have : some t = some rest := by
      rw [← h, ← hrest]
      simp
    cases this
    simp only [List.length_append, List.length_cons] at hle
    omega
  · exact commentRest_of_not_hasTerminator

/-! ### Code units -/

/-- The code units of a code point in UTF-16. -/
def codePoint (n : ℕ) : List ℕ :=
  if n < 0x10000 then [n] else [0xD800 + (n - 0x10000) / 0x400, 0xDC00 + (n - 0x10000) % 0x400]

def utf16 (c : Char) : List ℕ := codePoint c.toNat

def units (s : List Char) : List ℕ := s.flatMap utf16

@[simp] lemma units_nil : units [] = [] := rfl

@[simp] lemma units_cons : units (c :: s) = utf16 c ++ units s := rfl

@[simp] lemma units_append : units (s ++ t) = units s ++ units t := List.flatMap_append

lemma length_codePoint_le (n : ℕ) : (codePoint n).length ≤ 2 := by
  unfold codePoint
  split_ifs <;> simp

lemma length_utf16_pos (c : Char) : 0 < (utf16 c).length := by
  unfold utf16 codePoint
  split_ifs <;> simp

lemma length_le_length_units (s : List Char) : s.length ≤ (units s).length := by
  induction s with
  | nil => simp
  | cons c s ih =>
    have := length_utf16_pos c
    simp only [units_cons, List.length_append, List.length_cons]
    omega

/-! ### String literals -/

def hexValue (c : Char) : Option ℕ :=
  if '0' ≤ c ∧ c ≤ '9' then some (c.toNat - '0'.toNat)
  else if 'a' ≤ c ∧ c ≤ 'f' then some (c.toNat - 'a'.toNat + 10)
  else if 'A' ≤ c ∧ c ≤ 'F' then some (c.toNat - 'A'.toNat + 10)
  else none

def hexNumber (digits : List Char) : Option ℕ :=
  digits.foldlM (fun n c => (hexValue c).map (16 * n + ·)) 0

def isOctal (c : Char) : Bool := '0' ≤ c && c ≤ '7'

def octalValue (c : Char) : ℕ := c.toNat - '0'.toNat

/-- The line breaks that may not stand in a literal. -/
def isLineBreak (c : Char) : Bool := c = '\n' || c = '\r'

/-- The code unit of `c` after a backslash where it has a meaning of its own. -/
def singleEscape (c : Char) : List ℕ :=
  match c with
  | 'b' => [0x08]
  | 't' => [0x09]
  | 'n' => [0x0A]
  | 'v' => [0x0B]
  | 'f' => [0x0C]
  | 'r' => [0x0D]
  | c => utf16 c

/-- Up to three octal digits, of a value below 256. -/
def octalEscape (c : Char) (s : List Char) : List ℕ × ℕ :=
  match s with
  | d :: e :: _ =>
    if isOctal d then
      if c ≤ '3' ∧ isOctal e then ([8 * (8 * octalValue c + octalValue d) + octalValue e], 3)
      else ([8 * octalValue c + octalValue d], 2)
    else ([octalValue c], 1)
  | [d] => if isOctal d then ([8 * octalValue c + octalValue d], 2) else ([octalValue c], 1)
  | [] => ([octalValue c], 1)

/-- `\u` with four digits, or with any number of them in braces. -/
def unicodeEscape (s : List Char) : Option (List ℕ × ℕ) :=
  if s.head? = some '{' then
    let digits := s.tail.takeWhile fun c => (hexValue c).isSome
    if s.tail[digits.length]? = some '}' ∧ digits ≠ [] then
      (hexNumber digits).bind fun n =>
        if n ≤ 0x10FFFF then some (codePoint n, digits.length + 3) else none
    else none
  else if 4 ≤ s.length then (hexNumber (s.take 4)).map fun n => ([n], 5)
  else none

/-- What a backslash and the characters behind it stand for, and how many of them there are;
`none` where that is an error. -/
def escapeSequence : List Char → Option (List ℕ × ℕ)
  | [] => none
  | c :: s =>
    if c = '\r' then some ([], if s.head? = some '\n' then 2 else 1)
    else if c = '\n' ∨ c.toNat = 0x2028 ∨ c.toNat = 0x2029 then some ([], 1)
    else if c = 'x' then
      if 2 ≤ s.length then (hexNumber (s.take 2)).map fun n => ([n], 3) else none
    else if c = 'u' then unicodeEscape s
    else if isOctal c then some (octalEscape c s)
    else some (singleEscape c, 1)

/-- The value of the literal that `s` continues behind the opening quote, and what follows the
closing one. -/
def literalRest : List Char → Option (List ℕ × List Char)
  | [] => none
  | c :: s =>
    if c = '"' then some ([], s)
    else if isLineBreak c then none
    else if c = '\\' then
      match escapeSequence s with
      | none => none
      | some (value, n) => (literalRest (s.drop n)).map fun r => (value ++ r.1, r.2)
    else (literalRest s).map fun r => (utf16 c ++ r.1, r.2)
termination_by s => s.length
decreasing_by
  · simp only [List.length_drop, List.length_cons]
    omega
  · simp

/-- A character that stands for itself in a literal. -/
def Ordinary (c : Char) : Prop := c ≠ '"' ∧ isLineBreak c = false ∧ c ≠ '\\'

instance (c : Char) : Decidable (Ordinary c) := inferInstanceAs (Decidable (_ ∧ _))

lemma length_singleEscape_le (c : Char) : (singleEscape c).length ≤ (utf16 c).length := by
  have := length_utf16_pos c
  unfold singleEscape
  split <;> first | exact this | exact le_rfl

lemma octalEscape_spec (c : Char) (s : List Char) :
    (octalEscape c s).1.length = 1 ∧ 0 < (octalEscape c s).2 ∧
      (octalEscape c s).2 ≤ s.length + 1 := by
  match s with
  | [] => simp [octalEscape]
  | [d] =>
    simp only [octalEscape]
    split_ifs <;> simp
  | d :: e :: rest =>
    simp only [octalEscape]
    split_ifs <;> simp

lemma unicodeEscape_spec {value : List ℕ} {n : ℕ} (h : unicodeEscape s = some (value, n)) :
    value.length ≤ 2 ∧ 4 ≤ n ∧ n ≤ s.length + 1 := by
  unfold unicodeEscape at h
  dsimp only at h
  split_ifs at h with hbrace hdigits hfour
  · obtain ⟨m, -, hm⟩ := Option.bind_eq_some_iff.mp h
    split_ifs at hm
    cases hm
    have hlt := (List.getElem?_eq_some_iff.mp hdigits.1).1
    have hpos := List.length_pos_of_ne_nil hdigits.2
    simp only [List.length_tail] at hlt
    exact ⟨length_codePoint_le m, by omega, by omega⟩
  · obtain ⟨m, -, hm⟩ := Option.map_eq_some_iff.mp h
    cases hm
    exact ⟨by simp, by omega, by omega⟩

/-- An escape sequence stands for no more code units than it has itself. -/
lemma escapeSequence_spec {value : List ℕ} {n : ℕ} (h : escapeSequence s = some (value, n)) :
    0 < n ∧ n ≤ s.length ∧ value.length ≤ (units (s.take n)).length := by
  cases s with
  | nil => simp [escapeSequence] at h
  | cons c s =>
    have enough {k : ℕ} (hk : k ≤ n) (hn : n ≤ (c :: s).length) :
        k ≤ (units ((c :: s).take n)).length := by
      have := length_le_length_units ((c :: s).take n)
      rw [List.length_take_of_le hn] at this
      omega
    rw [escapeSequence] at h
    split_ifs at h with hcr hlf hbreak hx htwo hu hoctal
    · cases h
      have := List.length_pos_of_ne_nil (List.ne_nil_of_mem (List.mem_of_mem_head? hlf))
      simp only [List.length_cons]
      exact ⟨by omega, by omega, Nat.zero_le _⟩
    · cases h
      exact ⟨Nat.one_pos, by simp, Nat.zero_le _⟩
    · cases h
      exact ⟨Nat.one_pos, by simp, Nat.zero_le _⟩
    · obtain ⟨m, -, hm⟩ := Option.map_eq_some_iff.mp h
      cases hm
      have hn : 3 ≤ (c :: s).length := by
        rw [List.length_cons]
        omega
      exact ⟨by omega, hn, enough (by simp) hn⟩
    · obtain ⟨hvalue, hfour, hn⟩ := unicodeEscape_spec h
      exact ⟨by omega, by simpa using hn, enough (by omega) (by simpa using hn)⟩
    · obtain ⟨hvalue, hpos, hn⟩ := octalEscape_spec c s
      rw [Option.some.inj h] at hvalue hpos hn
      exact ⟨hpos, by simpa using hn, enough (by dsimp only at *; omega) (by simpa using hn)⟩
    · cases h
      exact ⟨Nat.one_pos, by simp, by simpa using length_singleEscape_le c⟩

/-- A literal ends at a quote, and only characters that stand for themselves keep its length. -/
theorem literalRest_spec {value : List ℕ} (h : literalRest s = some (value, t)) :
    ∃ body, s = body ++ '"' :: t ∧ value.length ≤ (units body).length ∧
      (value.length = (units body).length → ∀ c ∈ body, Ordinary c) := by
  induction s using literalRest.induct generalizing value t with
  | case1 => simp [literalRest] at h
  | case2 s =>
    rw [literalRest, if_pos rfl] at h
    cases h
    exact ⟨[], by simp, by simp, by simp⟩
  | case3 c s hquote hbreak =>
    rw [literalRest, if_neg hquote, if_pos hbreak] at h
    cases h
  | case4 s hnone hquote hbreak =>
    rw [literalRest, if_neg hquote, if_neg hbreak, if_pos rfl, hnone] at h
    cases h
  | case5 s escaped n hsome hquote hbreak ih =>
    rw [literalRest, if_neg hquote, if_neg hbreak, if_pos rfl, hsome] at h
    obtain ⟨⟨value, rest⟩, hrest, heq⟩ := Option.map_eq_some_iff.mp h
    cases heq
    obtain ⟨body, hbody, hle, -⟩ := ih hrest
    obtain ⟨hpos, hn, hescaped⟩ := escapeSequence_spec hsome
    refine ⟨'\\' :: (s.take n ++ body), ?_, ?_, ?_⟩
    · rw [List.cons_append, List.append_assoc, ← hbody, List.take_append_drop]
    · simp only [units_cons, units_append, List.length_append]
      omega
    · intro hlength
      have := length_utf16_pos '\\'
      simp only [units_cons, units_append, List.length_append] at hlength
      omega
  | case6 c s hquote hbreak hslash ih =>
    rw [literalRest, if_neg hquote, if_neg hbreak, if_neg hslash] at h
    obtain ⟨⟨value, rest⟩, hrest, heq⟩ := Option.map_eq_some_iff.mp h
    cases heq
    obtain ⟨body, hbody, hle, hordinary⟩ := ih hrest
    refine ⟨c :: body, by rw [hbody, List.cons_append], ?_, ?_⟩
    · simp only [units_cons, List.length_append]
      omega
    · intro hlength
      simp only [units_cons, List.length_append] at hlength
      intro d hd
      obtain rfl | hd := List.mem_cons.mp hd
      · exact ⟨hquote, by simpa using hbreak, hslash⟩
      · exact hordinary (by omega) d hd

lemma literalRest_quote : literalRest ('"' :: t) = some ([], t) := by
  rw [literalRest, if_pos rfl]

lemma literalRest_cons (h : Ordinary c) :
    literalRest (c :: s) = (literalRest s).map fun r => (utf16 c ++ r.1, r.2) := by
  obtain ⟨hquote, hbreak, hslash⟩ := h
  rw [literalRest, if_neg hquote, if_neg (by simp [hbreak]), if_neg hslash]

lemma literalRest_lineBreak (h : isLineBreak c) : literalRest (c :: s) = none := by
  rw [literalRest, if_neg, if_pos h]
  rintro rfl
  simp [isLineBreak] at h

lemma literalRest_backslash {value : List ℕ} {n : ℕ} (h : escapeSequence s = some (value, n)) :
    literalRest ('\\' :: s) = (literalRest (s.drop n)).map fun r => (value ++ r.1, r.2) := by
  rw [literalRest, if_neg (by decide), if_neg (by decide), if_pos rfl, h]

/-- A text that is put between quotes as it is denotes itself exactly when nothing in it has a
meaning of its own. -/
theorem literalRest_eq_units_iff :
    literalRest (s ++ '"' :: t) = some (units s, t) ↔ ∀ c ∈ s, Ordinary c := by
  constructor
  · intro h
    obtain ⟨body, hbody, -, hordinary⟩ := literalRest_spec h
    rw [List.append_cancel_right hbody] at *
    exact hordinary rfl
  · intro h
    induction s with
    | nil => exact literalRest_quote
    | cons c s ih =>
      rw [List.cons_append, literalRest_cons (h c (List.mem_cons_self ..)),
        ih fun d hd => h d (List.mem_cons_of_mem _ hd)]
      rfl

end

/-! ## String literals in strict mode -/

section

variable {s t : List Char} {c : Char} {value : List ℕ} {n : ℕ}

/-- A digit behind a backslash, unless it is `0` with no digit behind it. -/
def isLegacyEscape : List Char → Bool
  | [] => false
  | c :: s => c.isDigit && !(c = '0' && !s.head?.any Char.isDigit)

/-- What a backslash and the characters behind it stand for. -/
def strictEscape (s : List Char) : Option (List ℕ × ℕ) :=
  if isLegacyEscape s then none else escapeSequence s

/-- The value of a literal, and what follows it, as `literalRest` reads them. -/
def strictRest : List Char → Option (List ℕ × List Char)
  | [] => none
  | c :: s =>
    if c = '"' then some ([], s)
    else if isLineBreak c then none
    else if c = '\\' then
      match strictEscape s with
      | none => none
      | some (value, n) => (strictRest (s.drop n)).map fun r => (value ++ r.1, r.2)
    else (strictRest s).map fun r => (utf16 c ++ r.1, r.2)
termination_by s => s.length
decreasing_by
  · simp only [List.length_drop, List.length_cons]
    omega
  · simp

/-- Between quotes the text is a literal, of this value. -/
def IsStrictLiteral (body : List Char) (value : List ℕ) : Prop :=
  ∀ rest, strictRest (body ++ '"' :: rest) = some (value, rest)

lemma strictRest_quote : strictRest ('"' :: t) = some ([], t) := by
  rw [strictRest, if_pos rfl]

lemma strictRest_cons (h : Ordinary c) :
    strictRest (c :: s) = (strictRest s).map fun r => (utf16 c ++ r.1, r.2) := by
  obtain ⟨hquote, hbreak, hslash⟩ := h
  rw [strictRest, if_neg hquote, if_neg (by simp [hbreak]), if_neg hslash]

lemma strictRest_backslash (h : strictEscape s = some (value, n)) :
    strictRest ('\\' :: s) = (strictRest (s.drop n)).map fun r => (value ++ r.1, r.2) := by
  rw [strictRest, if_neg (by decide), if_neg (by decide), if_pos rfl, h]

lemma strictRest_legacy (h : isLegacyEscape s = true) : strictRest ('\\' :: s) = none := by
  rw [strictRest, if_neg (by decide), if_neg (by decide), if_pos rfl, strictEscape, if_pos h]

end

/-! ## String literals of JSON -/

variable {s t rest : List Char} {c : Char} {value : List ℕ}

/-- The code units of a character behind a backslash. -/
def jsonEscape (c : Char) : Option (List ℕ) :=
  match c with
  | 'b' => some [0x08]
  | 'f' => some [0x0C]
  | 'n' => some [0x0A]
  | 'r' => some [0x0D]
  | 't' => some [0x09]
  | '\\' | '/' | '"' => some (utf16 c)
  | _ => none

/-- The value of the string that `s` continues behind the opening quote, and what follows the
closing one. -/
def jsonRest : List Char → Option (List ℕ × List Char)
  | [] => none
  | '\\' :: 'u' :: d₁ :: d₂ :: d₃ :: d₄ :: s =>
    (hexNumber [d₁, d₂, d₃, d₄]).bind fun n => (jsonRest s).map fun r => (n :: r.1, r.2)
  | '\\' :: c :: s =>
    (jsonEscape c).bind fun units => (jsonRest s).map fun r => (units ++ r.1, r.2)
  | c :: s =>
    if c = '"' then some ([], s)
    else if c.toNat < 0x20 ∨ c = '\\' then none
    else (jsonRest s).map fun r => (utf16 c ++ r.1, r.2)

/-- `str::replace` of quotes by escaped ones. -/
def escapeQuotes (s : List Char) : List Char :=
  s.flatMap fun c => if c = '"' then ['\\', '"'] else [c]

/-- A character that the escaping of quotes leaves as it has to be. -/
def Plain (c : Char) : Prop := c ≠ '\\' ∧ 0x20 ≤ c.toNat

instance (c : Char) : Decidable (Plain c) := inferInstanceAs (Decidable (_ ∧ _))

@[simp] lemma escapeQuotes_nil : escapeQuotes [] = [] := rfl

lemma escapeQuotes_cons (c : Char) (s : List Char) :
    escapeQuotes (c :: s) = (if c = '"' then ['\\', '"'] else [c]) ++ escapeQuotes s := rfl

lemma jsonRest_of_ne (hslash : c ≠ '\\') : jsonRest (c :: s) =
    if c = '"' then some ([], s)
    else if c.toNat < 0x20 then none
    else (jsonRest s).map fun r => (utf16 c ++ r.1, r.2) := by
  simp [jsonRest, hslash]

lemma jsonRest_quote : jsonRest ('"' :: t) = some ([], t) := by
  rw [jsonRest_of_ne (by decide), if_pos rfl]

lemma jsonRest_cons (hquote : c ≠ '"') (hplain : Plain c) :
    jsonRest (c :: s) = (jsonRest s).map fun r => (utf16 c ++ r.1, r.2) := by
  rw [jsonRest_of_ne hplain.1, if_neg hquote, if_neg (Nat.not_lt.mpr hplain.2)]

/-- A control character ends the reading. -/
lemma jsonRest_control (hslash : c ≠ '\\') (hcontrol : c.toNat < 0x20) :
    jsonRest (c :: s) = none := by
  have hquote : c ≠ '"' := by
    rintro rfl
    exact absurd hcontrol (by decide)
  rw [jsonRest_of_ne hslash, if_neg hquote, if_pos hcontrol]

lemma jsonRest_backslash
    (hu : ∀ d₁ d₂ d₃ d₄ s', c = 'u' → s = d₁ :: d₂ :: d₃ :: d₄ :: s' → False) :
    jsonRest ('\\' :: c :: s) =
      (jsonEscape c).bind fun units => (jsonRest s).map fun r => (units ++ r.1, r.2) := by
  rw [jsonRest]
  exact hu

lemma jsonRest_hex {d₁ d₂ d₃ d₄ : Char} : jsonRest ('\\' :: 'u' :: d₁ :: d₂ :: d₃ :: d₄ :: s) =
    (hexNumber [d₁, d₂, d₃, d₄]).bind fun n => (jsonRest s).map fun r => (n :: r.1, r.2) := by
  rw [jsonRest]

lemma jsonRest_escaped : jsonRest ('\\' :: '"' :: s) =
    (jsonRest s).map fun r => (utf16 '"' ++ r.1, r.2) :=
  jsonRest_backslash (by simp)

/-- A text of plain characters is read back. -/
lemma jsonRest_escapeQuotes (h : ∀ c ∈ s, Plain c) :
    jsonRest (escapeQuotes s ++ '"' :: t) = some (units s, t) := by
  induction s with
  | nil => exact jsonRest_quote
  | cons c s ih =>
    obtain ⟨hc, hs⟩ := List.forall_mem_cons.mp h
    rw [escapeQuotes_cons]
    split_ifs with hquote
    · rw [List.append_assoc, List.cons_append, List.cons_append, List.nil_append,
        jsonRest_escaped, ih hs, hquote]
      rfl
    · rw [List.append_assoc, List.cons_append, List.nil_append, jsonRest_cons hquote hc, ih hs]
      rfl

lemma length_jsonRest (h : jsonRest s = some (value, rest)) : rest.length < s.length := by
  induction s using jsonRest.induct generalizing value rest with
  | case1 => simp [jsonRest] at h
  | case2 d₁ d₂ d₃ d₄ s ih =>
    simp only [jsonRest_hex, Option.bind_eq_some_iff, Option.map_eq_some_iff] at h
    obtain ⟨n, -, r, hr, heq⟩ := h
    cases heq
    have := ih hr
    simp only [List.length_cons]
    omega
  | case3 c s hu ih =>
    rw [jsonRest_backslash hu] at h
    simp only [Option.bind_eq_some_iff, Option.map_eq_some_iff] at h
    obtain ⟨n, -, r, hr, heq⟩ := h
    cases heq
    have := ih hr
    simp only [List.length_cons]
    omega
  | case4 s =>
    rw [jsonRest_quote] at h
    cases h
    simp
  | case5 c s hu hc hquote hbad => simp [jsonRest, hquote, hbad] at h
  | case6 c s hu hc hquote hgood ih =>
    simp only [jsonRest, hquote, hgood, if_false, Option.map_eq_some_iff] at h
    obtain ⟨r, hr, heq⟩ := h
    cases heq
    have := ih hr
    simp only [List.length_cons]
    omega

lemma jsonRest_ne (h : t.length ≤ rest.length) : jsonRest t ≠ some (value, rest) := by
  intro hrest
  have := length_jsonRest hrest
  omega

lemma length_jsonEscape {units : List ℕ} (h : jsonEscape c = some units) : units.length = 1 := by
  unfold jsonEscape at h
  split at h <;> cases h <;> rfl

/-- What begins with a character of a number in hexadecimal is no quote. -/
lemma escapeQuotes_eq_cons {d : Char} {n : ℕ} (hd : hexValue d = some n)
    (h : escapeQuotes s ++ '"' :: t = d :: rest) :
    ∃ s', s = d :: s' ∧ rest = escapeQuotes s' ++ '"' :: t := by
  cases s with
  | nil =>
    obtain ⟨rfl, -⟩ := List.cons.inj h
    simp [hexValue] at hd
  | cons c s =>
    rw [escapeQuotes_cons] at h
    split_ifs at h with hquote
    · obtain ⟨rfl, -⟩ := List.cons.inj h
      simp [hexValue] at hd
    · obtain ⟨rfl, rfl⟩ := List.cons.inj h
      exact ⟨s, rfl, rfl⟩

lemma escapeQuotes_eq_four {d₁ d₂ d₃ d₄ : Char} {n : ℕ}
    (hn : hexNumber [d₁, d₂, d₃, d₄] = some n)
    (h : escapeQuotes s ++ '"' :: t = d₁ :: d₂ :: d₃ :: d₄ :: rest) :
    ∃ s', s = d₁ :: d₂ :: d₃ :: d₄ :: s' ∧ rest = escapeQuotes s' ++ '"' :: t := by
  simp only [hexNumber, List.foldlM_cons, Option.bind_eq_bind, Option.bind_eq_some_iff,
    Option.map_eq_some_iff] at hn
  obtain ⟨_, ⟨_, hd₁, -⟩, _, ⟨_, hd₂, -⟩, _, ⟨_, hd₃, -⟩, _, ⟨_, hd₄, -⟩, -⟩ := hn
  obtain ⟨s₁, rfl, h₁⟩ := escapeQuotes_eq_cons hd₁ h
  obtain ⟨s₂, rfl, h₂⟩ := escapeQuotes_eq_cons hd₂ h₁.symm
  obtain ⟨s₃, rfl, h₃⟩ := escapeQuotes_eq_cons hd₃ h₂.symm
  obtain ⟨s₄, rfl, h₄⟩ := escapeQuotes_eq_cons hd₄ h₃.symm
  exact ⟨s₄, rfl, h₄⟩

/-- The value has no more code units than the text, and as many only for a plain text. -/
def Shrinks (s : List Char) (value : List ℕ) : Prop :=
  (∀ c ∈ s, Plain c) ∧ value = units s ∨ value.length < (units s).length

lemma Shrinks.length_le (h : Shrinks s value) : value.length ≤ (units s).length := by
  rcases h with ⟨-, rfl⟩ | hlt
  · exact le_rfl
  · exact hlt.le

/-- A backslash in the text is taken for an escape, which is shorter than what it is written as. -/
lemma length_lt_of_backslash
    (ih : ∀ s' : List Char, s'.length ≤ s.length → ∀ value,
      jsonRest (escapeQuotes s' ++ '"' :: t) = some (value, t) → Shrinks s' value)
    (h : jsonRest (escapeQuotes ('\\' :: s) ++ '"' :: t) = some (value, t)) :
    value.length < (units ('\\' :: s)).length := by
  rw [escapeQuotes_cons, if_neg (by decide), List.append_assoc, List.cons_append,
    List.nil_append] at h
  cases s with
  | nil =>
    -- the closing quote is escaped
    rw [escapeQuotes_nil, List.nil_append, jsonRest_escaped, Option.map_eq_some_iff] at h
    obtain ⟨r, hr, heq⟩ := h
    cases heq
    exact absurd hr (jsonRest_ne le_rfl)
  | cons c s =>
    rw [escapeQuotes_cons] at h
    split_ifs at h with hquote
    · -- the backslash that escapes the quote is escaped itself
      rw [List.append_assoc, List.cons_append, List.cons_append, List.nil_append,
        jsonRest_backslash (by simp), jsonRest_quote] at h
      simp only [jsonEscape, Option.bind_some, Option.map_some, Option.some.injEq,
        Prod.mk.injEq] at h
      have := congrArg List.length h.2
      simp only [List.length_append, List.length_cons] at this
      omega
    rw [List.append_assoc, List.cons_append, List.nil_append] at h
    by_cases hu : ∃ d₁ d₂ d₃ d₄ w,
        c = 'u' ∧ escapeQuotes s ++ '"' :: t = d₁ :: d₂ :: d₃ :: d₄ :: w
    · obtain ⟨d₁, d₂, d₃, d₄, w, rfl, hw⟩ := hu
      rw [hw, jsonRest_hex] at h
      simp only [Option.bind_eq_some_iff, Option.map_eq_some_iff] at h
      obtain ⟨n, hn, r, hr, heq⟩ := h
      cases heq
      obtain ⟨s', rfl, rfl⟩ := escapeQuotes_eq_four hn hw
      have hle := (ih s' (by simp; omega) r.1 hr).length_le
      have hslash := length_utf16_pos '\\'
      have hchar := length_utf16_pos 'u'
      simp only [units_cons, List.length_append, List.length_cons]
      omega
    · rw [jsonRest_backslash fun d₁ d₂ d₃ d₄ w h₁ h₂ => hu ⟨d₁, d₂, d₃, d₄, w, h₁, h₂⟩] at h
      simp only [Option.bind_eq_some_iff, Option.map_eq_some_iff] at h
      obtain ⟨escaped, hescaped, r, hr, heq⟩ := h
      cases heq
      have hle := (ih s (by simp) r.1 hr).length_le
      have hone := length_jsonEscape hescaped
      have hslash := length_utf16_pos '\\'
      have hchar := length_utf16_pos c
      simp only [units_cons, List.length_append]
      omega

lemma shrinks_of_jsonRest (h : jsonRest (escapeQuotes s ++ '"' :: t) = some (value, t)) :
    Shrinks s value := by
  induction hlength : s.length using Nat.strong_induction_on generalizing s value with
  | _ n ih =>
  subst hlength
  cases s with
  | nil =>
    rw [escapeQuotes_nil, List.nil_append, jsonRest_quote] at h
    cases h
    exact .inl (by simp)
  | cons c s =>
    have ihs : ∀ s' : List Char, s'.length ≤ s.length → ∀ value,
        jsonRest (escapeQuotes s' ++ '"' :: t) = some (value, t) → Shrinks s' value :=
      fun s' hle value h => ih _ (Nat.lt_succ_of_le hle) h rfl
    by_cases hslash : c = '\\'
    · subst hslash
      exact .inr (length_lt_of_backslash ihs h)
    by_cases hcontrol : c.toNat < 0x20
    · have hquote : c ≠ '"' := by
        rintro rfl
        exact absurd hcontrol (by decide)
      rw [escapeQuotes_cons, if_neg hquote, List.append_assoc, List.cons_append,
        jsonRest_control hslash hcontrol] at h
      cases h
    have hplain : Plain c := ⟨hslash, Nat.not_lt.mp hcontrol⟩
    obtain ⟨r, hr, rfl⟩ : ∃ r, jsonRest (escapeQuotes s ++ '"' :: t) = some (r, t) ∧
        value = utf16 c ++ r := by
      rw [escapeQuotes_cons] at h
      split_ifs at h with hquote
      · subst hquote
        rw [List.append_assoc, List.cons_append, List.cons_append, List.nil_append,
          jsonRest_escaped, Option.map_eq_some_iff] at h
        obtain ⟨r, hr, heq⟩ := h
        cases heq
        exact ⟨r.1, hr, rfl⟩
      · rw [List.append_assoc, List.cons_append, List.nil_append, jsonRest_cons hquote hplain,
          Option.map_eq_some_iff] at h
        obtain ⟨r, hr, heq⟩ := h
        cases heq
        exact ⟨r.1, hr, rfl⟩
    rcases ihs s le_rfl r hr with ⟨hall, rfl⟩ | hlt
    · exact .inl ⟨List.forall_mem_cons.mpr ⟨hplain, hall⟩, rfl⟩
    · refine .inr ?_
      simp only [units_cons, List.length_append]
      omega

/-- A text is read back as it is exactly if it is plain. -/
theorem jsonRest_escapeQuotes_iff :
    jsonRest (escapeQuotes s ++ '"' :: t) = some (units s, t) ↔ ∀ c ∈ s, Plain c := by
  refine ⟨fun h => ?_, jsonRest_escapeQuotes⟩
  rcases shrinks_of_jsonRest h with ⟨hplain, -⟩ | hlt
  · exact hplain
  · exact absurd hlt (lt_irrefl _)

end AmlaSandbox.Library.JsText
