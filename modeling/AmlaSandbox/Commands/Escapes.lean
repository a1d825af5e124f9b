import AmlaSandbox.Text.Numbers
import AmlaSandbox.Text.Utf8
import Mathlib.Algebra.Order.BigOperators.Group.List
import Mathlib.Algebra.Order.Group.Nat

/-!
# Backslash escapes

`echo -e` and `printf` scan a text in the same way. They push a character for each escape, and the
text is written as UTF-8.
-/

namespace AmlaSandbox.Commands.Escapes

open Text

/-! ### The scanner -/

def isOctalDigit (c : Char) : Bool := c.isDigit && c < '8'

/-- The loop over at most `n` digits: the digits, and the characters that are left. -/
def takeOctal : ℕ → Text → Text × Text
  | 0, chars => ([], chars)
  | _ + 1, [] => ([], [])
  | n + 1, c :: chars =>
    if isOctalDigit c then
      let r := takeOctal n chars
      (c :: r.1, r.2)
    else ([], c :: chars)

def octalValue (digits : Text) : ℕ := digits.foldl (fun n c => 8 * n + (c.toNat - '0'.toNat)) 0

/-- `u8::from_str_radix(octal, 8)` -/
def fromOctal (octal : Text) : Option UInt8 :=
  if octalValue octal < 256 then some (UInt8.ofNat (octalValue octal)) else none

/-- What is pushed for a backslash before these characters, and the characters that are left. -/
def escape : Text → Text × Text
  | [] => (['\\'], [])
  | c :: chars =>
    if c = 'n' then (['\n'], chars)
    else if c = 't' then (['\t'], chars)
    else if c = 'r' then (['\r'], chars)
    else if c = '\\' then (['\\'], chars)
    else if c = '0' then
      let r := takeOctal 3 chars
      if r.1 = [] then (['\x00'], r.2)
      else
        match fromOctal r.1 with
        | some n => ([Char.ofNat n.toNat], r.2)
        | none => ([], r.2)
    else (['\\', c], chars)

lemma takeOctal_suffix (n : ℕ) (chars : Text) : (takeOctal n chars).2 <:+ chars := by
  induction chars generalizing n with
  | nil => cases n <;> simp [takeOctal]
  | cons c chars ih =>
    cases n with
    | zero => simp [takeOctal]
    | succ n =>
      rw [takeOctal]
      split_ifs with hc
      · exact (ih n).trans (List.suffix_cons c chars)
      · simp

lemma escape_suffix (chars : Text) : (escape chars).2 <:+ chars := by
  cases chars with
  | nil => simp [escape]
  | cons c chars =>
    have hdigits := (takeOctal_suffix 3 chars).trans (List.suffix_cons c chars)
    have hrest := List.suffix_cons c chars
    rw [escape]
    split_ifs
    · exact hrest
    · exact hrest
    · exact hrest
    · exact hrest
    · simp only
      split_ifs
      · exact hdigits
      · cases fromOctal (takeOctal 3 chars).1 <;> exact hdigits
    · exact hrest

/-! ### echo -/

def interpretEscapeSequences : Text → Text
  | [] => []
  | c :: chars =>
    if c = '\\' then (escape chars).1 ++ interpretEscapeSequences (escape chars).2
    else c :: interpretEscapeSequences chars
termination_by s => s.length
decreasing_by
  · exact Nat.lt_succ_of_le (escape_suffix chars).length_le
  · simp

def help : Text :=
  ("echo - display a line of text\n\nUsage: echo [OPTIONS] [STRING...]\n\nOptions:\n" ++
    "  --help        Show this help message\n" ++
    "  -n            Do not output trailing newline\n" ++
    "  -e            Enable interpretation of backslash escapes\n" ++
    "  -E            Disable interpretation of backslash escapes (default)\n" ++
    "\nEscape sequences (with -e):\n" ++
    "  \\\\    backslash\n  \\n    newline\n  \\t    tab\n  \\r    carriage return\n" ++
    "  \\0NNN octal byte value\n\nExamples:\n" ++
    "  echo hello world        Print 'hello world'\n" ++
    "  echo -n no newline      Print without trailing newline\n" ++
    "  echo -e 'a\\nb'          Print with newline between a and b\n").toList

structure EchoOptions where
  noNewline : Bool
  interpretEscapes : Bool

/-- The loop over the characters behind a dash, and whether all of them are options. -/
def optionChars : Text → EchoOptions → EchoOptions × Bool
  | [], opts => (opts, true)
  | c :: chars, opts =>
    if c = 'n' then optionChars chars { opts with noNewline := true }
    else if c = 'e' then optionChars chars { opts with interpretEscapes := true }
    else if c = 'E' then optionChars chars { opts with interpretEscapes := false }
    else (opts, false)

/-- The loop over the arguments: the options, and the arguments to print. -/
def parseOptions : List Text → EchoOptions → EchoOptions × List Text
  | [], opts => (opts, [])
  | arg :: args, opts =>
    if arg.head? = some '-' ∧ 1 < byteLen arg then
      match optionChars arg.tail opts with
      | (opts, true) => parseOptions args opts
      -- the options before the unknown one are in force
      | (opts, false) => (opts, arg :: args)
    else (opts, arg :: args)

/-- What `echo` writes. -/
def echo (argv : List Text) : List UInt8 :=
  if argv[1]? = some "--help".toList ∨ argv[1]? = some "-h".toList then utf8 help
  else
    let (opts, args) := parseOptions argv.tail ⟨false, false⟩
    let output := [' '].intercalate args
    let output := if opts.interpretEscapes then interpretEscapeSequences output else output
    utf8 (if opts.noNewline then output else output ++ ['\n'])

/-! ### printf -/

/-- `n.to_string()` -/
def intText (n : ℤ) : Text :=
  if n < 0 then '-' :: Nat.toDigits 10 n.natAbs else Nat.toDigits 10 n.natAbs

/-- A number in another radix, as the 64 bits of an `i64`. -/
def bitsText (radix : ℕ) (n : ℤ) : Text := Nat.toDigits radix (n % 2 ^ 64).toNat

/-- A number for a value, or a zero where there is none. -/
def number (text : ℤ → Text) (values : List Text) : Text :=
  match values with
  | value :: _ => text ((parseI64 value).getD 0)
  | [] => ['0']

/-- What is pushed for a percent sign before these characters, the characters and the values that
are left. -/
def directive (values : List Text) : Text → Text × Text × List Text
  | [] => (['%'], [], values)
  | c :: chars =>
    if c = '%' then (['%'], chars, values)
    else if c = 's' then (values.headD [], chars, values.tail)
    else if c = 'd' then (number intText values, chars, values.tail)
    else if c = 'x' then (number (bitsText 16) values, chars, values.tail)
    else if c = 'X' then
      (number (fun n => (bitsText 16 n).map Char.toUpper) values, chars, values.tail)
    else if c = 'o' then (number (bitsText 8) values, chars, values.tail)
    else if c = 'c' then ((values.headD []).take 1, chars, values.tail)
    else (['%', c], chars, values)

lemma directive_suffix (values : List Text) (chars : Text) :
    (directive values chars).2.1 <:+ chars := by
  cases chars with
  | nil => simp [directive]
  | cons c chars =>
    rw [directive]
    split_ifs <;> exact List.suffix_cons c chars

/-- The loop over the format. -/
def format (values : List Text) : Text → Text
  | [] => []
  | c :: chars =>
    if c = '\\' then (escape chars).1 ++ format values (escape chars).2
    else if c = '%' then
      let r := directive values chars
      r.1 ++ format r.2.2 r.2.1
    else c :: format values chars
termination_by s => s.length
decreasing_by
  · exact Nat.lt_succ_of_le (escape_suffix chars).length_le
  · exact Nat.lt_succ_of_le (directive_suffix values chars).length_le
  · simp

/-- What `printf` writes, or the error. -/
def printf (argv : List Text) : Except Text (List UInt8) :=
  match argv.tail with
  | [] => .error "printf: missing format".toList
  | fmt :: values => .ok (utf8 (format values fmt))

variable {s chars : Text} {values : List Text}

/-- Without a percent sign the two scanners do the same. -/
lemma format_eq (h : '%' ∉ s) : format values s = interpretEscapeSequences s := by
  induction s using interpretEscapeSequences.induct with
  | case1 => simp [format, interpretEscapeSequences]
  | case2 chars ih =>
    have hleft : '%' ∉ (escape chars).2 := fun hmem =>
      h (List.mem_cons_of_mem _ ((escape_suffix chars).subset hmem))
    rw [format, interpretEscapeSequences, if_pos rfl, if_pos rfl, ih hleft]
  | case3 c chars hc ih =>
    rw [List.mem_cons, not_or] at h
    rw [format, interpretEscapeSequences, if_neg hc, if_neg hc, if_neg (Ne.symm h.1), ih h.2]

/-! ### What should be written -/

/-- The escapes of one character. -/
inductive Letter
  | newline
  | tab
  | carriageReturn
  | backslash

def Letter.char : Letter → Char
  | .newline => 'n'
  | .tab => 't'
  | .carriageReturn => 'r'
  | .backslash => '\\'

def Letter.byte : Letter → UInt8
  | .newline => 10
  | .tab => 9
  | .carriageReturn => 13
  | .backslash => 92

/-- Up to three octal digits. -/
structure Octal where
  digits : Text
  octal : ∀ c ∈ digits, isOctalDigit c = true
  length_le : digits.length ≤ 3

def Octal.value (o : Octal) : ℕ := octalValue o.digits

/-- A pair that is no escape. -/
structure Pair where
  char : Char
  no_letter : ∀ l : Letter, char ≠ l.char
  no_octal : char ≠ '0'

inductive Piece
  | char (c : Char)
  | letter (l : Letter)
  | octal (o : Octal)
  | pair (p : Pair)

namespace Piece

/-- What the piece is written as. -/
def source : Piece → Text
  | .char c => [c]
  | .letter l => ['\\', l.char]
  | .octal o => '\\' :: '0' :: o.digits
  | .pair p => ['\\', p.char]

/-- The bytes that the piece denotes, where octal digits are those of a byte. -/
def bytes : Piece → List UInt8
  | .char c => utf8 [c]
  | .letter l => [l.byte]
  | .octal o => [UInt8.ofNat o.value]
  | .pair p => utf8 ['\\', p.char]

def isEscape : Piece → Bool
  | .letter _ | .octal _ => true
  | .char _ | .pair _ => false

/-- An escape of a byte above the ASCII range. -/
def isHigh : Piece → Bool
  | .octal o => 128 ≤ o.value
  | .char _ | .letter _ | .pair _ => false

end Piece

/-- No digit could follow these ones. -/
def Octal.IsWhole (o : Octal) (s : Text) : Prop :=
  o.digits.length = 3 ∨ s.head?.all (!isOctalDigit ·) = true

/-- A string as characters, escapes and other pairs, from the left. An octal escape has all the
digits it can have, and a backslash without a character behind it is a character. -/
inductive Reads : Text → List Piece → Prop
  | nil : Reads [] []
  | lone : Reads ['\\'] [.char '\\']
  | char {c : Char} {s pieces} : c ≠ '\\' → Reads s pieces → Reads (c :: s) (.char c :: pieces)
  | letter {l : Letter} {s pieces} :
    Reads s pieces → Reads ('\\' :: l.char :: s) (.letter l :: pieces)
  | octal {o : Octal} {s pieces} : o.IsWhole s → Reads s pieces →
    Reads ('\\' :: '0' :: (o.digits ++ s)) (.octal o :: pieces)
  | pair {p : Pair} {s pieces} :
    Reads s pieces → Reads ('\\' :: p.char :: s) (.pair p :: pieces)

def isOptionChar (c : Char) : Bool := c = 'n' || c = 'e' || c = 'E'

/-- The option characters at the front of an argument, behind a dash. -/
def optionPart (s : Text) : Text := if s.head? = some '-' then s.tail.takeWhile isOptionChar else []

/-- The argument is options of `echo` and nothing else. -/
def IsOptions (s : Text) : Prop := optionPart s ≠ [] ∧ s = '-' :: optionPart s

/-- The last of the option characters on escapes is `E`. -/
def SwitchesOff (s : Text) : Prop := (optionPart s).reverse.find? (· ≠ 'n') = some 'E'

/-- `echo -n -e s`, and `printf s` where there is no percent sign, write the bytes that are
denoted. -/
structure EmitsBytes (s : Text) (pieces : List Piece) : Prop where
  echo : echo ["echo".toList, "-n".toList, "-e".toList, s] = pieces.flatMap Piece.bytes
  printf : '%' ∉ s → printf ["printf".toList, s] = .ok (pieces.flatMap Piece.bytes)

/-! ### Readings -/

variable {pieces pieces' : List Piece} {o : Octal} {digits : Text} {n : ℕ}

/-- What the scanner pushes for a piece. -/
def Piece.text : Piece → Text
  | .char c => [c]
  | .letter l => [Char.ofNat l.byte.toNat]
  | .octal o => ((fromOctal o.digits).map fun n => Char.ofNat n.toNat).toList
  | .pair p => ['\\', p.char]

lemma Letter.char_ne_zero (l : Letter) : l.char ≠ '0' := by cases l <;> decide

lemma Letter.char_injective : Function.Injective Letter.char := by
  intro l l' h
  cases l <;> cases l' <;> first | rfl | exact absurd h (by decide)

lemma takeOctal_append (hoctal : ∀ c ∈ digits, isOctalDigit c = true) (hle : digits.length ≤ n)
    (hwhole : digits.length = n ∨ s.head?.all (!isOctalDigit ·) = true) :
    takeOctal n (digits ++ s) = (digits, s) := by
  induction digits generalizing n with
  | nil =>
    cases n with
    | zero => simp [takeOctal]
    | succ n =>
      cases s with
      | nil => simp [takeOctal]
      | cons c s =>
        have hc : isOctalDigit c = false := by simpa using hwhole
        simp [takeOctal, hc]
  | cons c digits ih =>
    cases n with
    | zero => simp at hle
    | succ n =>
      rw [List.forall_mem_cons] at hoctal
      have htake := ih hoctal.2 (by simpa using hle) (by simpa using hwhole)
      simp [takeOctal, hoctal.1, htake]

/-- The loop takes all the digits there can be. -/
lemma exists_takeOctal (n : ℕ) (s : Text) : ∃ digits back, s = digits ++ back ∧
    (∀ c ∈ digits, isOctalDigit c = true) ∧ digits.length ≤ n ∧
      (digits.length = n ∨ back.head?.all (!isOctalDigit ·) = true) := by
  induction s generalizing n with
  | nil => exact ⟨[], [], rfl, by simp, by simp, .inr rfl⟩
  | cons c s ih =>
    cases n with
    | zero => exact ⟨[], c :: s, rfl, by simp, by simp, .inl rfl⟩
    | succ n =>
      cases hc : isOctalDigit c with
      | false => exact ⟨[], c :: s, rfl, by simp, by simp, .inr (by simp [hc])⟩
      | true =>
        obtain ⟨digits, back, rfl, hoctal, hle, hwhole⟩ := ih n
        refine ⟨c :: digits, back, rfl, ?_, by simpa using hle, by simpa using hwhole⟩
        rw [List.forall_mem_cons]
        exact ⟨hc, hoctal⟩

lemma escape_letter (l : Letter) : escape (l.char :: s) = ((Piece.letter l).text, s) := by
  cases l <;> rfl

lemma escape_octal (h : o.IsWhole s) :
    escape ('0' :: (o.digits ++ s)) = ((Piece.octal o).text, s) := by
  have htake := takeOctal_append o.octal o.length_le h
  by_cases hnil : o.digits = []
  · rw [hnil, List.nil_append] at htake
    rw [Piece.text, hnil, List.nil_append]
    simp only [escape, htake]
    rfl
  · cases hbyte : fromOctal o.digits <;> simp [escape, htake, hnil, Piece.text, hbyte]

lemma escape_pair (p : Pair) : escape (p.char :: s) = ((Piece.pair p).text, s) := by
  have hn : p.char ≠ 'n' := p.no_letter .newline
  have ht : p.char ≠ 't' := p.no_letter .tab
  have hr : p.char ≠ 'r' := p.no_letter .carriageReturn
  have hbackslash : p.char ≠ '\\' := p.no_letter .backslash
  simp [escape, hn, ht, hr, hbackslash, p.no_octal, Piece.text]

/-- The scanner pushes something for each piece. -/
lemma Reads.interpret (h : Reads s pieces) :
    interpretEscapeSequences s = pieces.flatMap Piece.text := by
  induction h with
  | nil => simp [interpretEscapeSequences]
  | lone => simp [interpretEscapeSequences, escape, Piece.text]
  | char hc _ ih => simp [interpretEscapeSequences, hc, Piece.text, ih]
  | letter _ ih =>
    rw [interpretEscapeSequences, if_pos rfl, escape_letter, ih, List.flatMap_cons]
  | octal hwhole _ ih =>
    rw [interpretEscapeSequences, if_pos rfl, escape_octal hwhole, ih, List.flatMap_cons]
  | pair _ ih =>
    rw [interpretEscapeSequences, if_pos rfl, escape_pair, ih, List.flatMap_cons]

lemma Reads.source (h : Reads s pieces) : s = pieces.flatMap Piece.source := by
  induction h with
  | nil => rfl
  | lone => rfl
  | char _ _ ih => rw [List.flatMap_cons, ← ih]; rfl
  | letter _ ih => rw [List.flatMap_cons, ← ih]; rfl
  | octal _ _ ih => rw [List.flatMap_cons, ← ih]; rfl
  | pair _ ih => rw [List.flatMap_cons, ← ih]; rfl

/-- Every string can be read. -/
lemma exists_reads (s : Text) : ∃ pieces, Reads s pieces := by
  induction s using interpretEscapeSequences.induct with
  | case1 => exact ⟨_, .nil⟩
  | case2 chars ih =>
    cases chars with
    | nil => exact ⟨_, .lone⟩
    | cons c s =>
      by_cases hletter : ∃ l : Letter, c = l.char
      · obtain ⟨l, rfl⟩ := hletter
        rw [escape_letter] at ih
        obtain ⟨pieces, h⟩ := ih
        exact ⟨_, .letter h⟩
      · by_cases hzero : c = '0'
        · obtain ⟨digits, back, rfl, hoctal, hle, hwhole⟩ := exists_takeOctal 3 s
          have hescape := escape_octal (o := ⟨digits, hoctal, hle⟩) hwhole
          rw [hzero, hescape] at ih
          obtain ⟨pieces, h⟩ := ih
          subst hzero
          exact ⟨_, .octal (o := ⟨digits, hoctal, hle⟩) hwhole h⟩
        · have hpair := escape_pair (s := s) ⟨c, not_exists.mp hletter, hzero⟩
          rw [hpair] at ih
          obtain ⟨pieces, h⟩ := ih
          exact ⟨_, .pair (p := ⟨c, not_exists.mp hletter, hzero⟩) h⟩
  | case3 c chars hc ih =>
    obtain ⟨pieces, h⟩ := ih
    exact ⟨_, .char hc h⟩

lemma Reads.backslash (h : Reads ('\\' :: chars) pieces) :
    (chars = [] ∧ pieces = [.char '\\']) ∨
      (∃ l s ps, chars = Letter.char l :: s ∧ pieces = .letter l :: ps ∧ Reads s ps) ∨
      (∃ o s ps, chars = '0' :: (Octal.digits o ++ s) ∧ o.IsWhole s ∧ pieces = .octal o :: ps ∧
        Reads s ps) ∨
      ∃ p s ps, chars = Pair.char p :: s ∧ pieces = .pair p :: ps ∧ Reads s ps := by
  cases h with
  | lone => exact .inl ⟨rfl, rfl⟩
  | char hc _ => exact absurd rfl hc
  | letter h => exact .inr (.inl ⟨_, _, _, rfl, rfl, h⟩)
  | octal hwhole h => exact .inr (.inr (.inl ⟨_, _, _, rfl, hwhole, rfl, h⟩))
  | pair h => exact .inr (.inr (.inr ⟨_, _, _, rfl, rfl, h⟩))

/-- There is only one reading. -/
lemma Reads.unique (h : Reads s pieces) (h' : Reads s pieces') : pieces = pieces' := by
  induction h generalizing pieces' with
  | nil => cases h'; rfl
  | lone =>
    rcases h'.backslash with ⟨-, rfl⟩ | ⟨_, _, _, hc, _⟩ | ⟨_, _, _, hc, _⟩ | ⟨_, _, _, hc, _⟩
    · rfl
    · cases hc
    · cases hc
    · cases hc
  | char hc _ ih =>
    cases h' with
    | char _ h' => rw [ih h']
    | _ => exact absurd rfl hc
  | @letter l s _ h ih =>
    rcases h'.backslash with ⟨hc, -⟩ | ⟨l', _, _, hc, rfl, hs⟩ | ⟨_, _, _, hc, _⟩ | ⟨p, _, _, hc, _⟩
    · cases hc
    · obtain ⟨hl, rfl⟩ := List.cons.inj hc
      rw [Letter.char_injective hl, ih hs]
    · exact absurd (List.cons.inj hc).1 l.char_ne_zero
    · exact absurd (List.cons.inj hc).1.symm (p.no_letter l)
  | @octal o s _ hwhole h ih =>
    rcases h'.backslash with ⟨hc, -⟩ | ⟨l, _, _, hc, _⟩ | ⟨o', _, _, hc, hwhole', rfl, hs⟩ |
      ⟨p, _, _, hc, _⟩
    · cases hc
    · exact absurd (List.cons.inj hc).1.symm l.char_ne_zero
    · have htake := takeOctal_append o.octal o.length_le hwhole
      rw [(List.cons.inj hc).2, takeOctal_append o'.octal o'.length_le hwhole'] at htake
      obtain ⟨hdigits, rfl⟩ := Prod.mk.inj htake
      obtain ⟨digits, _, _⟩ := o
      obtain ⟨digits', _, _⟩ := o'
      cases hdigits
      rw [ih hs]
    · exact absurd (List.cons.inj hc).1.symm p.no_octal
  | @pair p s _ h ih =>
    rcases h'.backslash with ⟨hc, -⟩ | ⟨l, _, _, hc, _⟩ | ⟨_, _, _, hc, _⟩ |
      ⟨⟨_, _, _⟩, _, _, hc, rfl, hs⟩
    · cases hc
    · exact absurd (List.cons.inj hc).1 (p.no_letter l)
    · exact absurd (List.cons.inj hc).1 p.no_octal
    · obtain ⟨char, _, _⟩ := p
      obtain ⟨rfl, rfl⟩ := List.cons.inj hc
      rw [ih hs]

/-! ### Bytes -/

/-- Two concatenations where the first one has the longer parts are the same if and only if no part
is longer. -/
lemma flatMap_eq_iff {α β : Type*} {f g : α → List β} {P : α → Prop} {l : List α}
    (heq : ∀ x ∈ l, P x → f x = g x) (hlt : ∀ x ∈ l, ¬ P x → (g x).length < (f x).length) :
    l.flatMap f = l.flatMap g ↔ ∀ x ∈ l, P x := by
  have hle : ∀ x ∈ l, (g x).length ≤ (f x).length := by
    intro x hx
    by_cases hP : P x
    · rw [heq x hx hP]
    · exact (hlt x hx hP).le
  refine ⟨fun h x hx => ?_, fun h => List.flatMap_congr fun x hx => heq x hx (h x hx)⟩
  by_contra hP
  have hlen : (l.map fun x => (g x).length).sum < (l.map fun x => (f x).length).sum :=
    List.sum_lt_sum _ _ hle ⟨x, hx, hlt x hx hP⟩
  rw [← List.length_flatMap, ← List.length_flatMap, h] at hlen
  exact lt_irrefl _ hlen

lemma utf8_flatMap (f : Piece → Text) : utf8 (pieces.flatMap f) = pieces.flatMap (utf8 <| f ·) :=
  List.flatMap_assoc

variable {p : Piece}

lemma toNat_ofNat (hn : n < 256) : (Char.ofNat n).toNat = n :=
  congrArg Char.toNat (dif_pos (.inl (by omega)))

lemma utf8_ofNat (hn : n < 128) : utf8 [Char.ofNat n] = [UInt8.ofNat n] := by
  have hnat := toNat_ofNat (hn.trans (by decide))
  have hascii : isAscii (Char.ofNat n) = true := decide_eq_true (by rwa [hnat])
  rw [utf8_cons_of_isAscii hascii, utf8_nil]
  congr 1
  apply UInt8.toNat_inj.mp
  rw [toNat_toUInt8 hascii, hnat]
  exact (Nat.mod_eq_of_lt (hn.trans (by decide))).symm

/-- A character above the ASCII range has more than one byte. -/
lemma one_lt_length_utf8 (hn : 128 ≤ n) (hlt : n < 256) : 1 < (utf8 [Char.ofNat n]).length := by
  have hsize : (Char.ofNat n).utf8Size ≠ 1 := by
    rw [Ne, Char.utf8Size_eq_one_iff, UInt32.le_iff_toNat_le, not_le]
    have hnat := toNat_ofNat hlt
    exact lt_of_lt_of_le (by decide) (hn.trans hnat.ge)
  have hpos := (Char.ofNat n).utf8Size_pos
  rw [utf8_cons, utf8_nil, List.append_nil, String.length_utf8EncodeChar]
  omega

lemma Piece.text_octal (ho : o.value < 256) : (Piece.octal o).text = [Char.ofNat o.value] := by
  have hbyte : fromOctal o.digits = some (UInt8.ofNat o.value) := if_pos ho
  have hnat : (UInt8.ofNat o.value).toNat = o.value := Nat.mod_eq_of_lt ho
  simp [Piece.text, hbyte, hnat]

lemma Piece.utf8_text (hbyte : ∀ o, p = .octal o → o.value < 256) (h : p.isHigh = false) :
    utf8 p.text = p.bytes := by
  cases p with
  | char c => rfl
  | letter l => cases l <;> decide
  | octal o =>
    have hlt : o.value < 128 := by simpa [isHigh] using h
    rw [text_octal (hbyte o rfl), utf8_ofNat hlt]
    rfl
  | pair p => rfl

lemma Piece.length_bytes_lt_text (hbyte : ∀ o, p = .octal o → o.value < 256)
    (h : p.isHigh = true) : p.bytes.length < (utf8 p.text).length := by
  cases p with
  | octal o =>
    have hle : 128 ≤ o.value := by simpa [isHigh] using h
    rw [text_octal (hbyte o rfl)]
    exact one_lt_length_utf8 hle (hbyte o rfl)
  | _ => cases h

lemma Piece.utf8_source (h : p.isEscape = false) : utf8 p.source = p.bytes := by
  cases p with
  | char c => rfl
  | pair p => rfl
  | _ => cases h

lemma Piece.length_bytes_lt_source (h : p.isEscape = true) :
    p.bytes.length < (utf8 p.source).length := by
  cases p with
  | letter l => cases l <;> decide
  | octal o =>
    rw [source, utf8_cons_of_isAscii rfl, utf8_cons_of_isAscii rfl]
    simp [bytes]
  | _ => cases h

lemma Piece.length_bytes_pos (p : Piece) : 0 < p.bytes.length := by
  cases p with
  | char c => simp [bytes, utf8_cons, Char.utf8Size_pos]
  | pair p =>
    rw [bytes, utf8_cons_of_isAscii rfl]
    simp
  | _ => simp [bytes]

lemma Piece.isEscape_of_isHigh (h : p.isHigh = true) : p.isEscape = true := by
  cases p with
  | octal o => rfl
  | _ => cases h

/-- The scanned text is written as the bytes that are denoted if and only if no escape is of a byte
above the ASCII range. -/
lemma Reads.utf8_interpret_iff (h : Reads s pieces)
    (hbyte : ∀ o, .octal o ∈ pieces → o.value < 256) :
    utf8 (interpretEscapeSequences s) = pieces.flatMap Piece.bytes ↔
      ∀ p ∈ pieces, p.isHigh = false := by
  rw [h.interpret, utf8_flatMap]
  apply flatMap_eq_iff
  · intro p hp hlow
    exact p.utf8_text (fun o ho => hbyte o (ho ▸ hp)) hlow
  · intro p hp hhigh
    exact p.length_bytes_lt_text (fun o ho => hbyte o (ho ▸ hp)) (by simpa using hhigh)

/-- Without the scan there may be no escapes. -/
lemma Reads.utf8_iff (h : Reads s pieces) :
    utf8 s = pieces.flatMap Piece.bytes ↔ ∀ p ∈ pieces, p.isEscape = false := by
  conv_lhs => lhs; rw [h.source, utf8_flatMap]
  apply flatMap_eq_iff
  · exact fun p _ hp => p.utf8_source hp
  · exact fun p _ hp => p.length_bytes_lt_source (by simpa using hp)

lemma Reads.bytes_ne_nil (h : Reads s pieces) (hs : s ≠ []) :
    pieces.flatMap Piece.bytes ≠ [] := by
  intro hnil
  rw [List.flatMap_eq_nil_iff] at hnil
  apply hs
  rw [h.source, List.flatMap_eq_nil_iff]
  intro p hp
  have hpos := p.length_bytes_pos
  rw [hnil p hp] at hpos
  cases hpos

/-! ### Options -/

/-- What an option character does to the escapes. -/
def switch (e : Bool) (c : Char) : Bool := if c = 'e' then true else if c = 'E' then false else e

lemma optionChars_eq (e : Bool) : optionChars s ⟨true, e⟩ =
    (⟨true, (s.takeWhile isOptionChar).foldl switch e⟩, s.all isOptionChar) := by
  induction s generalizing e with
  | nil => rfl
  | cons c s ih =>
    rw [optionChars]
    split_ifs with hn he hE
    · subst hn
      exact ih e
    · subst he
      exact ih true
    · subst hE
      exact ih false
    · simp [isOptionChar, hn, he, hE]

lemma foldl_switch_eq_false_iff (hs : ∀ c ∈ s, isOptionChar c = true) :
    s.foldl switch true = false ↔ s.reverse.find? (· ≠ 'n') = some 'E' := by
  induction s using List.reverseRecOn with
  | nil => simp
  | append_singleton s c ih =>
    rw [List.forall_mem_append, List.forall_mem_singleton] at hs
    have hcases : c = 'n' ∨ c = 'e' ∨ c = 'E' := by simpa [isOptionChar, or_assoc] using hs.2
    rw [List.foldl_append, List.reverse_append]
    rcases hcases with rfl | rfl | rfl
    · simpa [switch] using ih hs.1
    · simp [switch]
    · simp [switch]

instance : DecidablePred IsOptions :=
  fun s => inferInstanceAs (Decidable (optionPart s ≠ [] ∧ s = '-' :: optionPart s))

instance : DecidablePred SwitchesOff :=
  fun s => inferInstanceAs (Decidable ((optionPart s).reverse.find? (· ≠ 'n') = some 'E'))

lemma optionPart_dash (t : Text) : optionPart ('-' :: t) = t.takeWhile isOptionChar := by
  simp [optionPart]

/-- An argument that does not begin with options is printed. -/
lemma optionPart_eq_nil (h : ¬ (s.head? = some '-' ∧ 1 < byteLen s)) : optionPart s = [] := by
  rw [optionPart]
  split_ifs with hdash
  · obtain ⟨t, rfl⟩ := List.head?_eq_some_iff.mp hdash
    cases t with
    | nil => rfl
    | cons c t =>
      have hc := c.utf8Size_pos
      have hlen : 1 < byteLen ('-' :: c :: t) := by
        rw [byteLen_cons, byteLen_cons]
        exact Nat.lt_add_of_pos_right (Nat.add_pos_left hc _)
      exact absurd ⟨rfl, hlen⟩ h
  · rfl

lemma switchesOff_iff : SwitchesOff s ↔ (optionPart s).foldl switch true = false := by
  rw [foldl_switch_eq_false_iff, SwitchesOff]
  intro c hc
  rw [optionPart] at hc
  split_ifs at hc
  · exact List.mem_takeWhile_imp hc
  · cases hc

lemma isOptions_dash_iff (t : Text) (ht : t ≠ []) :
    IsOptions ('-' :: t) ↔ t.all isOptionChar = true := by
  rw [IsOptions, optionPart_dash, List.cons_inj_right, List.all_eq_true,
    ← List.takeWhile_eq_self_iff]
  constructor
  · exact fun h => h.2.symm
  · intro h
    rw [h]
    exact ⟨ht, rfl⟩

lemma parseOptions_eq : parseOptions [s] ⟨true, true⟩ =
    (⟨true, !decide (SwitchesOff s)⟩, if IsOptions s then [] else [s]) := by
  have hswitch : (!decide (SwitchesOff s)) = (optionPart s).foldl switch true := by
    cases hfold : (optionPart s).foldl switch true <;> simp [switchesOff_iff, hfold]
  rw [hswitch, parseOptions]
  by_cases hdash : s.head? = some '-' ∧ 1 < byteLen s
  · obtain ⟨t, rfl⟩ := List.head?_eq_some_iff.mp hdash.1
    have ht : t ≠ [] := by
      rintro rfl
      exact absurd hdash.2 (by decide)
    rw [if_pos hdash, List.tail_cons, optionChars_eq, optionPart_dash]
    simp only [isOptions_dash_iff t ht]
    cases t.all isOptionChar <;> rfl
  · have hpart := optionPart_eq_nil hdash
    have hoptions : ¬ IsOptions s := fun h => h.1 hpart
    rw [if_neg hdash, if_neg hoptions, hpart]
    rfl

lemma echo_eq : echo ["echo".toList, "-n".toList, "-e".toList, s] =
    if IsOptions s then [] else if SwitchesOff s then utf8 s
    else utf8 (interpretEscapeSequences s) := by
  have hecho : echo ["echo".toList, "-n".toList, "-e".toList, s] =
      let r := parseOptions [s] ⟨true, true⟩
      let output := [' '].intercalate r.2
      let output := if r.1.interpretEscapes then interpretEscapeSequences output else output
      utf8 (if r.1.noNewline then output else output ++ ['\n']) := rfl
  rw [hecho, parseOptions_eq]
  by_cases hoptions : IsOptions s
  · simp [hoptions, interpretEscapeSequences]
  · by_cases hoff : SwitchesOff s <;> simp [hoptions, hoff]

/-! ### The two commands -/

/-- The bytes are written if and only if no escape is of a byte above the ASCII range, the argument
is not taken for options, and there are no escapes where its first characters switch them off. -/
theorem emitsBytes_iff (h : Reads s pieces) (hbyte : ∀ o, .octal o ∈ pieces → o.value < 256) :
    EmitsBytes s pieces ↔ (∀ p ∈ pieces, p.isHigh = false) ∧ ¬ IsOptions s ∧
      (SwitchesOff s → ∀ p ∈ pieces, p.isEscape = false) := by
  have hne : IsOptions s → pieces.flatMap Piece.bytes ≠ [] := by
    rintro ⟨-, hs⟩
    apply h.bytes_ne_nil
    rw [hs]
    exact List.cons_ne_nil _ _
  have hlow : (∀ p ∈ pieces, p.isEscape = false) → ∀ p ∈ pieces, p.isHigh = false := by
    intro hnone p hp
    by_contra hhigh
    have hescape := p.isEscape_of_isHigh (by simpa using hhigh)
    simp [hnone p hp] at hescape
  constructor
  · rintro ⟨hecho, -⟩
    rw [echo_eq] at hecho
    split_ifs at hecho with hoptions hoff
    · exact absurd hecho.symm (hne hoptions)
    · have hnone := h.utf8_iff.mp hecho
      exact ⟨hlow hnone, hoptions, fun _ => hnone⟩
    · exact ⟨(h.utf8_interpret_iff hbyte).mp hecho, hoptions, fun hoff' => absurd hoff' hoff⟩
  · rintro ⟨hlow, hoptions, hnone⟩
    have hinterpret := (h.utf8_interpret_iff hbyte).mpr hlow
    constructor
    · rw [echo_eq, if_neg hoptions]
      split_ifs with hoff
      · exact h.utf8_iff.mpr (hnone hoff)
      · exact hinterpret
    · intro hpercent
      rw [← hinterpret, ← format_eq hpercent]
      rfl

def letterA : Octal := ⟨"101".toList, List.all_eq_true.mp rfl, by decide⟩

/-- The first byte that is no character of one byte. -/
def firstHigh : Octal := ⟨"200".toList, List.all_eq_true.mp rfl, by decide⟩

def pairQ : Pair := ⟨'q', by rintro ⟨⟩ <;> decide, by decide⟩

/-- The digit behind the escape is none of its digits, and the pair is kept. -/
theorem emitsBytes_sample :
    EmitsBytes "ä\\n\\01018\\q".toList
      [.char 'ä', .letter .newline, .octal letterA, .char '8', .pair pairQ] :=
  (emitsBytes_iff
    (.char (by decide) (.letter (l := .newline) (.octal (o := letterA) (.inl rfl)
      (.char (by decide) (.pair (p := pairQ) .nil)))))
    (by simp [letterA, Octal.value]; decide)).mpr
    ⟨by simp [Piece.isHigh, letterA, Octal.value]; decide, by decide,
      fun hoff => absurd hoff (by decide)⟩

/-- Two bytes are written for one. -/
theorem not_emitsBytes :
    Reads "\\0200".toList [.octal firstHigh] ∧ firstHigh.value < 256 ∧
      ¬ EmitsBytes "\\0200".toList [.octal firstHigh] := by
  have hreads : Reads "\\0200".toList [.octal firstHigh] := .octal (o := firstHigh) (.inl rfl) .nil
  refine ⟨hreads, by decide, fun h => ?_⟩
  have hecho := h.echo
  rw [echo_eq, if_neg (by decide), if_neg (by decide), hreads.interpret] at hecho
  revert hecho
  decide

end AmlaSandbox.Commands.Escapes
