import AmlaSandbox.Text.Utf8
import Mathlib.Data.Prod.Lex

/-!
# Glob matching

The shell matches a pattern against a text byte by byte. The loop keeps the position of the last
star and returns to it, one byte further, when nothing else matches.
-/

namespace AmlaSandbox.Shell

open Text

/-- Whether a string has a metacharacter that is not escaped. -/
def isGlobPattern : Text → Bool
  | [] => false
  | c :: rest =>
    if c = '\\' then
      match rest with
      | [] => false
      | _ :: rest => isGlobPattern rest
    else if c = '*' ∨ c = '?' then true
    else if c = '[' ∧ rest ≠ [] then true
    else isGlobPattern rest

/-! ### Bracket expressions -/

/-- The bytes that a pattern gives a meaning to. -/
def byte (c : Char) : UInt8 := c.toUInt8

/-- The loop of `match_bracket`: `rest` is the pattern from position `i` on. -/
def matchBracketLoop (ch : UInt8) : List UInt8 → ℕ → Bool → Option (Bool × ℕ)
  | [], _, _ => none
  | start :: rest, i, matched =>
    if start = byte ']' then some (matched, i + 1)
    else
      match rest with
      | dash :: stop :: rest' =>
        if dash = byte '-' ∧ stop ≠ byte ']' then
          matchBracketLoop ch rest' (i + 3) (matched || (start ≤ ch && ch ≤ stop))
        else matchBracketLoop ch (dash :: stop :: rest') (i + 1) (matched || start == ch)
      | rest => matchBracketLoop ch rest (i + 1) (matched || start == ch)

/-- Match a bracket expression, whose first byte is the bracket, against a byte; with the position
behind it. -/
def matchBracket (pattern : List UInt8) (ch : UInt8) : Option (Bool × ℕ) :=
  match pattern with
  | [] => none
  | first :: rest =>
    if first ≠ byte '[' then none
    else
      let negate := rest.head? = some (byte '!') ∨ rest.head? = some (byte '^')
      let (rest, i) := if negate then (rest.drop 1, 2) else (rest, 1)
      let (rest, i, matched) :=
        if rest.head? = some (byte ']') then (rest.drop 1, i + 1, ch == byte ']')
        else (rest, i, false)
      (matchBracketLoop ch rest i matched).map fun (matched, i) =>
        (if negate then !matched else matched, i)

/-! ### The loop -/

/-- The positions in the pattern and in the text, and those behind the last star when it was met,
which was not later in the text. -/
structure Cursor where
  pi : ℕ
  ti : ℕ
  star : Option (ℕ × ℕ)
  star_le : ∀ s ∈ star, s.2 ≤ ti

namespace Cursor

def start : Cursor := { pi := 0, ti := 0, star := none, star_le := nofun }

variable (pattern text : List UInt8) (s : Cursor)

/-- Both positions move on. -/
def advance (n : ℕ) : Cursor :=
  { s with
    pi := s.pi + n
    ti := s.ti + 1
    star_le := fun x hx => Nat.le_succ_of_le (s.star_le x hx) }

/-- Save the positions and try matching nothing. -/
def saveStar : Cursor :=
  { s with
    pi := s.pi + 1
    star := some (s.pi + 1, s.ti)
    star_le := fun _ hx => (Option.some.inj hx) ▸ Nat.le_refl _ }

/-- Backtrack to the last star, one byte further. -/
def backtrackTo (spi sti : ℕ) : Cursor :=
  { pi := spi, ti := sti + 1, star := some (spi, sti + 1)
    star_le := fun _ hx => (Option.some.inj hx) ▸ Nat.le_refl _ }

/-- What the byte `ch` of the text meets in the pattern; `none` is no match here. -/
def tryMatch (ch : UInt8) : Option Cursor :=
  match pattern.drop s.pi with
  | [] => none
  | c :: rest =>
    if c = byte '\\' ∧ rest.head? = some ch then some (s.advance 2)
    else if c = byte '*' then some s.saveStar
    else if c = byte '?' then some (s.advance 1)
    else if c = byte '[' then
      match matchBracket (c :: rest) ch with
      | some (true, n) => some (s.advance n)
      | _ => none
    else if c = ch then some (s.advance 1)
    else none

/-- One round of the loop, or the result. -/
def round : Cursor ⊕ Bool :=
  match text.drop s.ti with
  | [] => .inr ((pattern.drop s.pi).dropWhile (· = byte '*') = [])
  | ch :: _ =>
    match s.tryMatch pattern ch with
    | some s' => .inl s'
    | none =>
      match s.star with
      | some (spi, sti) => .inl (backtrackTo spi sti)
      | none => .inr false

/-! ### Termination -/

/-- The star moves on in the text, or else the positions do. -/
def measure : ℕ × ℕ :=
  (match s.star with
    | some (_, sti) => text.length - sti
    | none => text.length + 1,
    (pattern.length - s.pi) + (text.length - s.ti))

variable {pattern text s} {s' : Cursor} {ch : UInt8} {b : Bool} {n : ℕ}

/-- The next cursor, where the byte at the current one matches. -/
lemma tryMatch_eq_some (h : s.tryMatch pattern ch = some s') :
    (∃ n, s' = s.advance n) ∨ s' = s.saveStar ∧ (pattern.drop s.pi).head? = some (byte '*') := by
  unfold tryMatch at h
  split at h
  · cases h
  · rename_i c rest hdrop
    split_ifs at h with hescape hstar hone hbracket hliteral
    · exact .inl ⟨2, (Option.some.inj h).symm⟩
    · refine .inr ⟨(Option.some.inj h).symm, ?_⟩
      rw [hdrop, hstar]
      rfl
    · exact .inl ⟨1, (Option.some.inj h).symm⟩
    · split at h
      · rename_i n _
        exact .inl ⟨n, (Option.some.inj h).symm⟩
      · cases h
    · exact .inl ⟨1, (Option.some.inj h).symm⟩

/-- What a round does before the end of the text. -/
lemma round_eq_inl (h : s.round pattern text = .inl s') :
    s.ti < text.length ∧
      ((∃ ch, s.tryMatch pattern ch = some s') ∨
        ∃ spi sti, s.star = some (spi, sti) ∧ s' = backtrackTo spi sti) := by
  unfold round at h
  split at h
  · cases h
  · rename_i ch rest hdrop
    have hlt : s.ti < text.length := by
      by_contra hle
      rw [List.drop_eq_nil_of_le (Nat.le_of_not_lt hle)] at hdrop
      cases hdrop
    refine ⟨hlt, ?_⟩
    split at h
    · rename_i s'' htry
      exact .inl ⟨ch, Sum.inl.inj h ▸ htry⟩
    · split at h
      · rename_i spi sti hstar
        exact .inr ⟨spi, sti, hstar, (Sum.inl.inj h).symm⟩
      · cases h

lemma measure_round (h : s.round pattern text = .inl s') :
    Prod.Lex (· < ·) (· < ·) (s'.measure pattern text) (s.measure pattern text) := by
  obtain ⟨hlt, ⟨ch, htry⟩ | ⟨spi, sti, hstar, rfl⟩⟩ := round_eq_inl h
  · obtain ⟨n, rfl⟩ | ⟨rfl, hhead⟩ := tryMatch_eq_some htry
    · apply Prod.Lex.right
      show (pattern.length - (s.pi + n)) + (text.length - (s.ti + 1)) <
        (pattern.length - s.pi) + (text.length - s.ti)
      omega
    · have hpi : s.pi < pattern.length := by
        by_contra hle
        rw [List.drop_eq_nil_of_le (Nat.le_of_not_lt hle)] at hhead
        cases hhead
      have hsecond : (pattern.length - (s.pi + 1)) + (text.length - s.ti) <
          (pattern.length - s.pi) + (text.length - s.ti) := by
        omega
      unfold measure saveStar
      cases hstar : s.star with
      | none =>
        apply Prod.Lex.left
        dsimp only
        omega
      | some x =>
        have hle := s.star_le x hstar
        dsimp only
        rcases Nat.lt_or_ge x.2 s.ti with hlater | hsame
        · apply Prod.Lex.left
          omega
        · rw [show s.ti = x.2 by omega] at hsecond ⊢
          exact Prod.Lex.right _ hsecond
  · have hle := s.star_le _ hstar
    unfold measure
    rw [hstar]
    apply Prod.Lex.left
    show text.length - (sti + 1) < text.length - sti
    have : sti ≤ s.ti := hle
    omega

/-- The loop. -/
def run (pattern text : List UInt8) (s : Cursor) : Bool :=
  match _h : s.round pattern text with
  | .inl s' => run pattern text s'
  | .inr result => result
termination_by s.measure pattern text
decreasing_by exact measure_round _h

lemma run_of_inl (h : s.round pattern text = .inl s') :
    s.run pattern text = s'.run pattern text := by
  rw [run]
  split
  · rename_i s'' h'
    rw [h] at h'
    rw [Sum.inl.inj h']
  · rename_i result h'
    rw [h] at h'
    cases h'

lemma run_of_inr (h : s.round pattern text = .inr b) : s.run pattern text = b := by
  rw [run]
  split
  · rename_i s' h'
    rw [h] at h'
    cases h'
  · rename_i result h'
    rw [h] at h'
    exact (Sum.inr.inj h').symm

/-- The first rounds of the loop. -/
def rounds (pattern text : List UInt8) : ℕ → Cursor → Cursor ⊕ Bool
  | 0, s => .inl s
  | n + 1, s =>
    match s.round pattern text with
    | .inl s' => rounds pattern text n s'
    | .inr result => .inr result

lemma run_of_rounds (h : s.rounds pattern text n = .inr b) : s.run pattern text = b := by
  induction n generalizing s with
  | zero => cases h
  | succ n ih =>
    rw [rounds] at h
    split at h
    · rename_i s' hround
      rw [run_of_inl hround]
      exact ih h
    · rename_i result hround
      rw [run_of_inr hround]
      exact Sum.inr.inj h

/-- The loop ends. -/
lemma exists_rounds (s : Cursor) : ∃ n, s.rounds pattern text n = .inr (s.run pattern text) := by
  induction s using run.induct pattern text with
  | case1 s s' hround ih =>
    obtain ⟨n, hn⟩ := ih
    refine ⟨n + 1, ?_⟩
    rw [rounds, hround, run_of_inl hround]
    exact hn
  | case2 s result hround =>
    refine ⟨1, ?_⟩
    rw [rounds, hround, run_of_inr hround]

end Cursor

def globMatchImpl (pattern text : List UInt8) : Bool := Cursor.start.run pattern text

def globMatch (pattern text : Text) : Bool := globMatchImpl (utf8 pattern) (utf8 text)

end AmlaSandbox.Shell
