import AmlaSandbox.Commands.Reading
import AmlaSandbox.Library.Pieces
import AmlaSandbox.Text.Basic

/-!
# grep

`grep` prints the lines that match, and lines around them: those before a match wait in a ring until
there is one, those behind it are counted down. A pattern without anchors is cut at each `.*`, and
its parts are looked for one behind the other.
-/

namespace AmlaSandbox.Commands.Grep

open Library Piece Text

/-! ## Patterns -/

/-! ### The search -/

/-- What follows the first occurrence of the part, where `str::find` finds it. -/
def behind (part : Text) : Text → Option Text
  | [] => if part = [] then some [] else none
  | c :: text =>
    if part <+: c :: text then some ((c :: text).drop part.length) else behind part text

def contains (text part : Text) : Bool := (behind part text).isSome

/-- `str::split(".*")` -/
def splitWild : Text → List Text
  | '.' :: '*' :: s => [] :: splitWild s
  | c :: s => (splitWild s).modifyHead (c :: ·)
  | [] => [[]]

/-- The loop over the parts; `text` is what is left behind those that are found. -/
def findParts : List Text → Text → Bool
  | [], _ => true
  | part :: parts, text =>
    if part = [] then findParts parts text
    else
      match behind part text with
      | some rest => findParts parts rest
      | none => false

def simplePatternMatch (text pattern : Text) : Bool :=
  if pattern.head? = some '^' then
    let inner := pattern.tail
    if inner.getLast? = some '$' then text = inner.dropLast else inner <+: text
  else if pattern.getLast? = some '$' then pattern.dropLast <:+ text
  else if contains pattern ['.', '*'] then findParts (splitWild pattern) text
  else contains text pattern

/-! ### The meaning of a pattern -/

/-- `.*` is a run, and any other character stands for itself. -/
def pieces : Text → List (Piece Char)
  | '.' :: '*' :: s => .run :: pieces s
  | c :: s => .letter (c = ·) :: pieces s
  | [] => []

def startsAnchored (pattern : Text) : Bool := pattern.head? = some '^'

def withoutStart (pattern : Text) : Text := if startsAnchored pattern then pattern.tail else pattern

def endsAnchored (pattern : Text) : Bool := (withoutStart pattern).getLast? = some '$'

/-- The pattern without its anchors. -/
def body (pattern : Text) : Text :=
  if endsAnchored pattern then (withoutStart pattern).dropLast else withoutStart pattern

/-- A part of the line matches the pattern, at the anchors if there are any. -/
def Denotes (pattern line : Text) : Prop :=
  ∃ before found after, line = before ++ found ++ after ∧ Matches (pieces (body pattern)) found ∧
    (startsAnchored pattern → before = []) ∧ (endsAnchored pattern → after = [])

/-- The pattern has an anchor and, between the anchors, `.*`. -/
def AnchorsRun (pattern : Text) : Prop :=
  (startsAnchored pattern ∨ endsAnchored pattern) ∧ ['.', '*'] <:+: body pattern

/-! ### Occurrences -/

section

variable {text part rest before after s line pattern : Text} {parts : List Text}
  {p : List (Piece Char)}

/-- The first occurrence is not behind another one. -/
lemma behind_eq_some (h : behind part text = some rest) :
    ∃ before, text = before ++ part ++ rest ∧
      ∀ before' rest', text = before' ++ part ++ rest' → before.length ≤ before'.length := by
  induction text with
  | nil =>
    rw [behind] at h
    split_ifs at h with hpart
    obtain rfl := Option.some.inj h
    exact ⟨[], by simp [hpart], fun _ _ _ => Nat.zero_le _⟩
  | cons c text ih =>
    rw [behind] at h
    split_ifs at h with hprefix
    · obtain rfl := Option.some.inj h
      obtain ⟨rest, hrest⟩ := hprefix
      refine ⟨[], ?_, fun _ _ _ => Nat.zero_le _⟩
      rw [← hrest, List.drop_left, List.nil_append]
    · obtain ⟨before, rfl, hfirst⟩ := ih h
      refine ⟨c :: before, rfl, fun before' rest' heq => ?_⟩
      cases before' with
      | nil => exact absurd ⟨rest', heq.symm⟩ hprefix
      | cons c' before' => exact Nat.succ_le_succ (hfirst before' rest' (List.cons.inj heq).2)

lemma behind_eq_none (h : behind part text = none) (before rest : Text) :
    text ≠ before ++ part ++ rest := by
  induction text generalizing before with
  | nil =>
    rw [behind] at h
    split_ifs at h with hpart
    intro heq
    obtain ⟨hfront, -⟩ := List.append_eq_nil_iff.mp heq.symm
    exact hpart (List.append_eq_nil_iff.mp hfront).2
  | cons c text ih =>
    rw [behind] at h
    split_ifs at h with hprefix
    intro heq
    cases before with
    | nil => exact hprefix ⟨rest, heq.symm⟩
    | cons c' before => exact ih h before (List.cons.inj heq).2

lemma contains_iff : contains text part = true ↔ part <:+: text := by
  rw [contains]
  cases h : behind part text with
  | none =>
    simp only [Option.isSome_none, Bool.false_eq_true, false_iff]
    rintro ⟨before, rest, heq⟩
    exact behind_eq_none h before rest heq.symm
  | some rest =>
    obtain ⟨before, heq, -⟩ := behind_eq_some h
    simp only [Option.isSome_some, true_iff]
    exact ⟨before, rest, heq.symm⟩

/-! ### Parts one behind the other -/

/-- The letters of a part. -/
def spell (part : Text) : List (Piece Char) := part.map fun c => .letter (c = ·)

/-- What a later occurrence leaves, the first one leaves too. -/
lemma matches_behind (h : behind part text = some rest) :
    Matches (.run :: (spell part ++ .run :: p)) text ↔ Matches (.run :: p) rest := by
  obtain ⟨before, heq, hfirst⟩ := behind_eq_some h
  rw [matches_run_iff]
  constructor
  · rintro ⟨v, ⟨before', rfl⟩, hv⟩
    obtain ⟨u, rfl, hu⟩ := matches_spelled_iff.mp hv
    have hle := hfirst before' u (List.append_assoc ..).symm
    rw [← List.append_assoc, List.append_eq_append_iff] at heq
    obtain ⟨passed, hfront, rfl⟩ | ⟨passed, -, rfl⟩ := heq
    · have hlen := congrArg List.length hfront
      simp only [List.length_append] at hlen
      obtain rfl : passed = [] := List.length_eq_zero_iff.mp (by omega)
      exact hu
    · exact hu.run_append passed
  · intro hrest
    refine ⟨part ++ rest, ⟨before, ?_⟩, matches_spelled_iff.mpr ⟨rest, rfl, hrest⟩⟩
    rw [heq, List.append_assoc]

/-- The parts stand in the text one behind the other. -/
lemma findParts_iff : findParts parts text = true ↔
    Matches (parts.flatMap (fun part => .run :: spell part) ++ [.run]) text := by
  induction parts generalizing text with
  | nil => simp [findParts, matches_run_iff]
  | cons part parts ih =>
    rw [findParts, List.flatMap_cons, List.append_assoc, List.cons_append]
    -- what comes next begins with a run
    obtain ⟨p, hp⟩ : ∃ p, parts.flatMap (fun part => .run :: spell part) ++ [.run] = .run :: p := by
      cases parts with
      | nil => exact ⟨[], rfl⟩
      | cons part parts => exact ⟨_, rfl⟩
    split_ifs with hnil
    · subst hnil
      rw [ih, hp]
      exact matches_run_run_iff.symm
    · rw [hp]
      cases hfound : behind part text with
      | none =>
        simp only [Bool.false_eq_true, false_iff]
        intro hmatches
        obtain ⟨v, ⟨before, rfl⟩, hv⟩ := matches_run_iff.mp hmatches
        obtain ⟨u, rfl, -⟩ := matches_spelled_iff.mp hv
        exact behind_eq_none hfound before u (List.append_assoc ..).symm
      | some rest => rw [matches_behind hfound, ← hp, ← ih]

/-- Where a pattern is cut there is a run. -/
lemma flatMap_splitWild (s : Text) :
    .run :: pieces s = (splitWild s).flatMap fun part => .run :: spell part := by
  induction s using splitWild.induct with
  | case1 s ih => rw [pieces, splitWild, List.flatMap_cons, ← ih]; rfl
  | case2 c s hwild ih =>
    rw [pieces.eq_2 c s hwild, splitWild.eq_2 c s hwild]
    cases hsplit : splitWild s with
    | nil =>
      rw [hsplit] at ih
      cases ih
    | cons part parts =>
      rw [hsplit, List.flatMap_cons, List.cons_append] at ih
      rw [List.modifyHead_cons, List.flatMap_cons, (List.cons.inj ih).2]
      rfl
  | case3 => rfl

/-- A pattern without `.*` is looked for as it is. -/
lemma pieces_eq_spell (h : ¬ ['.', '*'] <:+: s) : pieces s = spell s := by
  induction s using pieces.induct with
  | case1 s => exact absurd ⟨[], s, rfl⟩ h
  | case2 c s hwild ih =>
    rw [pieces.eq_2 c s hwild, ih fun hinfix => h (List.infix_cons hinfix)]
    rfl
  | case3 => rfl

lemma matches_spell_iff : Matches (spell part) text ↔ text = part := by
  have hiff := matches_spelled_iff (v := part) (p := []) (w := text)
  rw [List.append_nil] at hiff
  rw [spell, hiff]
  simp

/-- Somewhere in the line is what matches the pattern. -/
lemma matches_within_iff :
    Matches (.run :: (p ++ [.run])) line ↔
      ∃ before found after, line = before ++ found ++ after ∧ Matches p found := by
  rw [matches_run_iff]
  constructor
  · rintro ⟨w, ⟨before, rfl⟩, hw⟩
    obtain ⟨found, after, rfl, hfound, -⟩ := matches_append_iff.mp hw
    exact ⟨before, found, after, (List.append_assoc ..).symm, hfound⟩
  · rintro ⟨before, found, after, rfl, hfound⟩
    refine ⟨found ++ after, ⟨before, (List.append_assoc ..).symm⟩, ?_⟩
    refine matches_append_iff.mpr ⟨found, after, rfl, hfound, ?_⟩
    exact matches_run_iff.mpr ⟨[], List.nil_suffix, .nil⟩

/-! ### The decision -/

/-- Without anchors the search is complete. -/
lemma simplePatternMatch_floating (hstart : startsAnchored pattern = false)
    (hend : endsAnchored pattern = false) :
    simplePatternMatch line pattern = true ↔ Denotes pattern line := by
  have hbody : body pattern = pattern := by simp [body, withoutStart, hstart, hend]
  have hlast : ¬ pattern.getLast? = some '$' := by
    simpa [endsAnchored, withoutStart, hstart] using hend
  have hdenotes : Denotes pattern line ↔ Matches (.run :: (pieces pattern ++ [.run])) line := by
    rw [matches_within_iff, Denotes, hbody]
    simp [hstart, hend]
  rw [hdenotes, simplePatternMatch, if_neg (of_decide_eq_false hstart), if_neg hlast]
  split_ifs with hwild
  · rw [findParts_iff, ← flatMap_splitWild]
    rfl
  · rw [contains_iff] at hwild ⊢
    rw [pieces_eq_spell hwild, matches_within_iff]
    simp only [matches_spell_iff]
    constructor
    · rintro ⟨before, after, rfl⟩
      exact ⟨before, pattern, after, rfl, rfl⟩
    · rintro ⟨before, _, after, rfl, rfl⟩
      exact ⟨before, after, rfl⟩

/-- With an anchor the rest of the pattern is looked for as it is. -/
lemma simplePatternMatch_anchored (h : startsAnchored pattern ∨ endsAnchored pattern) :
    simplePatternMatch line pattern = true ↔
      ∃ before after, line = before ++ body pattern ++ after ∧
      (startsAnchored pattern → before = []) ∧ (endsAnchored pattern → after = []) := by
  cases hstart : startsAnchored pattern with
  | true =>
    have hhead : pattern.head? = some '^' := of_decide_eq_true hstart
    have hinner : withoutStart pattern = pattern.tail := if_pos hstart
    rw [simplePatternMatch, if_pos hhead, body, hinner]
    cases hend : endsAnchored pattern with
    | true =>
      rw [endsAnchored, hinner] at hend
      dsimp only
      rw [if_pos (of_decide_eq_true hend), if_pos rfl, decide_eq_true_iff]
      constructor
      · rintro rfl
        exact ⟨[], [], by simp, fun _ => rfl, fun _ => rfl⟩
      · rintro ⟨before, after, rfl, hbefore, hafter⟩
        rw [hbefore rfl, hafter rfl, List.nil_append, List.append_nil]
    | false =>
      rw [endsAnchored, hinner] at hend
      dsimp only
      rw [if_neg (of_decide_eq_false hend), if_neg Bool.false_ne_true, decide_eq_true_iff]
      constructor
      · rintro ⟨after, rfl⟩
        exact ⟨[], after, rfl, fun _ => rfl, fun h => absurd h Bool.false_ne_true⟩
      · rintro ⟨before, after, rfl, hbefore, -⟩
        exact ⟨after, by rw [hbefore rfl, List.nil_append]⟩
  | false =>
    have hhead : ¬ pattern.head? = some '^' := of_decide_eq_false hstart
    have hinner : withoutStart pattern = pattern := if_neg (by simp [hstart])
    have hend : endsAnchored pattern = true := h.resolve_left (by simp [hstart])
    have hlast : pattern.getLast? = some '$' := by
      rw [endsAnchored, hinner] at hend
      exact of_decide_eq_true hend
    rw [simplePatternMatch, if_neg hhead, if_pos hlast, body, if_pos hend, hinner,
      decide_eq_true_iff]
    constructor
    · rintro ⟨before, rfl⟩
      exact ⟨before, [], by simp, fun h => absurd h Bool.false_ne_true, fun _ => rfl⟩
    · rintro ⟨before, after, rfl, -, hafter⟩
      exact ⟨before, by rw [hafter hend, List.append_nil]⟩

lemma splitWild_ne_nil (s : Text) : splitWild s ≠ [] := by
  induction s using splitWild.induct with
  | case1 s => exact List.cons_ne_nil _ _
  | case2 c s hwild ih =>
    rw [splitWild.eq_2 c s hwild]
    cases hsplit : splitWild s with
    | nil => exact absurd hsplit ih
    | cons part parts => exact List.cons_ne_nil _ _
  | case3 => exact List.cons_ne_nil _ _

lemma length_flatten_splitWild (s : Text) : (splitWild s).flatten.length ≤ s.length := by
  induction s using splitWild.induct with
  | case1 s ih =>
    rw [splitWild, List.flatten_cons, List.nil_append]
    simp only [List.length_cons]
    omega
  | case2 c s hwild ih =>
    rw [splitWild.eq_2 c s hwild]
    cases hsplit : splitWild s with
    | nil => simp
    | cons part parts =>
      rw [hsplit] at ih
      simpa using ih
  | case3 => simp [splitWild]

lemma length_flatten_splitWild_lt (h : ['.', '*'] <:+: s) :
    (splitWild s).flatten.length < s.length := by
  induction s using splitWild.induct with
  | case1 s _ =>
    have hle := length_flatten_splitWild s
    rw [splitWild, List.flatten_cons, List.nil_append]
    simp only [List.length_cons]
    omega
  | case2 c s hwild ih =>
    have hinfix : ['.', '*'] <:+: s := by
      obtain hprefix | hinfix := List.infix_cons_iff.mp h
      · obtain ⟨rest, hrest⟩ := hprefix
        obtain ⟨rfl, rfl⟩ := List.cons.inj hrest
        exact absurd rfl (hwild rest rfl)
      · exact hinfix
    have hlt := ih hinfix
    rw [splitWild.eq_2 c s hwild]
    cases hsplit : splitWild s with
    | nil => simp
    | cons part parts =>
      rw [hsplit] at hlt
      simpa using hlt
  | case3 => simp at h

/-- What is left of a pattern where every run is empty. -/
lemma matches_flatten_splitWild (s : Text) : Matches (pieces s) (splitWild s).flatten := by
  induction s using splitWild.induct with
  | case1 s ih => exact .run [] ih
  | case2 c s hwild ih =>
    rw [pieces.eq_2 c s hwild, splitWild.eq_2 c s hwild]
    cases hsplit : splitWild s with
    | nil => exact absurd hsplit (splitWild_ne_nil s)
    | cons part parts =>
      rw [hsplit] at ih
      exact .letter (decide_eq_true rfl) ih
  | case3 => exact .nil

/-- Every line is decided as the pattern reads exactly for the patterns that do not have both an
anchor and `.*`. -/
theorem simplePatternMatch_iff (pattern : Text) :
    (∀ line, simplePatternMatch line pattern = true ↔ Denotes pattern line) ↔
      ¬ AnchorsRun pattern := by
  by_cases hanchor : startsAnchored pattern ∨ endsAnchored pattern
  · constructor
    · rintro hall ⟨-, hrun⟩
      have hdenotes : Denotes pattern (splitWild (body pattern)).flatten :=
        ⟨[], _, [], by simp, matches_flatten_splitWild _, fun _ => rfl, fun _ => rfl⟩
      obtain ⟨before, after, heq, -⟩ :=
        (simplePatternMatch_anchored hanchor).mp ((hall _).mpr hdenotes)
      have hlt := length_flatten_splitWild_lt hrun
      rw [heq] at hlt
      simp only [List.length_append] at hlt
      omega
    · intro hrun line
      have hbody : ¬ ['.', '*'] <:+: body pattern := fun hinfix => hrun ⟨hanchor, hinfix⟩
      rw [simplePatternMatch_anchored hanchor, Denotes, pieces_eq_spell hbody]
      simp only [matches_spell_iff]
      constructor
      · rintro ⟨before, after, heq, hends⟩
        exact ⟨before, _, after, heq, rfl, hends⟩
      · rintro ⟨before, _, after, heq, rfl, hends⟩
        exact ⟨before, after, heq, hends⟩
  · simp only [not_or, Bool.not_eq_true] at hanchor
    refine iff_of_true (fun line => simplePatternMatch_floating hanchor.1 hanchor.2) ?_
    rintro ⟨hanchors, -⟩
    simp [hanchor] at hanchors

/-- An anchored pattern with a run. -/
theorem not_simplePatternMatch_iff :
    ¬ (simplePatternMatch "axb".toList "^a.*b".toList = true ↔
      Denotes "^a.*b".toList "axb".toList) := by
  have hcode : simplePatternMatch "axb".toList "^a.*b".toList = false := by decide
  have hdenotes : Denotes "^a.*b".toList "axb".toList := by
    refine ⟨[], "axb".toList, [], rfl, ?_, fun _ => rfl, fun _ => rfl⟩
    exact .letter rfl (.run ['x'] (.letter rfl .nil))
  intro hiff
  rw [hiff.mpr hdenotes] at hcode
  cases hcode

end

/-! ## Lines -/

structure GrepOptions where
  caseInsensitive : Bool
  invert : Bool
  lineNumbers : Bool
  countOnly : Bool
  filesOnly : Bool
  quiet : Bool
  fixedString : Bool
  beforeContext : ℕ
  afterContext : ℕ

/-- A line with its number and content. -/
structure Line where
  num : ℕ
  content : Text
deriving DecidableEq

/-- What the loop keeps, and the lines that are printed. -/
structure State where
  beforeRing : List Line
  afterRemaining : ℕ
  lastPrintedLine : ℕ
  anyOutput : Bool
  lineNum : ℕ
  matchFound : Bool
  count : ℕ
  printed : List Text

/-- `usize`, the largest allocation, the size of a `Line`, and whether an addition that overflows
panics. -/
structure Platform where
  usizeMax : ℕ
  limit : ℕ
  lineSize : ℕ
  overflowChecks : Bool

def formatLine (filename : Option Text) (showLineNum : Bool) (sep : Char) (line : Line) : Text :=
  match filename, showLineNum with
  | some f, true => f ++ sep :: (Nat.toDigits 10 line.num ++ sep :: line.content)
  | some f, false => f ++ sep :: line.content
  | none, true => Nat.toDigits 10 line.num ++ sep :: line.content
  | none, false => line.content

namespace State

def println (s : State) (text : Text) : State := { s with printed := s.printed ++ [text] }

def printLine (filename : Option Text) (opts : GrepOptions) (sep : Char) (s : State) (line : Line) :
    State :=
  { s.println (formatLine filename opts.lineNumbers sep line) with lastPrintedLine := line.num }

end State

section

-- `str::to_lowercase` and `String::from_utf8_lossy`
variable (toLowercase : Text → Text) (fromUtf8Lossy : List UInt8 → Text)
variable (opts : GrepOptions) (pattern : Text) (filename : Option Text)

def isMatch (content : Text) : Bool :=
  let lineToCheck := if opts.caseInsensitive then toLowercase content else content
  let matched :=
    if opts.fixedString then contains lineToCheck pattern
    else simplePatternMatch lineToCheck pattern
  if opts.invert then !matched else matched

/-- The lines before a match that are not printed yet, and the match. -/
def printMatch (s : State) (line : Line) : State :=
  let hasContext := 0 < opts.beforeContext ∨ 0 < opts.afterContext
  let s :=
    if hasContext ∧ s.anyOutput ∧ 0 < s.lastPrintedLine ∧ s.lastPrintedLine + 1 < line.num then
      s.println "--".toList
    else s
  let s := s.beforeRing.foldl (fun s ctxLine =>
    if s.lastPrintedLine < ctxLine.num then s.printLine filename opts '-' ctxLine else s) s
  { s.printLine filename opts ':' line with
    anyOutput := true
    afterRemaining := opts.afterContext }

/-- A line that does not match. -/
def contextLine (s : State) (line : Line) : State :=
  if 0 < s.afterRemaining then
    let s := if s.lastPrintedLine < line.num then s.printLine filename opts '-' line else s
    { s with afterRemaining := s.afterRemaining - 1 }
  else if 0 < opts.beforeContext then
    let ring := if opts.beforeContext ≤ s.beforeRing.length then s.beforeRing.tail else s.beforeRing
    { s with beforeRing := ring ++ [line] }
  else s

/-- What a line does, and whether it matches; an error where the command is done. -/
def processLineWithContext (s : State) (line : Line) : Except State (State × Bool) :=
  if isMatch toLowercase opts pattern line.content then
    if opts.quiet then .error s
    else if opts.filesOnly then
      .error (match filename with
        | some name => s.println name
        | none => s)
    else
      let s := if opts.countOnly then s else printMatch opts filename s line
      .ok ({ s with beforeRing := [] }, true)
  else .ok (if opts.countOnly then s else contextLine opts filename s line, false)

/-- The body of the loop over lines. -/
def processLine (s : State) (bytes : List UInt8) : Except State State :=
  let s := { s with lineNum := s.lineNum + 1 }
  let line : Line := ⟨s.lineNum, fromUtf8Lossy bytes⟩
  match processLineWithContext toLowercase opts pattern filename s line with
  | .error s => .error { s with matchFound := true, count := s.count + 1 }
  | .ok (s, true) => .ok { s with matchFound := true, count := s.count + 1 }
  | .ok (s, false) => .ok s

def State.initial : State := ⟨[], 0, 0, false, 0, false, 0, []⟩

/-- `VecDeque::with_capacity(before_context + 1)` -/
def Platform.Allocates (platform : Platform) (beforeContext : ℕ) : Prop :=
  (platform.overflowChecks = true → beforeContext + 1 ≤ platform.usizeMax) ∧
    (beforeContext + 1) % (platform.usizeMax + 1) * platform.lineSize ≤ platform.limit

instance (platform : Platform) (beforeContext : ℕ) :
    Decidable (platform.Allocates beforeContext) := inferInstanceAs (Decidable (_ ∧ _))

/-- The last state, unless the command panics. -/
def grepFromHandle (platform : Platform) (stream : Stream) : Option State :=
  if platform.Allocates opts.beforeContext then
    match forLines (processLine toLowercase fromUtf8Lossy opts pattern filename) stream
        State.initial with
    | .ok s => some s
    | .error s => some s
  else none

end

end AmlaSandbox.Commands.Grep
