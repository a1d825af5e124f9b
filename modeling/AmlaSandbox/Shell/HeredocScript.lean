import Mathlib.Data.Bool.AllAny
import AmlaSandbox.Shell.Heredoc

/-!
# Scripts with a here document

A here document leaves the rest of its script undisturbed if, and only if, nothing is left to
disturb: behind the delimiter word there is a comment at most, and behind the delimiter line there
is nothing.
-/

namespace AmlaSandbox.Shell

open Text

/-! ### Runs of tokens -/

/-- The tokens that a lexer takes, and the lexer behind them. -/
inductive TakesAll : Lexer → List Token → Lexer → Prop
  | nil {lexer : Lexer} : TakesAll lexer [] lexer
  | cons {lexer lexer' lexer'' : Lexer} {token : Token} {ts : List Token} : token ≠ .eof →
      Takes lexer token lexer' → TakesAll lexer' ts lexer'' → TakesAll lexer (token :: ts) lexer''

variable {lexer lexer' : Lexer} {token : Token} {us ts ts' : List Token}

lemma takes_unique {token' : Token} {lexer'' : Lexer} (h : Takes lexer token lexer')
    (h' : Takes lexer token' lexer'') : token = token' ∧ lexer' = lexer'' := by
  obtain ⟨hok, hlexer⟩ := Prod.mk.inj (Option.some.inj (h.symm.trans h'))
  exact ⟨Except.ok.inj hok, hlexer⟩

lemma lexes_unique (h : Lexes lexer ts) (h' : Lexes lexer ts') : ts = ts' := by
  induction h generalizing ts' with
  | eof heof =>
    cases h' with
    | eof _ => rfl
    | token htoken htakes _ => exact absurd (takes_unique heof htakes).1.symm htoken
  | token htoken htakes _ ih =>
    cases h' with
    | eof heof => exact absurd (takes_unique htakes heof).1 htoken
    | token _ htakes' hrest =>
      obtain ⟨rfl, rfl⟩ := takes_unique htakes htakes'
      rw [ih hrest]

namespace TakesAll

/-- The tokens of a lexer start with those that it takes. -/
lemma of_lexes (h : TakesAll lexer us lexer') (hlexes : Lexes lexer ts) :
    ∃ ts', ts = us ++ ts' ∧ Lexes lexer' ts' := by
  induction h generalizing ts with
  | nil => exact ⟨ts, rfl, hlexes⟩
  | cons htoken htakes _ ih =>
    cases hlexes with
    | eof heof => exact absurd (takes_unique htakes heof).1 htoken
    | token _ htakes' hrest =>
      obtain ⟨rfl, rfl⟩ := takes_unique htakes htakes'
      obtain ⟨ts', rfl, hlexes'⟩ := ih hrest
      exact ⟨ts', rfl, hlexes'⟩

lemma lexes_iff (h : TakesAll lexer us lexer') : Lexes lexer (us ++ ts) ↔ Lexes lexer' ts := by
  constructor
  · intro hlexes
    obtain ⟨ts', heq, hlexes'⟩ := h.of_lexes hlexes
    rwa [List.append_cancel_left heq]
  · intro hlexes
    induction h with
    | nil => exact hlexes
    | cons htoken htakes _ ih => exact .token htoken htakes (ih hlexes)

end TakesAll

/-- A line has no tokens if, and only if, it is blank up to a comment. -/
lemma lexes_line {rest : Text} (hline : '\n' ∉ rest) (hlexes : Lexes (.new rest) ts) :
    ts = [] ↔ ∀ c ∈ (rest.dropWhile isBlank).head?, c = '#' := by
  have hstart : sliceFrom rest 0 = some rest := sliceFrom_zero
  have htoken : ∀ token lexer', Takes (.new rest) token lexer' →
      ∃ pos, nextToken rest 0 = some (.ok token, pos) := by
    intro token lexer' htakes
    rw [Takes, Lexer.next_eq rfl] at htakes
    obtain ⟨⟨result, pos⟩, hnext, heq⟩ := Option.map_eq_some_iff.mp htakes
    obtain ⟨rfl, -⟩ := Prod.mk.inj heq
    exact ⟨pos, hnext⟩
  constructor
  · rintro rfl c hc
    by_contra hhash
    obtain ⟨rest', hrest⟩ : ∃ rest', rest.dropWhile isBlank = c :: rest' :=
      List.head?_eq_some_iff.mp hc
    cases hlexes with
    | eof heof =>
      obtain ⟨pos, hnext⟩ := htoken _ _ heof
      exact nextToken_ne_eof hstart hrest hhash hnext rfl
  · intro hhash
    cases hlexes with
    | eof _ => rfl
    | @token _ lexer' token ts hne htakes hrest' =>
      obtain ⟨pos, hnext⟩ := htoken _ _ htakes
      have heof : ∃ pos, nextToken rest 0 = some (.ok .eof, pos) := by
        cases hdrop : rest.dropWhile isBlank with
        | nil => exact ⟨_, nextToken_nil hstart hdrop⟩
        | cons c comment =>
          obtain rfl : c = '#' := hhash c (by rw [hdrop]; rfl)
          have hcomment : AsciiComment rest := by
            by_contra hlong
            rw [nextToken_eq_none hstart hlong] at hnext
            cases hnext
          have hone : ∀ c ∈ line ('#' :: comment), c.utf8Size = 1 := by
            rw [line, List.takeWhile_cons_of_pos (by rfl), List.forall_mem_cons]
            exact ⟨rfl, hcomment comment hdrop⟩
          have hhash' := sliceFrom_dropWhile isBlank hstart
          rw [hdrop] at hhash'
          have hend := sliceFrom_dropWhile (· ≠ '\n') hhash'
          have hempty : ('#' :: comment).dropWhile (· ≠ '\n') = [] := by
            rw [List.dropWhile_eq_nil_iff]
            intro c hc
            have hmem : c ∈ rest := (List.dropWhile_sublist isBlank).subset (by rwa [hdrop])
            exact decide_eq_true (ne_of_mem_of_not_mem hmem hline)
          rw [hempty] at hend
          have hskip := nextToken_hash hstart hdrop
          rw [skipComment_eq hhash' hone, Option.bind_some] at hskip
          split_ifs at hskip
          · exact ⟨_, hskip.trans (nextToken_nil hend rfl)⟩
          · rw [hskip] at hnext
            cases hnext
      obtain ⟨pos', heof⟩ := heof
      rw [hnext] at heof
      simp [hne] at heof

/-! ### The operator -/

/-- The operator of a here document. -/
def heredocOperator (stripTabs : Bool) : Text :=
  if stripTabs then "<<-".toList else "<<".toList

section

variable {word delimiter behind rest blanks gap : Text} {stripTabs quoted : Bool}

lemma readHeredocDelimiter_plain (hne : word ≠ [])
    (hhead : ∀ c ∈ word.head?, ¬ (c = '\'' ∨ c = '"'))
    (hplain : ∀ c ∈ word, isWhitespace c = false)
    (hbehind : ∀ c ∈ behind.head?, isWhitespace c = true) :
    readHeredocDelimiter (word ++ behind) 0 = some (.ok (word, false), byteLen word) := by
  obtain ⟨c, word, rfl⟩ := List.exists_cons_of_ne_nil hne
  have hpos := c.utf8Size_pos
  rw [readHeredocDelimiter, if_neg, sliceFrom_zero]
  · simp only [List.cons_append]
    rw [if_neg (hhead c rfl), ← List.cons_append, readPlainDelimiter_append hplain hbehind]
    rfl
  · rw [List.cons_append, byteLen_cons]
    omega

lemma readHeredocDelimiter_quoted {quote : Char} (hquote : quote = '\'' ∨ quote = '"')
    (hmem : quote ∉ delimiter) :
    readHeredocDelimiter (quote :: (delimiter ++ quote :: behind)) 0 =
      some (.ok (delimiter, true), byteLen (quote :: (delimiter ++ [quote]))) := by
  have hsize : quote.utf8Size = 1 := by
    obtain rfl | rfl := hquote <;> rfl
  have hread : readQuotedDelimiter (quote :: (delimiter ++ quote :: behind)) quote (0 + 1) =
      some (1 + (byteLen delimiter + 1), delimiter, true) := by
    have hshift : readQuotedDelimiter ([quote] ++ (delimiter ++ quote :: behind)) quote
        (byteLen [quote] + 0) = _ := readQuotedDelimiter_shift quote
    rw [readQuotedDelimiter_append hmem, byteLen_cons, hsize] at hshift
    exact hshift
  rw [readHeredocDelimiter, if_neg, sliceFrom_zero]
  · dsimp only
    rw [if_pos hquote, hread]
    simp only [Option.map_some, if_true, byteLen_cons, byteLen_append, byteLen_nil, hsize]
  · rw [byteLen_cons]
    omega

lemma shiftedResult_shiftedResult {β : Type} (k l : ℕ) (r : Except ShellError β × ℕ) :
    shiftedResult k (shiftedResult l r) = shiftedResult (k + l) r := by
  obtain ⟨result, pos⟩ := r
  cases result with
  | error e =>
    cases e <;>
      simp only [shiftedResult, Except.mapError, ShellError.shift, Nat.add_assoc]
  | ok b => simp only [shiftedResult, Except.mapError, Nat.add_assoc]

/-- Behind the delimiter the lexer looks for the document. -/
lemma lexHeredoc_operator (hblanks : ∀ c ∈ blanks, c = ' ' ∨ c = '\t')
    (hhead : ∀ c ∈ (word ++ behind).head?, c ≠ ' ' ∧ c ≠ '\t')
    (hdash : stripTabs = false → (blanks ++ (word ++ behind)).head? ≠ some '-')
    (hread : readHeredocDelimiter (word ++ behind) 0 = some (.ok (delimiter, quoted), byteLen word))
    (hne : delimiter ≠ []) :
    lexHeredoc (heredocOperator stripTabs ++ (blanks ++ (word ++ behind))) 0 =
      (lexHeredocBody behind delimiter stripTabs 0).map
        (shiftedResult (byteLen (heredocOperator stripTabs ++ (blanks ++ word)))) := by
  generalize hinput : heredocOperator stripTabs ++ (blanks ++ (word ++ behind)) = input
  have hskip : skipBlanks input (byteLen (heredocOperator stripTabs)) =
      some (byteLen (heredocOperator stripTabs ++ blanks)) := by
    have hshift : skipBlanks (heredocOperator stripTabs ++ (blanks ++ (word ++ behind)))
        (byteLen (heredocOperator stripTabs) + 0) = _ := skipBlanks_shift
    rw [skipBlanks_append hblanks hhead, Nat.add_zero, hinput] at hshift
    rw [hshift, byteLen_append]
    rfl
  have hdelimiter : readHeredocDelimiter input (byteLen (heredocOperator stripTabs ++ blanks)) =
      some (.ok (delimiter, quoted), byteLen (heredocOperator stripTabs ++ (blanks ++ word))) := by
    have hshift : readHeredocDelimiter (heredocOperator stripTabs ++ blanks ++ (word ++ behind))
        (byteLen (heredocOperator stripTabs ++ blanks) + 0) = _ := readHeredocDelimiter_shift
    rw [hread, Nat.add_zero, List.append_assoc, hinput] at hshift
    rw [hshift, ← List.append_assoc, byteLen_append (b := word)]
    rfl
  have hbody : lexHeredocBody input delimiter stripTabs
      (byteLen (heredocOperator stripTabs ++ (blanks ++ word))) =
      (lexHeredocBody behind delimiter stripTabs 0).map
        (shiftedResult (byteLen (heredocOperator stripTabs ++ (blanks ++ word)))) := by
    have hshift : lexHeredocBody (heredocOperator stripTabs ++ (blanks ++ word) ++ behind) delimiter
        stripTabs (byteLen (heredocOperator stripTabs ++ (blanks ++ word)) + 0) = _ :=
      lexHeredocBody_shift delimiter stripTabs
    rw [Nat.add_zero, List.append_assoc, List.append_assoc, hinput] at hshift
    exact hshift
  have hafter : sliceFrom input (0 + 2) =
      some ((heredocOperator stripTabs).drop 2 ++ (blanks ++ (word ++ behind))) := by
    subst hinput
    cases stripTabs <;> exact sliceFrom_append (a := ['<', '<'])
  have hstart : (if ((heredocOperator stripTabs).drop 2 ++ (blanks ++ (word ++ behind))).head? =
      some '-' then 0 + 2 + 1 else 0 + 2) = byteLen (heredocOperator stripTabs) := by
    cases stripTabs with
    | false => exact if_neg (hdash rfl)
    | true => rfl
  have hstrip : decide (((heredocOperator stripTabs).drop 2 ++ (blanks ++ (word ++ behind))).head? =
      some '-') = stripTabs := by
    cases stripTabs with
    | false => exact decide_eq_false (hdash rfl)
    | true => rfl
  rw [lexHeredoc, hafter]
  simp only [Option.bind_eq_bind, Option.bind_some, hstart, hstrip, hskip,
    hdelimiter, if_neg hne, hbody]

/-- Where the operator stands, behind blanks, the next token is the document. -/
lemma nextToken_operator (hgap : ∀ c ∈ gap, isBlank c = true) :
    nextToken (gap ++ (heredocOperator stripTabs ++ behind)) 0 =
      (lexHeredoc (heredocOperator stripTabs ++ behind) 0).map (shiftedResult (byteLen gap)) := by
  obtain ⟨tail, htail⟩ : ∃ tail, heredocOperator stripTabs ++ behind = '<' :: '<' :: tail := by
    cases stripTabs <;> exact ⟨_, rfl⟩
  rw [htail]
  have hskip : skipWhitespace (gap ++ '<' :: '<' :: tail) 0 = some (byteLen gap) := by
    rw [skipWhitespace_eq sliceFrom_zero, takeWhile_append_of_head? hgap, Nat.zero_add]
    rintro c ⟨rfl⟩
    rfl
  have hin : ¬ byteLen (gap ++ '<' :: '<' :: tail) ≤ byteLen gap := by
    rw [byteLen_append, byteLen_cons]
    exact not_le.mpr (Nat.lt_add_of_pos_right (Nat.add_pos_left (Char.utf8Size_pos '<') _))
  have hoperator : lexOperator ('<' :: '<' :: tail) = none := rfl
  rw [nextToken, hskip]
  dsimp only
  rw [if_neg hin, sliceFrom_append]
  dsimp only
  rw [hoperator]
  dsimp only
  rw [if_pos ⟨rfl, rfl⟩]
  rw [← Nat.add_zero (byteLen gap), lexHeredoc_shift, Nat.add_zero]

end

/-! ### Scripts -/

/-- A script with a here document: a command line, the lines of the document, its delimiter line,
and the lines that follow. -/
structure HeredocScript where
  /-- The script up to the last token before the operator, and the blanks behind that. -/
  front : Text
  gap : Text
  stripTabs : Bool
  blanks : Text
  quote : Option Char
  delimiter : Text
  /-- The rest of the command line. -/
  rest : Text
  body : List Text
  delimiterLine : Text
  /-- The lines behind the delimiter line, if there are any. -/
  following : Option Text
  gap_isBlank : ∀ c ∈ gap, isBlank c = true
  blanks_eq : ∀ c ∈ blanks, c = ' ' ∨ c = '\t'
  delimiter_ne : delimiter ≠ []
  quote_eq : ∀ q ∈ quote, (q = '\'' ∨ q = '"') ∧ q ∉ delimiter
  plain_eq : quote = none → (∀ c ∈ delimiter, isWhitespace c = false) ∧
    ∀ c ∈ delimiter.head?, ¬ (c = '\'' ∨ c = '"')
  -- a dash behind the operator is a part of it
  dash_ne : quote = none → stripTabs = false → (blanks ++ delimiter).head? ≠ some '-'
  rest_head : ∀ c ∈ rest.head?, isWhitespace c = true ∨ isTerminator c = true
  rest_line : '\n' ∉ rest
  body_line : ∀ l ∈ body, '\n' ∉ l ∧ stripLine stripTabs l ≠ delimiter
  delimiterLine_line : '\n' ∉ delimiterLine ∧ stripLine stripTabs delimiterLine = delimiter

namespace HeredocScript

variable (s : HeredocScript)

/-- The delimiter as it is written. -/
def word : Text :=
  match s.quote with
  | none => s.delimiter
  | some q => q :: (s.delimiter ++ [q])

/-- The lines that follow, behind the line break. -/
def tail : Text :=
  match s.following with
  | none => []
  | some following => '\n' :: following

/-- The lines behind the command line. -/
def document : Text := linesText s.body ++ (s.delimiterLine ++ s.tail)

def text : Text :=
  s.front ++ (s.gap ++ (heredocOperator s.stripTabs ++
    (s.blanks ++ (s.word ++ (s.rest ++ '\n' :: s.document)))))

/-- What is left of the script behind the delimiter word, without the document and its delimiter
line. -/
def remainder : Text := s.rest ++ s.tail

/-- The lexer where the operator stands. -/
def atOperator : Lexer := { input := s.text, pos := byteLen s.front, peeked := none }

/-- The characters of the rest of the command line that the lexer takes for a part of the
delimiter. -/
def glued : Text := if s.quote = none then s.rest.takeWhile (!isWhitespace ·) else []

/-- What the lexer leaves of the rest of the command line. -/
def behind : Text := if s.quote = none then s.rest.dropWhile (!isWhitespace ·) else s.rest

lemma glued_append_behind : s.glued ++ s.behind = s.rest := by
  rw [glued, behind]
  split_ifs
  · exact List.takeWhile_append_dropWhile
  · rfl

lemma not_mem_behind : '\n' ∉ s.behind := by
  intro hmem
  apply s.rest_line
  rw [← glued_append_behind]
  exact List.mem_append_right _ hmem

/-- The delimiter that the lexer reads. -/
lemma readHeredocDelimiter_eq : ∃ quoted,
    readHeredocDelimiter (s.word ++ s.glued ++ (s.behind ++ '\n' :: s.document)) 0 =
      some (.ok (s.delimiter ++ s.glued, quoted), byteLen (s.word ++ s.glued)) := by
  cases hquote : s.quote with
  | none =>
    obtain ⟨hplain, hhead⟩ := s.plain_eq hquote
    obtain ⟨c, delimiter, hdelimiter⟩ := List.exists_cons_of_ne_nil s.delimiter_ne
    rw [word, hquote, glued, behind, if_pos hquote, if_pos hquote]
    refine ⟨false, readHeredocDelimiter_plain ?_ ?_ ?_ ?_⟩
    · simp [s.delimiter_ne]
    · rw [hdelimiter] at hhead ⊢
      exact hhead
    · intro c hc
      obtain hc | hc := List.mem_append.mp hc
      · exact hplain c hc
      · simpa using List.mem_takeWhile_imp hc
    · cases hdrop : s.rest.dropWhile (!isWhitespace ·) with
      | nil =>
        rintro c ⟨rfl⟩
        rfl
      | cons c rest =>
        rintro c' ⟨rfl⟩
        simpa using not_of_dropWhile_eq_cons hdrop
  | some q =>
    obtain ⟨hq, hmem⟩ := s.quote_eq q hquote
    have hword : s.word ++ s.glued = q :: (s.delimiter ++ [q]) := by
      simp [word, glued, hquote]
    have hread : readHeredocDelimiter (q :: (s.delimiter ++ q :: (s.behind ++ '\n' :: s.document)))
        0 = _ := readHeredocDelimiter_quoted hq hmem
    rw [hword]
    refine ⟨true, ?_⟩
    simpa [glued, hquote] using hread

/-- The delimiter word starts with no blank, and with no dash that would belong to the operator. -/
lemma exists_word_eq : ∃ c word, s.word = c :: word ∧ (c ≠ ' ' ∧ c ≠ '\t') ∧
    (s.stripTabs = false → (s.blanks ++ [c]).head? ≠ some '-') := by
  cases hquote : s.quote with
  | none =>
    obtain ⟨c, delimiter, hdelimiter⟩ := List.exists_cons_of_ne_nil s.delimiter_ne
    have hc := (s.plain_eq hquote).1 c (by simp [hdelimiter])
    refine ⟨c, delimiter, by rw [word, hquote, hdelimiter], ⟨?_, ?_⟩, fun hstrip => ?_⟩
    · rintro rfl
      exact absurd hc (by decide)
    · rintro rfl
      exact absurd hc (by decide)
    · have hdash := s.dash_ne hquote hstrip
      rw [hdelimiter] at hdash
      cases hblanks : s.blanks with
      | nil =>
        rw [hblanks] at hdash
        exact hdash
      | cons b blanks =>
        rw [hblanks] at hdash
        exact hdash
  | some q =>
    obtain ⟨hq, -⟩ := s.quote_eq q hquote
    refine ⟨q, s.delimiter ++ [q], by rw [word, hquote], ?_, fun _ => ?_⟩
    · obtain rfl | rfl := hq <;> exact ⟨by decide, by decide⟩
    · cases hblanks : s.blanks with
      | nil => obtain rfl | rfl := hq <;> decide
      | cons b blanks =>
        obtain rfl | rfl := s.blanks_eq b (by simp [hblanks]) <;> simp

/-- The next token at the operator is the document. -/
lemma nextToken_atOperator :
    nextToken s.text (byteLen s.front) =
      (lexHeredocBody (s.behind ++ '\n' :: s.document) (s.delimiter ++ s.glued) s.stripTabs 0).map
        (shiftedResult (byteLen (s.front ++ (s.gap ++ (heredocOperator s.stripTabs ++
          (s.blanks ++ (s.word ++ s.glued))))))) := by
  obtain ⟨quoted, hread⟩ := s.readHeredocDelimiter_eq
  obtain ⟨c, word, hword, hblank, hdash⟩ := s.exists_word_eq
  have htext : s.text = s.front ++ (s.gap ++ (heredocOperator s.stripTabs ++
      (s.blanks ++ (s.word ++ s.glued ++ (s.behind ++ '\n' :: s.document))))) := by
    rw [text, ← glued_append_behind]
    simp only [List.append_assoc]
  have hhead : ∀ c ∈ (s.word ++ s.glued ++ (s.behind ++ '\n' :: s.document)).head?,
      c ≠ ' ' ∧ c ≠ '\t' := by
    rw [hword]
    rintro c ⟨rfl⟩
    exact hblank
  have hdash' : s.stripTabs = false →
      (s.blanks ++ (s.word ++ s.glued ++ (s.behind ++ '\n' :: s.document))).head? ≠ some '-' := by
    intro hstrip
    have hdash := hdash hstrip
    rw [hword]
    cases hblanks : s.blanks with
    | nil =>
      rw [hblanks] at hdash
      exact hdash
    | cons b blanks =>
      rw [hblanks] at hdash
      exact hdash
  have hne : s.delimiter ++ s.glued ≠ [] := List.append_ne_nil_of_left_ne_nil s.delimiter_ne _
  have hheredoc := lexHeredoc_operator s.blanks_eq hhead hdash' hread hne
  have hshift : nextToken (s.front ++ (s.gap ++ (heredocOperator s.stripTabs ++
      (s.blanks ++ (s.word ++ s.glued ++ (s.behind ++ '\n' :: s.document))))))
        (byteLen s.front + 0) = _ := nextToken_shift
  rw [Nat.add_zero, ← htext, nextToken_operator s.gap_isBlank, hheredoc] at hshift
  rw [hshift, Option.map_map, Option.map_map]
  congr 1
  funext r
  simp only [Function.comp_apply, shiftedResult_shiftedResult, byteLen_append]

variable {s} {front back : List Text} {line content : Text}

/-- The lexer goes on behind the first line that it takes for the delimiter. -/
lemma lexes_atOperator (hlines : s.document.splitOn '\n' = front ++ line :: back)
    (hfront : ∀ l ∈ front, ¬ TakenFor (s.delimiter ++ s.glued) s.stripTabs l)
    (hline : TakenFor (s.delimiter ++ s.glued) s.stripTabs line) :
    Lexes s.atOperator (.hereDoc content s.stripTabs :: ts) ↔
      content = heredocContent s.stripTabs (linesText front) ∧
        Lexes (.new ((back.flatMap (['\n'] ++ ·)).drop 1)) ts := by
  have hbody := lexHeredocBody_append s.not_mem_behind hlines hfront hline
  have htoken := s.nextToken_atOperator
  rw [hbody] at htoken
  generalize hbefore : s.front ++ (s.gap ++ (heredocOperator s.stripTabs ++
    (s.blanks ++ (s.word ++ s.glued)))) = before at htoken
  generalize hread : s.behind ++ '\n' :: (linesText front ++ (line ++
    (back.flatMap (['\n'] ++ ·)).take 1)) = read at htoken
  have htext : s.text = before ++ read ++ (back.flatMap (['\n'] ++ ·)).drop 1 := by
    rw [← hbefore, ← hread, text, ← glued_append_behind, eq_of_splitOn hlines]
    simp only [List.append_assoc, List.cons_append, List.take_append_drop]
  have htakes : Takes s.atOperator
      (.hereDoc (heredocContent s.stripTabs (linesText front)) s.stripTabs)
      ((Lexer.new ((back.flatMap (['\n'] ++ ·)).drop 1)).shift (before ++ read)) := by
    have hpos : byteLen before + byteLen read = byteLen (before ++ read) := byteLen_append.symm
    rw [Takes, Lexer.next_eq rfl]
    simp only [atOperator, htoken, Option.map_some, shiftedResult, Except.mapError, Lexer.shift,
      Lexer.new, ← htext, hpos, Nat.add_zero]
  constructor
  · intro hlexes
    obtain ⟨-, lexer', htakes', hrest⟩ := hlexes.next
    obtain ⟨htokens, rfl⟩ := takes_unique htakes' htakes
    exact ⟨(Token.hereDoc.inj htokens).1, lexes_shift.mp hrest⟩
  · rintro ⟨rfl, hrest⟩
    exact .token (by simp) htakes (lexes_shift.mpr hrest)

/-- Without such a line the lexer fails. -/
lemma not_lexes_atOperator
    (h : ∀ l ∈ s.document.splitOn '\n', ¬ TakenFor (s.delimiter ++ s.glued) s.stripTabs l) :
    ¬ Lexes s.atOperator ts := by
  intro hlexes
  obtain ⟨e, hbody⟩ := lexHeredocBody_eq_error s.not_mem_behind h
  have htoken := s.nextToken_atOperator
  rw [hbody] at htoken
  have hnone : ∀ token lexer', ¬ Takes s.atOperator token lexer' := by
    intro token lexer' htakes
    rw [Takes, Lexer.next_eq rfl] at htakes
    simp [atOperator, htoken, shiftedResult, Except.mapError] at htakes
  cases hlexes with
  | eof htakes => exact hnone _ _ htakes
  | token _ htakes _ => exact hnone _ _ htakes

/-! ### The tokens of a script -/

variable (s) in
/-- The lines behind the delimiter line. -/
def followingLines : List Text :=
  match s.following with
  | none => []
  | some following => following.splitOn '\n'

lemma splitOn_document :
    s.document.splitOn '\n' = s.body ++ s.delimiterLine :: s.followingLines := by
  rw [document, splitOn_linesText fun l hl => (s.body_line l hl).1, tail, followingLines]
  cases s.following with
  | none => rw [List.append_nil, List.splitOn_eq_singleton s.delimiterLine_line.1]
  | some following =>
    dsimp only
    rw [List.splitOn_append_cons_self_of_not_mem s.delimiterLine_line.1]

lemma takenFor_delimiterLine : TakenFor s.delimiter s.stripTabs s.delimiterLine :=
  .inl s.delimiterLine_line.2

lemma stripLine_ne_nil {delimiter : Text} {stripTabs : Bool} (hne : delimiter ≠ [])
    (h : TakenFor delimiter stripTabs line) : stripLine stripTabs line ≠ [] := by
  intro hnil
  obtain heq | heq := h
  · exact hne (heq.symm.trans hnil)
  · rw [hnil] at heq
    exact hne heq.symm

/-- A delimiter without quotes has no carriage return. -/
lemma getLast_delimiterLine (hquote : s.quote = none) : s.delimiterLine.getLast? ≠ some '\r' := by
  intro hcr
  have hmem : '\r' ∈ s.delimiter := by
    rw [← s.delimiterLine_line.2]
    cases s.stripTabs with
    | false => exact List.mem_of_getLast? hcr
    | true =>
      rw [stripLine_of_carriageReturn hcr]
      exact List.mem_append_right _ (List.mem_singleton_self _)
  exact absurd ((s.plain_eq hquote).1 _ hmem) (by decide)

lemma glued_of_takenFor (h : TakenFor (s.delimiter ++ s.glued) s.stripTabs s.delimiterLine) :
    s.glued = [] := by
  have hlen : (s.delimiter ++ s.glued).length ≤ s.delimiter.length := by
    rw [TakenFor, s.delimiterLine_line.2] at h
    obtain heq | heq := h
    · rw [← heq]
    · rw [← heq]
      exact (List.rdropWhile_prefix _ _).length_le
  rw [List.length_append] at hlen
  exact List.length_eq_zero_iff.mp (by omega)

/-- A document with the content of the body is the body. -/
lemma eq_body (hlines : s.document.splitOn '\n' = front ++ line :: back)
    (hfront : ∀ l ∈ front, ¬ TakenFor (s.delimiter ++ s.glued) s.stripTabs l)
    (hline : TakenFor (s.delimiter ++ s.glued) s.stripTabs line)
    (hcontent : documentContent s.stripTabs s.body =
      heredocContent s.stripTabs (linesText front)) :
    front = s.body ∧ line = s.delimiterLine ∧ back = s.followingLines := by
  have hbreak : ∀ l ∈ front, '\n' ∉ l := by
    intro l hl
    apply not_mem_of_mem_splitOn (s := s.document)
    rw [hlines]
    exact List.mem_append_left _ hl
  rw [splitOn_document] at hlines
  obtain ⟨more, hmore, hrest⟩ | ⟨more, hmore, hrest⟩ := List.append_eq_append_iff.mp hlines
  · cases more with
    | nil =>
      obtain ⟨hline, hback⟩ := List.cons.inj hrest
      exact ⟨by rw [hmore, List.append_nil], hline.symm, hback.symm⟩
    | cons l more =>
      -- the delimiter line itself is read as a line of the document
      obtain ⟨rfl, -⟩ := List.cons.inj hrest
      have hnot : ¬ TakenFor (s.delimiter ++ s.glued) s.stripTabs s.delimiterLine :=
        hfront _ (by simp [hmore])
      have hquote : s.quote = none := by
        by_contra hquote
        apply hnot
        rw [glued, if_neg hquote, List.append_nil]
        exact takenFor_delimiterLine
      rw [hmore] at hcontent hbreak
      exact absurd hcontent.symm (heredocContent_ne hbreak
        (stripLine_ne_nil s.delimiter_ne takenFor_delimiterLine) (getLast_delimiterLine hquote))
  · cases more with
    | nil =>
      obtain ⟨hline, hback⟩ := List.cons.inj hrest
      exact ⟨by rw [hmore, List.append_nil], hline, hback⟩
    | cons l more =>
      -- a line of the body ends the document
      obtain ⟨rfl, -⟩ := List.cons.inj hrest
      have hne := stripLine_ne_nil (List.append_ne_nil_of_left_ne_nil s.delimiter_ne _) hline
      have hshort : (heredocContent s.stripTabs (linesText front)).length ≤ _ :=
        length_heredocContent_le hbreak
      have hlong : (documentContent s.stripTabs front).length <
          (documentContent s.stripTabs (front ++ line :: more)).length :=
        length_documentContent_lt hne
      rw [← hmore, hcontent] at hlong
      omega

variable (s) in
/-- The document ends at its delimiter line, and all of it is kept. -/
def KeepsDocument : Prop :=
  (∀ l ∈ s.body, (stripLine s.stripTabs l).rdropWhile isWhitespace ≠ s.delimiter) ∧
    (s.stripTabs = true → (∀ l ∈ s.body, l.getLast? ≠ some '\r') ∧
      ∀ front last, s.body = front ++ [last] → front ≠ [] → stripLine true last ≠ [])

lemma not_takenFor_iff :
    (∀ l ∈ s.body, ¬ TakenFor s.delimiter s.stripTabs l) ↔
      ∀ l ∈ s.body, (stripLine s.stripTabs l).rdropWhile isWhitespace ≠ s.delimiter := by
  constructor
  · exact fun h l hl heq => h l hl (.inr heq)
  · intro h l hl htaken
    obtain heq | heq := htaken
    · exact (s.body_line l hl).2 heq
    · exact h l hl heq

lemma heredocContent_body_iff :
    documentContent s.stripTabs s.body = heredocContent s.stripTabs (linesText s.body) ↔
      (s.stripTabs = true → (∀ l ∈ s.body, l.getLast? ≠ some '\r') ∧
        ∀ front last, s.body = front ++ [last] → front ≠ [] → stripLine true last ≠ []) := by
  cases s.stripTabs with
  | false => simp [heredocContent_false]
  | true =>
    rw [eq_comm, heredocContent_true fun l hl => (s.body_line l hl).1]
    simp

/-- What follows the delimiter line is read without the line break before it. -/
lemma drop_followingLines :
    (s.followingLines.flatMap (['\n'] ++ ·)).drop 1 = s.following.getD [] := by
  rw [followingLines]
  cases s.following with
  | none => rfl
  | some following =>
    obtain ⟨line, back, hlines⟩ := List.exists_cons_of_ne_nil (List.splitOn_ne_nil '\n' following)
    have hjoin : ['\n'].intercalate (following.splitOn '\n') = following :=
      List.intercalate_splitOn '\n'
    rw [hlines, intercalate_cons] at hjoin
    dsimp only
    rw [hlines, List.flatMap_cons, List.append_assoc, List.singleton_append, List.drop_one,
      List.tail_cons, hjoin]
    rfl

/-- Nothing but a comment, up to the end of the script, is left to disturb. -/
def LeavesNothing (s : HeredocScript) : Prop :=
  s.following = none ∧ ∀ c ∈ (s.rest.dropWhile isBlank).head?, c = '#'

/-- A document that is read ends at a line that is taken for the delimiter. -/
lemma exists_of_lexes (h : Lexes s.atOperator ts) : ∃ front line back,
    s.document.splitOn '\n' = front ++ line :: back ∧
      (∀ l ∈ front, ¬ TakenFor (s.delimiter ++ s.glued) s.stripTabs l) ∧
      TakenFor (s.delimiter ++ s.glued) s.stripTabs line := by
  cases hfind : (s.document.splitOn '\n').find?
      fun l => decide (TakenFor (s.delimiter ++ s.glued) s.stripTabs l) with
  | none =>
    refine absurd h (not_lexes_atOperator fun l hl => ?_)
    simpa using List.find?_eq_none.mp hfind l hl
  | some line =>
    obtain ⟨htaken, front, back, hlines, hfront⟩ := List.find?_eq_some_iff_append.mp hfind
    refine ⟨front, line, back, hlines, fun l hl => ?_, of_decide_eq_true htaken⟩
    simpa using hfront l hl

lemma lexes_nil_iff : Lexes (.new []) ts ↔ ts = [] := by
  have hnext : nextToken [] 0 = some (.ok .eof, 0) := nextToken_nil sliceFrom_zero rfl
  have heof : Takes (.new []) .eof { input := [], pos := 0, peeked := none } := by
    rw [Takes, Lexer.next_eq rfl]
    simp only [Lexer.new, hnext, Option.map_some]
  constructor
  · exact fun h => lexes_unique h (.eof heof)
  · rintro rfl
    exact .eof heof

/-- The line break behind the command line is lost, if there is one. -/
lemma following_eq_none (hrest : Lexes (.new s.remainder) ts)
    (hline : s.following ≠ none → ∃ us, TakesAll (.new s.remainder) (us ++ [.newline])
      { input := s.remainder, pos := byteLen s.rest + 1, peeked := none })
    (hbehind : Lexes (.new (s.following.getD [])) ts) : s.following = none := by
  cases hfollowing : s.following with
  | none => rfl
  | some following =>
    obtain ⟨us, htakes⟩ := hline (by simp [hfollowing])
    obtain ⟨ts', hts, hlexes⟩ := htakes.of_lexes hrest
    have hshift : ({ input := s.remainder, pos := byteLen s.rest + 1, peeked := none } : Lexer) =
        (Lexer.new following).shift (s.rest ++ ['\n']) := by
      have hbreak : '\n'.utf8Size = 1 := rfl
      simp [Lexer.shift, Lexer.new, remainder, tail, hfollowing, byteLen_append, byteLen_cons,
        byteLen_nil, hbreak]
    rw [hshift, lexes_shift] at hlexes
    rw [hfollowing] at hbehind
    have hlen := congrArg List.length (lexes_unique hlexes hbehind)
    rw [hts, List.length_append, List.length_append, List.length_singleton] at hlen
    omega

/-- Where a comment at most is behind the delimiter word, nothing is taken for a part of it. -/
lemma glued_eq_nil (hcomment : ∀ c ∈ (s.rest.dropWhile isBlank).head?, c = '#') :
    s.glued = [] := by
  have hhead := s.rest_head
  rw [glued]
  split_ifs with hquote
  · cases hrest : s.rest with
    | nil => rfl
    | cons c rest =>
      rw [hrest] at hhead hcomment
      have hwhite : isWhitespace c = true := by
        by_contra hwhite
        have hblank : isBlank c ≠ true := by
          intro hblank
          simp only [isBlank, Bool.or_eq_true, decide_eq_true_eq] at hblank
          obtain (rfl | rfl) | rfl := hblank <;> exact hwhite (by decide)
        rw [List.dropWhile_cons_of_neg hblank] at hcomment
        obtain rfl := hcomment c rfl
        obtain htrue | htrue := hhead '#' rfl
        · exact absurd htrue (by decide)
        · exact absurd htrue (by decide)
      rw [List.takeWhile_cons_of_neg (by simp [hwhite])]
  · rfl

/-- The tokens at the operator are those that the script should have there. -/
lemma lexes_document_iff (hrest : Lexes (.new s.remainder) ts)
    (hline : s.following ≠ none → ∃ us, TakesAll (.new s.remainder) (us ++ [.newline])
      { input := s.remainder, pos := byteLen s.rest + 1, peeked := none }) :
    Lexes s.atOperator (.hereDoc (documentContent s.stripTabs s.body) s.stripTabs :: ts) ↔
      s.LeavesNothing ∧ s.KeepsDocument := by
  have hremainder : s.following = none → s.remainder = s.rest := by
    intro hfollowing
    rw [remainder, tail, hfollowing, List.append_nil]
  constructor
  · intro hlexes
    obtain ⟨front, line, back, hlines, hfront, htaken⟩ := exists_of_lexes hlexes
    obtain ⟨hcontent, hbehind⟩ := (lexes_atOperator hlines hfront htaken).mp hlexes
    obtain ⟨rfl, rfl, rfl⟩ := eq_body hlines hfront htaken hcontent
    rw [drop_followingLines] at hbehind
    have hfollowing := following_eq_none hrest hline hbehind
    rw [hfollowing] at hbehind
    rw [hremainder hfollowing] at hrest
    rw [glued_of_takenFor htaken, List.append_nil] at hfront
    exact ⟨⟨hfollowing, (lexes_line s.rest_line hrest).mp (lexes_nil_iff.mp hbehind)⟩,
      not_takenFor_iff.mp hfront, heredocContent_body_iff.mp hcontent⟩
  · rintro ⟨⟨hfollowing, hcomment⟩, hdelimiter, hkept⟩
    have hglued := glued_eq_nil hcomment
    have hfront : ∀ l ∈ s.body, ¬ TakenFor (s.delimiter ++ s.glued) s.stripTabs l := by
      rw [hglued, List.append_nil]
      exact not_takenFor_iff.mpr hdelimiter
    have htaken : TakenFor (s.delimiter ++ s.glued) s.stripTabs s.delimiterLine := by
      rw [hglued, List.append_nil]
      exact takenFor_delimiterLine
    rw [hremainder hfollowing] at hrest
    refine (lexes_atOperator splitOn_document hfront htaken).mpr
      ⟨heredocContent_body_iff.mpr hkept, ?_⟩
    rw [drop_followingLines, hfollowing]
    exact lexes_nil_iff.mpr ((lexes_line s.rest_line hrest).mpr hcomment)

/-- The tokens of a script with a here document are those of the script without the document and its
delimiter line if, and only if, these are the last lines, no more than a comment stands behind the
delimiter word, and the document is read as it is written. -/
theorem lexes_text_iff (hfront : TakesAll (.new s.text) us s.atOperator)
    (hrest : Lexes (.new s.remainder) ts)
    (hline : s.following ≠ none → ∃ us, TakesAll (.new s.remainder) (us ++ [.newline])
      { input := s.remainder, pos := byteLen s.rest + 1, peeked := none }) :
    Lexes (.new s.text)
        (us ++ .hereDoc (documentContent s.stripTabs s.body) s.stripTabs :: ts) ↔
      s.LeavesNothing ∧ s.KeepsDocument :=
  hfront.lexes_iff.trans (lexes_document_iff hrest hline)

/-- `cat <<EOF`, with one line. -/
def cat : HeredocScript where
  front := "cat".toList
  gap := " ".toList
  stripTabs := false
  blanks := []
  quote := none
  delimiter := "EOF".toList
  rest := []
  body := ["a".toList]
  delimiterLine := "EOF".toList
  following := none
  gap_isBlank := List.all_iff_forall_prop.mp (by decide)
  blanks_eq := List.forall_mem_nil _
  delimiter_ne := by decide
  quote_eq := by simp
  plain_eq := fun _ => ⟨List.all_iff_forall_prop.mp (by decide), by rintro c ⟨rfl⟩; decide⟩
  dash_ne := by decide
  rest_head := by simp
  rest_line := by decide
  body_line := by decide
  delimiterLine_line := by decide

/-- The same in a pipeline, and a command behind it. -/
def catPipe : HeredocScript :=
  { cat with
    rest := " | wc".toList
    following := some "echo b".toList
    rest_head := by rintro c ⟨rfl⟩; decide
    rest_line := by decide }

theorem lexes_text_iff_cat :
    Lexes (.new "cat <<EOF\na\nEOF".toList)
        [.word (.unquoted "cat".toList), .hereDoc "a".toList false] ↔
      cat.LeavesNothing ∧ cat.KeepsDocument := by
  have hcat : Takes (.new cat.text) (.word (.unquoted "cat".toList)) cat.atOperator := by
    unfold Takes
    decide +kernel
  have hend : Takes (.new cat.remainder) .eof (.new []) := by
    unfold Takes
    decide +kernel
  exact lexes_text_iff (s := cat) (.cons (by decide) hcat .nil) (.eof hend)
    fun hne => absurd rfl hne

/-- The pipe and the line break are lost. -/
theorem not_lexes_text :
    ¬ ∀ (s : HeredocScript) (us ts : List Token), TakesAll (.new s.text) us s.atOperator →
      Lexes (.new s.remainder) ts →
      (s.following ≠ none → ∃ us, TakesAll (.new s.remainder) (us ++ [.newline])
        { input := s.remainder, pos := byteLen s.rest + 1, peeked := none }) →
      Lexes (.new s.text)
        (us ++ .hereDoc (documentContent s.stripTabs s.body) s.stripTabs :: ts) := by
  intro h
  have hfront : Takes (.new catPipe.text) (.word (.unquoted "cat".toList)) catPipe.atOperator := by
    unfold Takes
    decide +kernel
  have hrest : Lexes ⟨catPipe.remainder, 6, none⟩
      [.word (.unquoted "echo".toList), .word (.unquoted "b".toList)] := by
    refine .token (by decide) (?_ : Takes _ _ ⟨catPipe.remainder, 10, none⟩)
      (.token (by decide) (?_ : Takes _ _ ⟨catPipe.remainder, 12, none⟩)
        (.eof (?_ : Takes _ _ ⟨catPipe.remainder, 12, none⟩)))
    all_goals
      unfold Takes
      decide +kernel
  have hline : TakesAll (.new catPipe.remainder)
      [.pipe, .word (.unquoted "wc".toList), .newline] ⟨catPipe.remainder, 6, none⟩ := by
    refine .cons (by decide) (?_ : Takes _ _ ⟨catPipe.remainder, 2, none⟩)
      (.cons (by decide) (?_ : Takes _ _ ⟨catPipe.remainder, 5, none⟩) (.cons (by decide) ?_ .nil))
    all_goals
      unfold Takes
      decide +kernel
  have hactual : Lexes catPipe.atOperator [.hereDoc "a".toList false,
      .word (.unquoted "echo".toList), .word (.unquoted "b".toList)] := by
    refine .token (by decide) (?_ : Takes _ _ ⟨catPipe.text, 21, none⟩)
      (.token (by decide) (?_ : Takes _ _ ⟨catPipe.text, 25, none⟩)
        (.token (by decide) (?_ : Takes _ _ ⟨catPipe.text, 27, none⟩)
          (.eof (?_ : Takes _ _ ⟨catPipe.text, 27, none⟩))))
    all_goals
      unfold Takes
      decide +kernel
  have hfront' : TakesAll (.new catPipe.text) _ catPipe.atOperator :=
    .cons (by decide) hfront .nil
  have hclaimed := h catPipe _ _ hfront' (hline.lexes_iff.mpr hrest)
    fun _ => ⟨[.pipe, .word (.unquoted "wc".toList)], hline⟩
  have hsame := lexes_unique (hfront'.lexes_iff.mp hclaimed) hactual
  exact absurd (congrArg List.length hsame) (by decide)

end HeredocScript

end AmlaSandbox.Shell
