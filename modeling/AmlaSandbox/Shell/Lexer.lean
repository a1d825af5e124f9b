import AmlaSandbox.Text.Numbers

/-!
# The shell lexer

The lexer keeps a byte offset into its input. Every look at the input is a slice from there, which
panics off a character boundary; `none` stands for a panic, and for a loop that stands still.
-/

namespace AmlaSandbox.Shell

open Text

/-! ### Tokens -/

structure WordSegment where
  text : Text
  expandVars : Bool
  expandGlobs : Bool
  commandSubstitution : Option Text
deriving DecidableEq, Repr

namespace WordSegment

def unquoted (text : Text) : WordSegment :=
  { text, expandVars := true, expandGlobs := true, commandSubstitution := none }

def singleQuoted (text : Text) : WordSegment :=
  { text, expandVars := false, expandGlobs := false, commandSubstitution := none }

def doubleQuoted (text : Text) : WordSegment :=
  { text, expandVars := true, expandGlobs := false, commandSubstitution := none }

/-- `command_substitution` -/
def ofCommand (command : Text) : WordSegment :=
  { text := [], expandVars := false, expandGlobs := false, commandSubstitution := some command }

end WordSegment

structure Word where
  segments : List WordSegment
deriving DecidableEq, Repr

def Word.unquoted (text : Text) : Word := { segments := [.unquoted text] }

inductive Token
  | word (w : Word)
  | pipe
  | and
  | or
  | semi
  | amp
  | redirectOut
  | redirectAppend
  | redirectIn
  | hereDoc (content : Text) (stripTabs : Bool)
  | redirectErr
  | redirectErrAppend
  | redirectBoth
  | dupFd (source target : ℕ)
  | lParen
  | rParen
  | newline
  | eof
deriving DecidableEq, Repr

/-- `Syntax`, by its message; one that prints a token keeps the token. -/
inductive ShellError
  | syntaxError (message : Text) (position : ℕ)
  | expected (expected got : Token) (position : ℕ)
  | expectedWord (got : Token) (position : ℕ)
deriving DecidableEq, Repr

/-! ### Loops over the input -/

/-- How one round of a loop ends, with the position and the values after it. -/
inductive Flow (α : Type)
  | next (pos : ℕ) (a : α)
  | stop (pos : ℕ) (a : α)

section

variable (input : Text)

/-- `while pos < input.len() && cond`, where a round begins with a look at the next character and
at what follows it. -/
def whileChars {α : Type} (cond : α → Bool) (body : ℕ → Char → Text → α → Option (Flow α))
    (pos : ℕ) (a : α) : Option (ℕ × α) :=
  if pos < byteLen input ∧ cond a then
    match sliceFrom input pos with
    | some (c :: rest) =>
      match body pos c rest a with
      | some (.next pos' a') => if pos < pos' then whileChars cond body pos' a' else none
      | some (.stop pos' a') => some (pos', a')
      | none => none
    | _ => none
  else some (pos, a)
termination_by byteLen input - pos

/-- The loops that only their body ends. -/
def always {α : Type} : α → Bool := fun _ => true

def skipWhitespace (pos : ℕ) : Option ℕ :=
  (whileChars input always (fun pos c _ _ =>
    if c = ' ' ∨ c = '\t' ∨ c = '\r' then some (.next (pos + 1) ())
    else some (.stop pos ())) pos ()).map Prod.fst

/-- The loop over a comment, up to the end of the line. -/
def skipComment (pos : ℕ) : Option ℕ :=
  (whileChars input always (fun pos c _ _ =>
    if c = '\n' then some (.stop pos ()) else some (.next (pos + 1) ())) pos ()).map Prod.fst

/-! ### Duplicated descriptors -/

/-- `N>&M` at the front of the text, with the number of bytes that it takes. -/
def tryLexFdDup (remaining : Text) : Option (Token × ℕ) :=
  let sourceStr := remaining.takeWhile Char.isDigit
  if sourceStr = [] then none
  else
    match remaining.dropWhile Char.isDigit with
    | '>' :: '&' :: rest =>
      let targetStr := rest.takeWhile Char.isDigit
      if targetStr = [] then none
      else
        match parseI32 sourceStr, parseI32 targetStr with
        | some source, some target =>
          some (.dupFd source target, byteLen sourceStr + 2 + byteLen targetStr)
        | _, _ => none
    | _ => none

/-! ### Here documents -/

/-- The loop over a quoted delimiter, with whether the closing quote was found. -/
def readQuotedDelimiter (quote : Char) (pos : ℕ) : Option (ℕ × Text × Bool) :=
  whileChars input always (fun pos c _ (delimiter, _) =>
    if c = quote then some (.stop (pos + 1) (delimiter, true))
    else some (.next (pos + c.utf8Size) (delimiter ++ [c], false))) pos ([], false)

def readPlainDelimiter (pos : ℕ) : Option (ℕ × Text) :=
  whileChars input always (fun pos c _ delimiter =>
    if isWhitespace c ∨ c = '\n' then some (.stop pos delimiter)
    else some (.next (pos + c.utf8Size) (delimiter ++ [c]))) pos []

/-- The delimiter, and whether it is quoted. -/
def readHeredocDelimiter (pos : ℕ) : Option (Except ShellError (Text × Bool) × ℕ) :=
  if byteLen input ≤ pos then some (.ok ([], false), pos)
  else
    match sliceFrom input pos with
    | some (c :: _) =>
      if c = '\'' ∨ c = '"' then
        (readQuotedDelimiter input c (pos + 1)).map fun (pos, (delimiter, closed)) =>
          if closed then (.ok (delimiter, true), pos)
          else (.error (.syntaxError "unclosed quote in heredoc delimiter".toList pos), pos)
      else
        (readPlainDelimiter input pos).map fun (pos, delimiter) => (.ok (delimiter, false), pos)
    | _ => none

/-- The loop over the lines: where the delimiter line starts, and its length in bytes. -/
def findDelimiter (delimiter : Text) (stripTabs : Bool) : ℕ → List Text → Option (ℕ × ℕ)
  | _, [] => none
  | offset, line :: lines =>
    let trimmed := if stripTabs then line.dropWhile (· = '\t') else line
    if trimmed = delimiter ∨ trimmed.rdropWhile isWhitespace = delimiter then
      some (offset, byteLen line)
    else findDelimiter delimiter stripTabs (offset + (byteLen line + 1)) lines

/-- `str::lines`: a line break is `\n` or `\r\n`, and one at the end starts no line. -/
def lines (content : Text) : List Text :=
  let parts := content.splitOn '\n'
  let last := parts.getLastD []
  parts.dropLast.map (fun line => if line.getLast? = some '\r' then line.dropLast else line) ++
    if last = [] then [] else [last]

/-- The content without leading tabs, if so asked, and without the last line break. -/
def heredocContent (stripTabs : Bool) (content : Text) : Text :=
  let content :=
    if stripTabs then ['\n'].intercalate ((lines content).map (·.dropWhile (· = '\t')))
    else content
  if content.getLast? = some '\n' then content.dropLast else content

/-- The line break behind the closing delimiter. -/
def skipLineBreak (endPos : ℕ) : Option ℕ :=
  if endPos < byteLen input then
    (sliceFrom input endPos).map fun rest =>
      if rest.head? = some '\n' then endPos + 1 else endPos
  else some endPos

/-- What follows the delimiter: the lines up to the closing delimiter. -/
def lexHeredocBody (delimiter : Text) (stripTabs : Bool) (pos : ℕ) :
    Option (Except ShellError Token × ℕ) := do
  let remaining ← sliceFrom input pos
  match find '\n' remaining with
  | none => some (.ok (.hereDoc [] stripTabs), pos)
  | some n =>
    let contentStart := pos + n + 1
    let remaining ← sliceFrom input contentStart
    match findDelimiter delimiter stripTabs 0 (remaining.splitOn '\n') with
    | none =>
      some (.error (.syntaxError
        ("heredoc delimiter '".toList ++ delimiter ++ "' not found".toList) pos), pos)
    | some (lineStart, lineLen) =>
      let endPos ← skipLineBreak input (contentStart + lineStart + lineLen)
      let content ← slice input contentStart (contentStart + lineStart)
      some (.ok (.hereDoc (heredocContent stripTabs content) stripTabs), endPos)

/-- The white space before the delimiter. -/
def skipBlanks (pos : ℕ) : Option ℕ :=
  (whileChars input always (fun pos c _ _ =>
    if c = ' ' ∨ c = '\t' then some (.next (pos + 1) ()) else some (.stop pos ())) pos ()).map
      Prod.fst

def lexHeredoc (pos : ℕ) : Option (Except ShellError Token × ℕ) := do
  let pos := pos + 2
  let remaining ← sliceFrom input pos
  let stripTabs := remaining.head? = some '-'
  let pos := if stripTabs then pos + 1 else pos
  let pos ← skipBlanks input pos
  match ← readHeredocDelimiter input pos with
  | (.error e, pos) => some (.error e, pos)
  | (.ok (delimiter, _), pos) =>
    if delimiter = [] then
      some (.error (.syntaxError "heredoc requires a delimiter".toList pos), pos)
    else lexHeredocBody input delimiter stripTabs pos

/-! ### Command substitutions -/

/-- The quoted text behind a single quote, pushed to the content with its closing quote. -/
def copySingleQuoted (pos : ℕ) (content : Text) : Option (ℕ × Text) :=
  whileChars input always (fun pos c _ content =>
    if c = '\'' then some (.stop (pos + c.utf8Size) (content ++ [c]))
    else some (.next (pos + c.utf8Size) (content ++ [c]))) pos content

/-- The same for double quotes, with escaped characters. -/
def copyDoubleQuoted (pos : ℕ) (content : Text) : Option (ℕ × Text) :=
  whileChars input always (fun pos c _ content =>
    let content := content ++ [c]
    let pos := pos + c.utf8Size
    if c = '"' then some (.stop pos content)
    else if c = '\\' ∧ pos < byteLen input then
      match sliceFrom input pos with
      | some (esc :: _) => some (.next (pos + esc.utf8Size) (content ++ [esc]))
      | _ => none
    else some (.next pos content)) pos content

/-- The command behind `$(`, up to the parenthesis that closes it; the depth wraps as in a build
without overflow checks. -/
def lexCommandSubstitution (pos : ℕ) : Option (ℕ × Text) :=
  (whileChars input (fun (_, depth) => decide (0 < depth)) (fun pos c rest (content, depth) =>
    if c = '(' then some (.next (pos + 1) (content ++ [c], depth + 1))
    else if c = ')' then
      let depth := depth - 1
      some (.next (pos + 1) (if 0 < depth then content ++ [c] else content, depth))
    else if c = '$' ∧ rest.head? = some '(' then
      some (.next (pos + 2) (content ++ ['$', '('], depth + 1))
    else if c = '\'' then
      (copySingleQuoted input (pos + 1) (content ++ [c])).map
        fun (pos, content) => .next pos (content, depth)
    else if c = '"' then
      (copyDoubleQuoted input (pos + 1) (content ++ [c])).map
        fun (pos, content) => .next pos (content, depth)
    else if c = '\\' then
      let content := content ++ [c]
      let pos := pos + 1
      if pos < byteLen input then
        match sliceFrom input pos with
        | some (esc :: _) => some (.next (pos + esc.utf8Size) (content ++ [esc], depth))
        | _ => none
      else some (.next pos (content, depth))
    else some (.next (pos + c.utf8Size) (content ++ [c], depth))) pos
      (([], 1) : Text × Int32)).map
      fun (pos, (content, _)) => (pos, content)

/-! ### Words -/

/-- A segment is pushed unless it is empty. The flags of the current segment are never changed from
those of unquoted text. -/
def flushSegment (segments : List WordSegment) (text : Text) : List WordSegment :=
  if text = [] then segments else segments ++ [.unquoted text]

/-- The text behind a single quote; the closing quote is skipped. -/
def lexSingleQuoted (pos : ℕ) : Option (ℕ × Text) :=
  whileChars input always (fun pos c _ quotedText =>
    if c = '\'' then some (.stop (pos + 1) quotedText)
    else some (.next (pos + c.utf8Size) (quotedText ++ [c]))) pos []

/-- In double quotes a backslash is dropped only before these characters. -/
def isEscapable (c : Char) : Bool := c = '$' || c = '`' || c = '"' || c = '\\' || c = '\n'

/-- The text behind a double quote: the segments before the last one, and the text of that. -/
def lexDoubleQuoted (pos : ℕ) (segments : List WordSegment) :
    Option (ℕ × List WordSegment × Text) :=
  whileChars input always (fun pos c rest (segments, quotedText) =>
    if c = '"' then some (.stop (pos + 1) (segments, quotedText))
    else if c = '$' ∧ rest.head? = some '(' then
      let segments := if quotedText = [] then segments else segments ++ [.doubleQuoted quotedText]
      (lexCommandSubstitution input (pos + 2)).map
        fun (pos, cmd) => .next pos (segments ++ [.ofCommand cmd], [])
    else if c = '\\' then
      let pos := pos + 1
      if pos < byteLen input then
        match sliceFrom input pos with
        | some (esc :: _) =>
          let quotedText :=
            if isEscapable esc then quotedText ++ [esc] else quotedText ++ ['\\', esc]
          some (.next (pos + esc.utf8Size) (segments, quotedText))
        | _ => none
      else some (.next pos (segments, quotedText))
    else some (.next (pos + c.utf8Size) (segments, quotedText ++ [c]))) pos (segments, [])

def isTerminator (c : Char) : Bool :=
  c = ' ' || c = '\t' || c = '\n' || c = '\r' || c = '|' || c = '&' || c = ';' || c = '>' ||
    c = '<' || c = '(' || c = ')'

/-- One round of the loop over a word. -/
def lexWordRound (pos : ℕ) (c : Char) (rest : Text) (segments : List WordSegment) (text : Text) :
    Option (Flow (List WordSegment × Text)) :=
  if isTerminator c then some (.stop pos (segments, text))
  else if c = '\\' then
    let pos := pos + 1
    if pos < byteLen input then
      match sliceFrom input pos with
      | some (escaped :: _) => some (.next (pos + escaped.utf8Size) (segments, text ++ [escaped]))
      | _ => none
    else some (.next pos (segments, text))
  else if c = '\'' then
    (lexSingleQuoted input (pos + 1)).map fun (pos, quotedText) =>
      .next pos (flushSegment segments text ++ [.singleQuoted quotedText], [])
  else if c = '"' then
    (lexDoubleQuoted input (pos + 1) (flushSegment segments text)).map
      fun (pos, (segments, quotedText)) => .next pos (segments ++ [.doubleQuoted quotedText], [])
  else if c = '$' ∧ rest.head? = some '(' then
    (lexCommandSubstitution input (pos + 2)).map fun (pos, cmd) =>
      .next pos (flushSegment segments text ++ [.ofCommand cmd], [])
  else some (.next (pos + c.utf8Size) (segments, text ++ [c]))

def lexWord (pos : ℕ) : Option (Except ShellError Token × ℕ) :=
  (whileChars input always (fun pos c rest (segments, text) =>
    lexWordRound input pos c rest segments text) pos ([], [])).map
      fun (pos, (segments, text)) => (.ok (.word { segments := flushSegment segments text }), pos)

/-! ### Tokens at a position -/

/-- The operators of one token, in the order in which they are tried, with their lengths. -/
def lexOperator (remaining : Text) : Option (Token × ℕ) :=
  match remaining with
  | '&' :: '&' :: _ => some (.and, 2)
  | '|' :: '|' :: _ => some (.or, 2)
  | '>' :: '>' :: _ => some (.redirectAppend, 2)
  | '&' :: '>' :: _ => some (.redirectBoth, 2)
  | _ =>
    match tryLexFdDup remaining with
    | some dup => some dup
    | none =>
      match remaining with
      | '2' :: '>' :: '>' :: _ => some (.redirectErrAppend, 3)
      | '2' :: '>' :: _ => some (.redirectErr, 2)
      | _ => none

/-- The operators of one character. -/
def lexSingle (c : Char) : Option Token :=
  if c = '|' then some .pipe
  else if c = ';' then some .semi
  else if c = '&' then some .amp
  else if c = '>' then some .redirectOut
  else if c = '<' then some .redirectIn
  else if c = '(' then some .lParen
  else if c = ')' then some .rParen
  else if c = '\n' then some .newline
  else none

def nextToken (start : ℕ) : Option (Except ShellError Token × ℕ) :=
  match skipWhitespace input start with
  | none => none
  | some pos =>
    if byteLen input ≤ pos then some (.ok .eof, pos)
    else
      match sliceFrom input pos with
      | some (c :: rest) =>
        match lexOperator (c :: rest) with
        | some (token, len) => some (.ok token, pos + len)
        | none =>
          if c = '<' ∧ rest.head? = some '<' then lexHeredoc input pos
          else
            match lexSingle c with
            | some token => some (.ok token, pos + 1)
            | none =>
              if c = '#' then
                match skipComment input pos with
                | some pos' =>
                  if start < byteLen input ∧ start < pos' then nextToken pos' else none
                | none => none
              else lexWord input pos
      | _ => none
termination_by byteLen input - start

end

/-! ### What is found -/

/-- No word or here document, and no end of a line or of the input. -/
def Token.isOperator : Token → Bool
  | .word _ | .hereDoc _ _ | .newline | .eof => false
  | _ => true

section

variable {input delimiter remaining : Text} {stripTabs : Bool} {pos len : ℕ} {c : Char}
  {token : Token} {r : Except ShellError Token × ℕ}

lemma exists_of_tryLexFdDup (h : tryLexFdDup remaining = some (token, len)) :
    ∃ source target, token = .dupFd source target := by
  simp only [tryLexFdDup] at h
  repeat' split at h
  all_goals simp only [reduceCtorEq, Option.some.injEq, Prod.mk.injEq] at h
  exact ⟨_, _, h.1.symm⟩

lemma isOperator_of_lexOperator (h : lexOperator remaining = some (token, len)) :
    token.isOperator = true := by
  unfold lexOperator at h
  split at h
  · cases h; rfl
  · cases h; rfl
  · cases h; rfl
  · cases h; rfl
  · split at h
    · rename_i dup hdup
      rw [h] at hdup
      obtain ⟨source, target, rfl⟩ := exists_of_tryLexFdDup hdup
      rfl
    · split at h <;> cases h <;> rfl

lemma isOperator_of_lexSingle (h : lexSingle c = some token) :
    token.isOperator = true ∨ c = '\n' ∧ token = .newline := by
  by_cases hbreak : c = '\n'
  · subst hbreak
    cases h
    exact .inr ⟨rfl, rfl⟩
  · unfold lexSingle at h
    split_ifs at h <;> cases h <;> exact .inl rfl

lemma lexHeredocBody_eq_some (h : lexHeredocBody input delimiter stripTabs pos = some r) :
    (∃ e, r.1 = .error e) ∨ ∃ content, r.1 = .ok (.hereDoc content stripTabs) := by
  rw [lexHeredocBody] at h
  obtain ⟨remaining, -, h⟩ := Option.bind_eq_some_iff.mp h
  split at h
  · cases h
    exact .inr ⟨_, rfl⟩
  · obtain ⟨remaining, -, h⟩ := Option.bind_eq_some_iff.mp h
    split at h
    · cases h
      exact .inl ⟨_, rfl⟩
    · obtain ⟨endPos, -, h⟩ := Option.bind_eq_some_iff.mp h
      obtain ⟨content, -, h⟩ := Option.bind_eq_some_iff.mp h
      cases h
      exact .inr ⟨_, rfl⟩

/-- A here document is an error, or the document that is read at its delimiter. -/
lemma lexHeredoc_eq_some (h : lexHeredoc input pos = some r) : (∃ e, r.1 = .error e) ∨
    ∃ delimiter stripTabs pos, lexHeredocBody input delimiter stripTabs pos = some r := by
  rw [lexHeredoc] at h
  obtain ⟨remaining, -, h⟩ := Option.bind_eq_some_iff.mp h
  obtain ⟨pos, -, h⟩ := Option.bind_eq_some_iff.mp h
  obtain ⟨⟨result, pos⟩, -, h⟩ := Option.bind_eq_some_iff.mp h
  cases result with
  | error e =>
    cases h
    exact .inl ⟨e, rfl⟩
  | ok delimiter =>
    dsimp only at h
    split_ifs at h
    · cases h
      exact .inl ⟨_, rfl⟩
    · exact .inr ⟨_, _, _, h⟩

lemma exists_of_lexHeredoc (h : lexHeredoc input pos = some r) : (∃ e, r.1 = .error e) ∨
    ∃ content stripTabs, r.1 = .ok (.hereDoc content stripTabs) := by
  obtain herror | ⟨_, _, _, hbody⟩ := lexHeredoc_eq_some h
  · exact .inl herror
  · obtain herror | ⟨content, hdoc⟩ := lexHeredocBody_eq_some hbody
    · exact .inl herror
    · exact .inr ⟨content, _, hdoc⟩

end

/-! ### The lexer -/

structure Lexer where
  input : Text
  pos : ℕ
  peeked : Option Token
deriving DecidableEq

namespace Lexer

def new (input : Text) : Lexer := { input, pos := 0, peeked := none }

variable (lexer : Lexer)

/-- The next token, which stays to be taken. -/
def peek : Option (Except ShellError Token × Lexer) :=
  match lexer.peeked with
  | some token => some (.ok token, lexer)
  | none =>
    (nextToken lexer.input lexer.pos).map fun (result, pos) =>
      match result with
      | .ok token => (.ok token, { lexer with pos, peeked := some token })
      | .error e => (.error e, { lexer with pos })

def next : Option (Except ShellError Token × Lexer) :=
  match lexer.peeked with
  | some token => some (.ok token, { lexer with peeked := none })
  | none => (nextToken lexer.input lexer.pos).map fun (result, pos) => (result, { lexer with pos })

end Lexer

end AmlaSandbox.Shell
