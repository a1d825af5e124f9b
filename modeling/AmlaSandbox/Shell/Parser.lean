import AmlaSandbox.Shell.Lexer

/-!
# The shell parser

A recursive descent over the tokens of a lexer, of which it looks at one at a time.
-/

namespace AmlaSandbox.Shell

open Text

/-! ### Commands -/

inductive RedirectKind
  | write
  | append
  | read
deriving DecidableEq, Repr

inductive RedirectTarget
  | file (path : Word)
  | fd (fd : ℕ)
  | hereDoc (content : Text) (stripTabs : Bool)
deriving DecidableEq, Repr

structure Redirect where
  sourceFd : ℕ
  kind : RedirectKind
  target : RedirectTarget
deriving DecidableEq, Repr

namespace Redirect

def stdoutWrite (path : Word) : Redirect :=
  { sourceFd := 1, kind := .write, target := .file path }

def stdoutAppend (path : Word) : Redirect :=
  { sourceFd := 1, kind := .append, target := .file path }

def stdinRead (path : Word) : Redirect :=
  { sourceFd := 0, kind := .read, target := .file path }

def stderrWrite (path : Word) : Redirect :=
  { sourceFd := 2, kind := .write, target := .file path }

def stderrAppend (path : Word) : Redirect :=
  { sourceFd := 2, kind := .append, target := .file path }

def dupFd (source target : ℕ) : Redirect :=
  { sourceFd := source, kind := .write, target := .fd target }

def stdinHeredoc (content : Text) (stripTabs : Bool) : Redirect :=
  { sourceFd := 0, kind := .read, target := .hereDoc content stripTabs }

end Redirect

inductive Command
  | simple (argv : List Word) (redirects : List Redirect)
  | pipeline (commands : List Command)
  | and (left right : Command)
  | or (left right : Command)
  | sequence (commands : List Command)
  | background (command : Command)
  | subshell (command : Command)
  | empty

namespace Command

/-- `pipeline`; a single command is no pipeline. -/
def ofPipeline : List Command → Command
  | [command] => command
  | commands => .pipeline commands

/-- The commands of a command line. -/
def ofSequence : List Command → Command
  | [] => .empty
  | [command] => command
  | commands => .sequence commands

end Command

/-! ### Tokens of the lexer -/

/-- A parse ends with a value, with an error or, where the lexer panics or the fuel is used up, with
`none`. -/
abbrev Parser (α : Type) := StateT Lexer (ExceptT ShellError Option) α

namespace Parser

variable {α : Type}

def outOfFuel : Parser α := fun _ => .mk none

def fail (e : ShellError) : Parser α := fun _ => .mk (some (.error e))

def peek : Parser Token := fun lexer =>
  .mk (lexer.peek.map fun (result, lexer) => result.map fun token => (token, lexer))

def next : Parser Token := fun lexer =>
  .mk (lexer.next.map fun (result, lexer) => result.map fun token => (token, lexer))

/-- `lexer.position()` -/
def position : Parser ℕ := fun lexer => .mk (some (.ok (lexer.pos, lexer)))

def skipNewlines : ℕ → Parser Unit
  | 0 => outOfFuel
  | fuel + 1 => do
    let token ← peek
    if token = .newline then
      let _ ← next
      skipNewlines fuel

def expect (expected : Token) : Parser Unit := do
  let token ← next
  unless token = expected do
    let pos ← position
    fail (.expected expected token pos)

def expectWord : Parser Word := do
  let token ← next
  match token with
  | .word w => pure w
  | token => do
    let pos ← position
    fail (.expectedWord token pos)

/-! ### Simple commands -/

/-- What a token is in a simple command. -/
inductive Part
  | word (w : Word)
  -- redirects to the word that follows
  | file (redirects : Word → List Redirect)
  | redirect (redirect : Redirect)

def part : Token → Option Part
  | .word w => some (.word w)
  | .redirectOut => some (.file fun target => [.stdoutWrite target])
  | .redirectAppend => some (.file fun target => [.stdoutAppend target])
  | .redirectIn => some (.file fun target => [.stdinRead target])
  | .redirectErr => some (.file fun target => [.stderrWrite target])
  | .redirectErrAppend => some (.file fun target => [.stderrAppend target])
  -- `&>` is `> file 2>&1`
  | .redirectBoth => some (.file fun target => [.stdoutWrite target, .dupFd 2 1])
  | .dupFd source target => some (.redirect (.dupFd source target))
  | .hereDoc content stripTabs => some (.redirect (.stdinHeredoc content stripTabs))
  | _ => none

/-- The loop over the words and redirects of a simple command. -/
def simpleLoop : ℕ → List Word → List Redirect → Parser (List Word × List Redirect)
  | 0, _, _ => outOfFuel
  | fuel + 1, argv, redirects => do
    let token ← peek
    match part token with
    | some (.word w) =>
      let _ ← next
      simpleLoop fuel (argv ++ [w]) redirects
    | some (.file f) =>
      let _ ← next
      let target ← expectWord
      simpleLoop fuel argv (redirects ++ f target)
    | some (.redirect redirect) =>
      let _ ← next
      simpleLoop fuel argv (redirects ++ [redirect])
    | none => pure (argv, redirects)

def parseSimpleCommand (fuel : ℕ) : Parser Command := do
  let (argv, redirects) ← simpleLoop fuel [] []
  if argv = [] ∧ redirects = [] then
    let pos ← position
    fail (.syntaxError "expected command".toList pos)
  else pure (.simple (if argv = [] then [.unquoted ":".toList] else argv) redirects)

/-! ### Command lines -/

/-- No command of the line follows. -/
def endsLine (token : Token) : Bool := token = .eof || token = .rParen || token = .newline

mutual

/-- The loop over the lists of a command line, separated by `;` or `&`. -/
def commandLineLoop : ℕ → List Command → Parser (List Command)
  | 0, _ => outOfFuel
  | fuel + 1, commands => do
    let list ← parseList fuel
    let token ← peek
    if token = .semi then
      let commands := commands ++ [list]
      let _ ← next
      skipNewlines fuel
      let token ← peek
      if endsLine token then pure commands
      else if token = .amp then
        let _ ← next
        skipNewlines fuel
        let token ← peek
        if endsLine token then pure commands else commandLineLoop fuel commands
      else commandLineLoop fuel commands
    else if token = .amp then
      let commands := commands ++ [.background list]
      let _ ← next
      skipNewlines fuel
      let token ← peek
      if endsLine token then pure commands else commandLineLoop fuel commands
    else pure (commands ++ [list])

def parseCommandLine : ℕ → Parser Command
  | 0 => outOfFuel
  | fuel + 1 => do
    let commands ← commandLineLoop fuel []
    pure (.ofSequence commands)

def listLoop : ℕ → Command → Parser Command
  | 0, _ => outOfFuel
  | fuel + 1, left => do
    let token ← peek
    if token = .and then
      let _ ← next
      skipNewlines fuel
      let right ← parsePipeline fuel
      listLoop fuel (.and left right)
    else if token = .or then
      let _ ← next
      skipNewlines fuel
      let right ← parsePipeline fuel
      listLoop fuel (.or left right)
    else pure left

def parseList : ℕ → Parser Command
  | 0 => outOfFuel
  | fuel + 1 => do
    let left ← parsePipeline fuel
    listLoop fuel left

def pipelineLoop : ℕ → List Command → Parser (List Command)
  | 0, _ => outOfFuel
  | fuel + 1, commands => do
    let token ← peek
    if token = .pipe then
      let _ ← next
      skipNewlines fuel
      let command ← parseCommand fuel
      pipelineLoop fuel (commands ++ [command])
    else pure commands

def parsePipeline : ℕ → Parser Command
  | 0 => outOfFuel
  | fuel + 1 => do
    let command ← parseCommand fuel
    let commands ← pipelineLoop fuel [command]
    pure (.ofPipeline commands)

def parseCommand : ℕ → Parser Command
  | 0 => outOfFuel
  | fuel + 1 => do
    let token ← peek
    if token = .lParen then
      let _ ← next
      skipNewlines fuel
      let command ← parseCommandLine fuel
      expect .rParen
      pure (.subshell command)
    else parseSimpleCommand fuel

end

def parse (fuel : ℕ) : Parser Command := do
  skipNewlines fuel
  let token ← peek
  if token = .eof then pure .empty
  else
    let command ← parseCommandLine fuel
    skipNewlines fuel
    pure command

end Parser

/-- `Parser::new(input).parse()`, with the lexer that it leaves. -/
def parse (input : Text) : Option (Except ShellError (Command × Lexer)) :=
  Parser.parse (6 * byteLen input + 6) (.new input)

end AmlaSandbox.Shell
