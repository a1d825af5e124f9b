import Mathlib.Data.List.AList
import AmlaSandbox.Library.Computations
import AmlaSandbox.Pipe.Machine
import AmlaSandbox.Scheduler.Basic
import AmlaSandbox.Shell.Execute
import AmlaSandbox.Shell.Glob
import AmlaSandbox.Shell.Pipeline

/-!
# The shell around its commands

How words are expanded and redirects applied, how the task of a command is spawned and awaited, and
what its effects do to the shell. What the commands, the handles, the job table and the scheduler do
is left open.
-/

namespace AmlaSandbox.Shell

open Text Library Scheduling

/-- The texts of all segments. -/
def Word.text (word : Word) : Text := word.segments.flatMap (·.text)

/-! ### The environment -/

abbrev Environment := AList fun _ : Text => Text

namespace Environment

variable (env : Environment)

def get (name : Text) : Option Text := env.lookup name

def set (name value : Text) : Environment := env.insert name value

def unset (name : Text) : Environment := env.erase name

def isNameChar (c : Char) : Bool := c.isAlphanum || c == '_'

/-- The variables of a text; the loop goes from one `$` to the next. -/
def expand (lastExit : ℤ) : Text → Text
  | [] => []
  | '$' :: '{' :: rest =>
    (env.get (rest.takeWhile (· ≠ '}'))).getD [] ++
      expand lastExit ((rest.dropWhile (· ≠ '}')).drop 1)
  | '$' :: '?' :: rest => (toString lastExit).toList ++ expand lastExit rest
  | '$' :: '$' :: rest => '1' :: expand lastExit rest
  | '$' :: '!' :: rest => (env.get ['!']).getD [] ++ expand lastExit rest
  | '$' :: '0' :: rest => (env.get ['0']).getD ['s', 'h'] ++ expand lastExit rest
  | '$' :: '#' :: rest => (env.get ['#']).getD ['0'] ++ expand lastExit rest
  | '$' :: '@' :: rest | '$' :: '*' :: rest => (env.get ['@']).getD [] ++ expand lastExit rest
  | '$' :: c :: rest =>
    if c.isDigit then (env.get [c]).getD [] ++ expand lastExit rest
    else if c.isAlpha || c == '_' then
      (env.get (c :: rest.takeWhile isNameChar)).getD [] ++
        expand lastExit (rest.dropWhile isNameChar)
    else '$' :: expand lastExit (c :: rest)
  | c :: rest => c :: expand lastExit rest
termination_by text => text.length
decreasing_by
  all_goals simp only [List.length_cons, List.length_drop]
  any_goals omega
  · have := (List.dropWhile_sublist (l := rest) (p := (· ≠ '}'))).length_le
    omega
  · have := (List.dropWhile_sublist (l := rest) (p := isNameChar)).length_le
    omega

/-- `~` at the start of a segment. -/
def expandTilde (text : Text) : Text :=
  match text with
  | ['~'] => (env.get "HOME".toList).getD []
  | '~' :: '/' :: rest =>
    match env.get "HOME".toList with
    | some home => home ++ '/' :: rest
    | none => text
  | '~' :: rest =>
    -- any user has the same home
    if '/' ∈ rest then
      match env.get "HOME".toList with
      | some home => home ++ rest.dropWhile (· ≠ '/')
      | none => text
    else (env.get "HOME".toList).getD []
  | _ => text

end Environment

/-! ### Paths -/

/-- The loop over the parts of a path. -/
def normalizeParts : List Text → List Text → List Text
  | parts, [] => parts
  | parts, part :: rest =>
    if part = [] ∨ part = ['.'] then normalizeParts parts rest
    else if part = ['.', '.'] then normalizeParts parts.dropLast rest
    else normalizeParts (parts ++ [part]) rest

def normalizePath (path : Text) : Text :=
  '/' :: ['/'].intercalate (normalizeParts [] (path.splitOn '/'))

def resolvePath (cwd path : Text) : Text :=
  if path.head? = some '/' then normalizePath path
  else normalizePath (if cwd.getLast? = some '/' then cwd ++ path else cwd ++ '/' :: path)

/-- A part of a resolved path. -/
structure IsPlain (part : Text) : Prop where
  ne_nil : part ≠ []
  ne_dot : part ≠ ['.']
  ne_dots : part ≠ ['.', '.']
  slash : '/' ∉ part

section

variable {parts rest : List Text} {path cwd : Text}

lemma normalizeParts_eq (h : ∀ part ∈ rest, IsPlain part) (parts : List Text) :
    normalizeParts parts rest = parts ++ rest := by
  induction rest generalizing parts with
  | nil => exact (List.append_nil _).symm
  | cons part rest ih =>
    obtain ⟨hpart, hrest⟩ := List.forall_mem_cons.mp h
    have hkept : ¬ (part = [] ∨ part = ['.']) := not_or.mpr ⟨hpart.ne_nil, hpart.ne_dot⟩
    rw [normalizeParts, if_neg hkept, if_neg hpart.ne_dots, ih hrest, List.append_assoc,
      List.singleton_append]

lemma isPlain_of_mem_normalizeParts (hparts : ∀ part ∈ parts, IsPlain part)
    (hrest : ∀ part ∈ rest, '/' ∉ part) : ∀ part ∈ normalizeParts parts rest, IsPlain part := by
  induction rest generalizing parts with
  | nil => exact hparts
  | cons part rest ih =>
    obtain ⟨hpart, hrest⟩ := List.forall_mem_cons.mp hrest
    rw [normalizeParts]
    split_ifs with hskip hdots
    · exact ih hparts hrest
    · exact ih (fun part hmem => hparts part (List.mem_of_mem_dropLast hmem)) hrest
    · refine ih (fun part' hmem => ?_) hrest
      rcases List.mem_append.mp hmem with hmem | hmem
      · exact hparts part' hmem
      · rw [List.mem_singleton.mp hmem]
        exact ⟨fun h => hskip (.inl h), fun h => hskip (.inr h), hdots, hpart⟩

/-- The parts of a resolved path. -/
lemma exists_parts (path : Text) : ∃ parts : List Text, (∀ part ∈ parts, IsPlain part) ∧
    normalizePath path = '/' :: ['/'].intercalate parts :=
  ⟨_, isPlain_of_mem_normalizeParts (fun _ hmem => absurd hmem List.not_mem_nil)
    fun _ => Text.not_mem_of_mem_splitOn, rfl⟩

lemma normalizePath_intercalate (h : ∀ part ∈ parts, IsPlain part) :
    normalizePath ('/' :: ['/'].intercalate parts) = '/' :: ['/'].intercalate parts := by
  have hsplit : ('/' :: ['/'].intercalate parts).splitOn '/' =
      [] :: (['/'].intercalate parts).splitOn '/' :=
    List.splitOn_append_cons_self_of_not_mem List.not_mem_nil _
  rw [normalizePath, hsplit, normalizeParts, if_pos (.inl rfl)]
  cases parts with
  | nil => rfl
  | cons part parts =>
    rw [List.splitOn_intercalate '/' (fun part hmem => (h part hmem).slash) (List.cons_ne_nil _ _),
      normalizeParts_eq h, List.nil_append]

lemma normalizePath_normalizePath (path : Text) :
    normalizePath (normalizePath path) = normalizePath path := by
  obtain ⟨parts, hparts, hpath⟩ := exists_parts path
  rw [hpath, normalizePath_intercalate hparts]

lemma resolvePath_resolvePath (cwd path : Text) :
    resolvePath cwd (resolvePath cwd path) = resolvePath cwd path := by
  have hresolved : ∃ path', resolvePath cwd path = normalizePath path' := by
    rw [resolvePath]
    split_ifs <;> exact ⟨_, rfl⟩
  obtain ⟨path', hpath⟩ := hresolved
  have hhead : (normalizePath path').head? = some '/' := rfl
  rw [hpath, resolvePath, if_pos hhead, normalizePath_normalizePath]

end

/-! ### What the shell works with -/

/-- What a task is given. -/
structure CmdContext (Io Tools : Type) where
  argv : List Text
  stdin : Io
  stdout : Io
  stderr : Io
  cwd : Text
  env : Environment
  toolCatalog : Option Tools

inductive OpenKind
  | write
  | append
  | read
deriving DecidableEq

/-- The builtins that need the job table. -/
inductive JobBuiltin
  | jobs
  | fg
  | wait
  | kill
deriving DecidableEq

def JobBuiltin.ofName (name : Text) : Option JobBuiltin :=
  if name = "jobs".toList then some jobs
  else if name = "fg".toList then some fg
  else if name = "wait".toList then some wait
  else if name = "kill".toList then some kill
  else none

/-- The commands, the handles, the job table, and the world that the shell shares with its tasks:
the files, the scheduler and the host. To await a task is to let the scheduler run until it is
done. -/
structure System where
  (Io Tools Jobs Task World : Type)
  commandExists : Text → Bool
  spawn : CmdContext Io Tools → World → Task × World
  awaitTask : Task → World → TaskResult × World
  newPipe : World → Io × World
  closePipe : Io → World → World
  newBuffer : World → Io × World
  takeBuffer : Io → World → List UInt8 × World
  fromUtf8Lossy : List UInt8 → Text
  openFile : OpenKind → Text → World → Except Text Io × World
  fromString : Text → World → Io × World
  expandGlob : World → Text → Text → List Text
  newJobs : Jobs
  addJob : Text → List Task → Jobs → ℕ × Jobs
  println : Text → World → World
  builtin : JobBuiltin → List Text → Io → Io → Jobs → World → ℤ × Jobs × World

/-- What a run consults and changes in the shell. The code keeps no such record. -/
inductive Consulted (sys : System)
  | expanded (env : Environment) (text : Text)
  | spawned (ctx : CmdContext sys.Io sys.Tools) (world : sys.World)
  | pipelined (exits : List (Option ℤ))
  | usedJobs
  | applied (effects : SideEffects)

/-- The fields of a shell besides its directory, its environment and `$?`; `record` is newest
first. -/
structure Rest (sys : System) where
  pipefail : Bool
  toolCatalog : Option sys.Tools
  jobs : sys.Jobs
  stdin : sys.Io
  stdout : sys.Io
  stderr : sys.Io
  shared : sys.World
  record : List (Consulted sys) := []

abbrev ShellState (sys : System) := Context Environment (Rest sys)

abbrev ShellSession (sys : System) := Session Environment (Rest sys)

abbrev Step (sys : System) (α : Type) := Computation ExecError (ShellState sys) α

namespace Step

variable {sys : System} {α : Type}

/-- A field of the shell. -/
def field (f : ShellState sys → α) : Step sys α := .ofFun fun s => (.ok (f s), s)

/-- What is done to the shared world. -/
def onShared (f : sys.World → Except ExecError α × sys.World) : Step sys α := .ofFun fun s =>
  let (result, shared) := f s.world.shared
  (result, { s with world := { s.world with shared } })

def io (f : sys.World → α × sys.World) : Step sys α := onShared fun w => ((.ok (f w).1), (f w).2)

/-- What is done with the job table. -/
def onJobs (f : sys.Jobs → sys.World → α × sys.Jobs × sys.World) : Step sys α := .ofFun fun s =>
  let (result, jobs, shared) := f s.world.jobs s.world.shared
  (.ok result, { s with world := { s.world with
    jobs
    shared
    record := .usedJobs :: s.world.record } })

end Step

section

open Step

variable {sys : System}

/-! ### Expansion -/

/-- The variables of a segment, and a `~` at its start. -/
def expandText (lastExit : ℤ) (text : Text) : Step sys Text := .ofFun fun s =>
  let text := s.env.expandTilde text
  (.ok (s.env.expand lastExit text),
    { s with world := { s.world with record := .expanded s.env text :: s.world.record } })

/-- The texts of a word. -/
def matchPaths (cwd expanded : Text) (canGlob : Bool) : Step sys (List Text) :=
  if canGlob && isGlobPattern expanded then
    field fun s => sys.expandGlob s.world.shared cwd expanded
  else pure [expanded]

section Expansion

variable (capture : Text → Step sys Text) (lastExit : ℤ)

def expandSegment (segment : WordSegment) : Step sys Text :=
  match segment.commandSubstitution with
  | some cmd => capture cmd
  | none => if segment.expandVars then expandText lastExit segment.text else pure segment.text

def expandSegments : List WordSegment → Step sys (Text × Bool)
  | [] => pure ([], false)
  | segment :: rest => do
    let text ← expandSegment capture lastExit segment
    let (texts, canGlob) ← expandSegments rest
    pure (text ++ texts,
      (segment.expandGlobs && segment.commandSubstitution.isNone) || canGlob)

/-- The text of a word, and whether it may be matched against paths. -/
def expandWord (word : Word) : Step sys (Text × Bool) :=
  expandSegments capture lastExit word.segments

def expandRedirectPath (word : Word) : Step sys Text := do
  let (text, _) ← expandWord capture lastExit word
  pure text

def expandWords (cwd : Text) : List Word → Step sys (List Text)
  | [] => pure []
  | word :: rest => do
    let (expanded, canGlob) ← expandWord capture lastExit word
    let texts ← matchPaths cwd expanded canGlob
    let rest ← expandWords cwd rest
    pure (texts ++ rest)

def expandArgv (argv : List Word) : Step sys (List Text) := do
  let cwd ← field (·.cwd)
  expandWords capture lastExit cwd argv

/-! ### Redirects -/

structure Streams (sys : System) where
  stdin : sys.Io
  stdout : sys.Io
  stderr : sys.Io

/-- A file to redirect to. -/
def openRedirect (kind : OpenKind) (path : Word) : Step sys sys.Io := do
  let path ← expandRedirectPath capture lastExit path
  let cwd ← field (·.cwd)
  onShared fun w =>
    match sys.openFile kind (resolvePath cwd path) w with
    | (.ok io, w) => (.ok io, w)
    | (.error message, w) => (.error (.failed message), w)

def applyRedirect (streams : Streams sys) (redirect : Redirect) : Step sys (Streams sys) :=
  match redirect.kind, redirect.target, redirect.sourceFd with
  | .write, .file path, 1 => do
    let stdout ← openRedirect capture lastExit .write path
    pure { streams with stdout }
  | .append, .file path, 1 => do
    let stdout ← openRedirect capture lastExit .append path
    pure { streams with stdout }
  | .read, .file path, 0 => do
    let stdin ← openRedirect capture lastExit .read path
    pure { streams with stdin }
  | .write, .file path, 2 => do
    let stderr ← openRedirect capture lastExit .write path
    pure { streams with stderr }
  | .append, .file path, 2 => do
    let stderr ← openRedirect capture lastExit .append path
    pure { streams with stderr }
  | _, .fd 1, 2 => pure { streams with stderr := streams.stdout }
  | _, .fd 2, 1 => pure { streams with stdout := streams.stderr }
  | .read, .hereDoc content _, 0 => do
    let content :=
      if content ≠ [] ∧ content.getLast? ≠ some '\n' then content ++ ['\n'] else content
    let stdin ← Step.io (sys.fromString content)
    pure { streams with stdin }
  | _, _, _ => pure streams

def applyRedirects : Streams sys → List Redirect → Step sys (Streams sys)
  | streams, [] => pure streams
  | streams, redirect :: rest => do
    let streams ← applyRedirect capture lastExit streams redirect
    applyRedirects streams rest

end Expansion

/-! ### Tasks -/

/-- A task for a command, with what the shell has at this time. -/
def spawnTask (argv : List Text) (streams : Streams sys) : Step sys sys.Task := .ofFun fun s =>
  let ctx : CmdContext sys.Io sys.Tools :=
    { argv, stdin := streams.stdin, stdout := streams.stdout, stderr := streams.stderr
      cwd := s.cwd, env := s.env, toolCatalog := s.world.toolCatalog }
  let (task, shared) := sys.spawn ctx s.world.shared
  (.ok task, { s with world := { s.world with
    shared
    record := .spawned ctx s.world.shared :: s.world.record } })

/-- `apply_effects` -/
def applyEffects (effects : SideEffects) : Step sys Unit := .ofFun fun s =>
  let env := effects.envSet.foldl (fun env (key, value) => env.set key.toList value.toList) s.env
  let env := effects.envUnset.foldl (fun env key => env.unset key.toList) env
  (.ok (), {
    cwd := (effects.cwd.map String.toList).getD s.cwd
    env
    world := { s.world with
      pipefail := effects.pipefail.getD s.world.pipefail
      record := .applied effects :: s.world.record } })

def shellStreams : Step sys (Streams sys) :=
  field fun s => { stdin := s.world.stdin, stdout := s.world.stdout, stderr := s.world.stderr }

def awaitTask (task : sys.Task) : Step sys TaskResult := Step.io (sys.awaitTask task)

def closePipes : List sys.Io → Step sys Unit
  | [] => pure ()
  | pipe :: rest => do
    Step.io fun w => ((), sys.closePipe pipe w)
    closePipes rest

def newPipes : ℕ → Step sys (List sys.Io)
  | 0 => pure []
  | n + 1 => do
    let pipe ← Step.io sys.newPipe
    let pipes ← newPipes n
    pure (pipe :: pipes)

/-! ### Commands -/

section Commands

variable (capture : Text → Step sys Text) (lastExit : ℤ)

/-- `execute_simple`, for a command with words. There is a first text, since a pattern that matches
nothing stands for itself. -/
def runSimple (argv : List Word) (redirects : List Redirect) : Step sys ℤ := do
  let argv ← expandArgv capture lastExit argv
  let streams ← shellStreams
  let streams ← applyRedirects capture lastExit streams redirects
  match JobBuiltin.ofName (argv.headD []) with
  | some builtin => onJobs (sys.builtin builtin argv streams.stdout streams.stderr)
  | none =>
    if sys.commandExists (argv.headD []) then do
      let task ← spawnTask argv streams
      let result ← awaitTask task
      match result with
      | .ok exit => do
        applyEffects exit.effects
        pure exit.code.toInt
      | .error _ => pure 1
    else throw (.commandNotFound (argv.headD []))

/-- A nested command is an error, or it is left out. -/
def refuse : Option ExecError → Step sys Unit
  | some e => throw e
  | none => pure ()

/-- Spawn the commands of a pipeline, of which the first one reads from `stdin` and writes to the
first pipe. -/
def spawnCommands (onNested : Option ExecError) :
    List Command → sys.Io → List sys.Io → Step sys (List sys.Task)
  | [], _, _ => pure []
  | .simple argv redirects :: rest, stdin, pipes => do
    let streams ← shellStreams
    let argv ← expandArgv capture lastExit argv
    let streams ← applyRedirects capture lastExit
      { streams with stdin, stdout := pipes.headD streams.stdout } redirects
    let task ← spawnTask argv streams
    let tasks ← spawnCommands onNested rest (pipes.headD stdin) pipes.tail
    pure (task :: tasks)
  | _ :: rest, stdin, pipes => do
    refuse onNested
    spawnCommands onNested rest (pipes.headD stdin) pipes.tail

def nestedCommand : ExecError :=
  .parse (.syntaxError "nested commands in pipeline not supported".toList 0)

def exitCode : TaskResult → Option ℤ
  | .ok exit => some exit.code.toInt
  | .error _ => none

/-- Await the handles in order; the pipe behind each is closed. -/
def awaitHandles : List sys.Task → List sys.Io → Step sys (List (Option ℤ))
  | [], _ => pure []
  | task :: rest, pipes => do
    let result ← awaitTask task
    closePipes (pipes.take 1)
    let exits ← awaitHandles rest pipes.tail
    pure (exitCode result :: exits)

def pipelineStatus (pipefail : Bool) (exits : List (Option ℤ)) : ℤ :=
  let (firstFailure, lastCode) := exits.foldl
    (fun (firstFailure, _) exit => Pipelines.noteExit pipefail exit firstFailure) (none, 0)
  firstFailure.getD lastCode

/-- The status of a pipeline. No task changes the option while it is awaited. -/
def concludePipeline (exits : List (Option ℤ)) : Step sys ℤ := .ofFun fun s =>
  (.ok (pipelineStatus s.world.pipefail exits),
    { s with world := { s.world with record := .pipelined exits :: s.world.record } })

/-- `execute_pipeline`, for two commands or more. -/
def runPipeline (commands : List Command) : Step sys ℤ := do
  let pipes ← newPipes (commands.length - 1)
  let stdin ← field (·.world.stdin)
  let tasks ← spawnCommands capture lastExit (some nestedCommand) commands stdin pipes
  let exits ← awaitHandles tasks pipes
  concludePipeline exits

/-- `spawn_background_command` -/
def spawnBackground (command : Command) : Step sys (List sys.Task) :=
  match command with
  | .empty => pure []
  | .simple argv redirects =>
    if argv = [] then pure []
    else do
      let argv ← expandArgv capture lastExit argv
      if sys.commandExists (argv.headD []) then do
        let streams ← shellStreams
        let streams ← applyRedirects capture lastExit streams redirects
        let task ← spawnTask argv streams
        pure [task]
      else throw (.commandNotFound (argv.headD []))
  | .pipeline commands =>
    if commands = [] then pure []
    else do
      let pipes ← newPipes (commands.length - 1)
      let stdin ← field (·.world.stdin)
      let tasks ← spawnCommands capture lastExit none commands stdin pipes
      closePipes pipes
      pure tasks
  | .sequence [] => pure []
  | .sequence (first :: _) => spawnBackground first
  | .and left _ | .or left _ => spawnBackground left
  | .background command | .subshell command => spawnBackground command

mutual

def formatCommand : Command → Text
  | .empty => []
  | .simple argv _ => [' '].intercalate (argv.map Word.text)
  | .pipeline commands => " | ".toList.intercalate (formatCommands commands)
  | .and left right => formatCommand left ++ " && ".toList ++ formatCommand right
  | .or left right => formatCommand left ++ " || ".toList ++ formatCommand right
  | .sequence commands => "; ".toList.intercalate (formatCommands commands)
  | .background command => formatCommand command ++ " &".toList
  | .subshell command => '(' :: formatCommand command ++ [')']

def formatCommands : List Command → List Text
  | [] => []
  | command :: rest => formatCommand command :: formatCommands rest

end

/-- `execute_background` -/
def runBackground (command : Command) : Step sys ℤ := do
  let tasks ← spawnBackground capture lastExit command
  match tasks with
  | [] => pure 0
  | _ => onJobs fun jobs world =>
    let cmdStr := formatCommand command
    let (id, jobs) := sys.addJob cmdStr tasks jobs
    (0, jobs, sys.println ('[' :: (toString id).toList ++ "] ".toList ++ cmdStr ++ " &".toList)
      world)

def interpreterWith : Interpreter Environment (Rest sys) where
  simple argv redirects lastExit := (runSimple capture lastExit argv redirects).exec
  pipeline commands lastExit := (runPipeline capture lastExit commands).exec
  background command lastExit := (runBackground capture lastExit command).exec

end Commands

/-! ### Command substitution -/

/-- `with_full_context`, with what a shell hands over. -/
def captureShell (s : ShellState sys) (stdout : sys.Io) (shared : sys.World) :
    ShellSession sys where
  cwd := s.cwd
  env := s.env
  world :=
    { pipefail := false, toolCatalog := none, jobs := sys.newJobs, stdin := s.world.stdin, stdout
      stderr := s.world.stderr, shared }
  lastExit := 0

/-- What a buffer holds, without the newlines at its end. -/
def takeOutput (buffer : sys.Io) (shared : sys.World) : Text × sys.World :=
  let (output, shared) := sys.takeBuffer buffer shared
  ((sys.fromUtf8Lossy output).rdropWhile (· = '\n'), shared)

/-- What a command that was run with a buffer for its output comes to. -/
def outputOf (buffer : sys.Io) (run : Run Environment (Rest sys)) :
    Except ExecError Text × sys.World :=
  match run.outcome with
  | .error e => (.error e, run.session.world.shared)
  | .ok _ =>
    let (output, shared) := takeOutput buffer run.session.world.shared
    (.ok output, shared)

/-- What a command substitution does; a parser that panics fails like any error here. -/
def captureWith (interpreter : Interpreter Environment (Rest sys)) (command : Text)
    (s : ShellState sys) : Except ExecError Text × sys.World :=
  let (buffer, shared) := sys.newBuffer s.world.shared
  match parse command with
  | none => (.error (.failed "panic".toList), shared)
  | some (.error e) => (.error (.parse e), shared)
  | some (.ok (cmd, _)) =>
    outputOf buffer (executeCommand interpreter cmd (captureShell s buffer shared))

/-- `capture_output`, where substitutions are nested up to a depth. -/
def captureToDepth : ℕ → Text → Step sys Text
  | 0, _ => throw (.failed "nested too deeply".toList)
  | depth + 1, command => .ofFun fun s =>
    let (result, shared) := captureWith (interpreterWith (captureToDepth depth)) command s
    (result, { s with world := { s.world with shared } })

/-- A substitution inside another one is a part of it, so this depth is never reached. -/
def captureOutput (command : Text) : Step sys Text :=
  captureToDepth (byteLen command + 1) command

def interpreter (sys : System) : Interpreter Environment (Rest sys) := interpreterWith captureOutput

end

end AmlaSandbox.Shell
