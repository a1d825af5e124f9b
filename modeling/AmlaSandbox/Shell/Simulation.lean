import AmlaSandbox.Shell.Interpret
import AmlaSandbox.Shell.ListSemantics

/-!
# Simulations between shells

Two shells go in step through every command when they do so at each thing that a command can do to
a shell: the primitive steps, and the substitutions that occur in the command.
-/

namespace AmlaSandbox.Shell

open Text Library Computation Scheduling

/-! ### The words of a command -/

def Redirect.words (redirect : Redirect) : List Word :=
  match redirect.target with
  | .file path => [path]
  | _ => []

mutual

def Command.words : Command → List Word
  | .empty => []
  | .simple argv redirects => argv ++ redirects.flatMap Redirect.words
  | .pipeline commands | .sequence commands => Command.wordsOf commands
  | .and left right | .or left right => left.words ++ right.words
  | .background command | .subshell command => command.words

def Command.wordsOf : List Command → List Word
  | [] => []
  | command :: rest => command.words ++ Command.wordsOf rest

end

/-- The substitutions of a word. -/
def Word.Nests (nested : Text → Prop) (word : Word) : Prop :=
  ∀ segment ∈ word.segments, ∀ cmd, segment.commandSubstitution = some cmd → nested cmd

def Command.Nests (nested : Text → Prop) (command : Command) : Prop :=
  ∀ word ∈ command.words, word.Nests nested

namespace Command

variable {nested : Text → Prop} {command left right : Command} {commands : List Command}
variable {argv : List Word} {redirects : List Redirect}

lemma mem_wordsOf {word : Word} :
    word ∈ wordsOf commands ↔ ∃ command ∈ commands, word ∈ command.words := by
  induction commands with
  | nil => simp [wordsOf]
  | cons command rest ih => simp [wordsOf, ih]

lemma nests_simple : (simple argv redirects).Nests nested ↔
    (∀ word ∈ argv, word.Nests nested) ∧
      ∀ redirect ∈ redirects, ∀ word ∈ redirect.words, word.Nests nested := by
  simp only [Nests, words, List.mem_append, List.mem_flatMap, or_imp, forall_and,
    forall_exists_index, and_imp]
  constructor
  · rintro ⟨hargv, hredirects⟩
    exact ⟨hargv, fun redirect hmem word hword => hredirects word redirect hmem hword⟩
  · rintro ⟨hargv, hredirects⟩
    exact ⟨hargv, fun word redirect hmem hword => hredirects redirect hmem word hword⟩

lemma nests_pipeline :
    (pipeline commands).Nests nested ↔ ∀ command ∈ commands, command.Nests nested := by
  simp only [Nests, words, mem_wordsOf]
  constructor
  · intro h command hmem word hword
    exact h word ⟨command, hmem, hword⟩
  · rintro h word ⟨command, hmem, hword⟩
    exact h command hmem word hword

lemma nests_sequence :
    (sequence commands).Nests nested ↔ ∀ command ∈ commands, command.Nests nested := nests_pipeline

lemma nests_and : (and left right).Nests nested ↔ left.Nests nested ∧ right.Nests nested := by
  simp only [Nests, words, List.mem_append, or_imp, forall_and]

lemma nests_or : (or left right).Nests nested ↔ left.Nests nested ∧ right.Nests nested := nests_and

end Command

/-! ### Clauses -/

/-- Restore the directory and the environment of a shell. -/
def restored {sys : System} (saved s : ShellState sys) : ShellState sys :=
  { s with cwd := saved.cwd, env := saved.env }

/-- Related shells, of which the first one is not disturbed, stay related in each primitive step. -/
structure Simulates {sys : System} (nested : Text → Prop) (capture capture' : Text → Step sys Text)
    (lastExit lastExit' : ℤ) (R : ShellState sys → ShellState sys → Prop)
    (quiet : ShellState sys → Prop) : Prop where
  cwd : ∀ {s s'}, R s s' → s.cwd = s'.cwd
  stdin : ∀ {s s'}, R s s' → s.world.stdin = s'.world.stdin
  stdout : ∀ {s s'}, R s s' → s.world.stdout = s'.world.stdout
  stderr : ∀ {s s'}, R s s' → s.world.stderr = s'.world.stderr
  shared : ∀ {s s'}, R s s' → s.world.shared = s'.world.shared
  restored : ∀ {s s' t t'}, R s s' → R t t' → R (restored s t) (restored s' t')
  quiet_restored : ∀ {s t}, quiet (Shell.restored s t) → quiet t
  capture : ∀ cmd, nested cmd → Lockstep R quiet (capture cmd) (capture' cmd)
  expandText : ∀ text, Lockstep R quiet (expandText lastExit text) (expandText lastExit' text)
  onShared : ∀ {α : Type} (f : sys.World → Except ExecError α × sys.World),
    Lockstep R quiet (Step.onShared f) (Step.onShared f)
  onJobs : ∀ {α : Type} (f : sys.Jobs → sys.World → α × sys.Jobs × sys.World),
    Lockstep R quiet (Step.onJobs f) (Step.onJobs f)
  spawnTask : ∀ argv streams, Lockstep R quiet (spawnTask argv streams) (spawnTask argv streams)
  applyEffects : ∀ effects, Lockstep R quiet (applyEffects effects) (applyEffects effects)
  concludePipeline : ∀ exits,
    Lockstep R quiet (concludePipeline exits) (concludePipeline exits)

namespace Simulates

variable {sys : System} {nested : Text → Prop} {capture capture' : Text → Step sys Text}
variable {lastExit lastExit' : ℤ} {R : ShellState sys → ShellState sys → Prop}
variable {quiet : ShellState sys → Prop}

lemma lockstep_field {α : Type} {f : ShellState sys → α} (hf : ∀ s s', R s s' → f s = f s') :
    Lockstep R quiet (Step.field f) (Step.field f) :=
  lockstep_ofFun (fun _ hs => hs) fun s s' hs _ => ⟨congrArg Except.ok (hf s s' hs), hs⟩

lemma lockstep_refuse (onNested : Option ExecError) :
    Lockstep R quiet (refuse onNested) (refuse onNested) := by
  cases onNested with
  | some e => exact lockstep_throw e
  | none => exact lockstep_pure _

variable (h : Simulates nested capture capture' lastExit lastExit' R quiet)
include h

/-! ### Expansion -/

lemma io {α : Type} (f : sys.World → α × sys.World) :
    Lockstep R quiet (Step.io f) (Step.io f) := h.onShared _

lemma shellStreams :
    Lockstep R quiet Shell.shellStreams Shell.shellStreams := by
  apply lockstep_field
  intro s s' hs
  rw [h.stdin hs, h.stdout hs, h.stderr hs]

lemma expandSegment {segment : WordSegment}
    (hsegment : ∀ cmd, segment.commandSubstitution = some cmd → nested cmd) :
    Lockstep R quiet (Shell.expandSegment capture lastExit segment)
      (Shell.expandSegment capture' lastExit' segment) := by
  unfold Shell.expandSegment
  cases hcmd : segment.commandSubstitution with
  | some cmd => exact h.capture cmd (hsegment cmd hcmd)
  | none =>
    dsimp only
    split_ifs
    · exact h.expandText segment.text
    · exact lockstep_pure segment.text

lemma expandSegments {segments : List WordSegment}
    (hsegments : ∀ segment ∈ segments, ∀ cmd, segment.commandSubstitution = some cmd → nested cmd) :
    Lockstep R quiet (Shell.expandSegments capture lastExit segments)
      (Shell.expandSegments capture' lastExit' segments) := by
  induction segments with
  | nil => exact lockstep_pure _
  | cons segment rest ih =>
    obtain ⟨hsegment, hrest⟩ := List.forall_mem_cons.mp hsegments
    exact (h.expandSegment hsegment).bind fun text => (ih hrest).bind fun _ => lockstep_pure _

lemma expandWord {word : Word} (hword : word.Nests nested) :
    Lockstep R quiet (Shell.expandWord capture lastExit word)
      (Shell.expandWord capture' lastExit' word) := h.expandSegments hword

lemma expandRedirectPath {word : Word} (hword : word.Nests nested) :
    Lockstep R quiet (Shell.expandRedirectPath capture lastExit word)
      (Shell.expandRedirectPath capture' lastExit' word) :=
  (h.expandWord hword).bind fun _ => lockstep_pure _

lemma matchPaths (cwd expanded : Text) (canGlob : Bool) :
    Lockstep R quiet (Shell.matchPaths cwd expanded canGlob)
      (Shell.matchPaths cwd expanded canGlob) := by
  unfold Shell.matchPaths
  split_ifs
  · apply lockstep_field
    intro s s' hs
    rw [h.shared hs]
  · exact lockstep_pure _

lemma expandWords (cwd : Text) {argv : List Word} (hargv : ∀ word ∈ argv, word.Nests nested) :
    Lockstep R quiet (Shell.expandWords capture lastExit cwd argv)
      (Shell.expandWords capture' lastExit' cwd argv) := by
  induction argv with
  | nil => exact lockstep_pure _
  | cons word rest ih =>
    obtain ⟨hword, hrest⟩ := List.forall_mem_cons.mp hargv
    apply (h.expandWord hword).bind
    rintro ⟨expanded, canGlob⟩
    apply (h.matchPaths cwd expanded canGlob).bind
    intro texts
    exact (ih hrest).bind fun _ => lockstep_pure _

lemma expandArgv {argv : List Word} (hargv : ∀ word ∈ argv, word.Nests nested) :
    Lockstep R quiet (Shell.expandArgv capture lastExit argv)
      (Shell.expandArgv capture' lastExit' argv) :=
  (lockstep_field fun _ _ hs => h.cwd hs).bind fun cwd => h.expandWords cwd hargv

/-! ### Redirects -/

lemma openRedirect (kind : OpenKind) {path : Word} (hpath : path.Nests nested) :
    Lockstep R quiet (Shell.openRedirect capture lastExit kind path)
      (Shell.openRedirect capture' lastExit' kind path) := by
  apply (h.expandRedirectPath hpath).bind
  intro path
  apply (lockstep_field fun _ _ hs => h.cwd hs).bind
  intro cwd
  exact h.onShared _

lemma applyRedirect (streams : Streams sys) {redirect : Redirect}
    (hredirect : ∀ word ∈ redirect.words, word.Nests nested) :
    Lockstep R quiet (Shell.applyRedirect capture lastExit streams redirect)
      (Shell.applyRedirect capture' lastExit' streams redirect) := by
  have hopen (kind : OpenKind) {path : Word} (hpath : redirect.target = .file path)
      (f : sys.Io → Streams sys) :
      Lockstep R quiet (Shell.openRedirect capture lastExit kind path >>= fun io => pure (f io))
        (Shell.openRedirect capture' lastExit' kind path >>= fun io => pure (f io)) := by
    refine (h.openRedirect kind ?_).bind fun _ => lockstep_pure _
    exact hredirect path (by simp [Redirect.words, hpath])
  unfold Shell.applyRedirect
  split
  · exact hopen _ ‹_› _
  · exact hopen _ ‹_› _
  · exact hopen _ ‹_› _
  · exact hopen _ ‹_› _
  · exact hopen _ ‹_› _
  · exact lockstep_pure _
  · exact lockstep_pure _
  · exact (h.io _).bind fun _ => lockstep_pure _
  · exact lockstep_pure _

lemma applyRedirects (streams : Streams sys) {redirects : List Redirect}
    (hredirects : ∀ redirect ∈ redirects, ∀ word ∈ redirect.words, word.Nests nested) :
    Lockstep R quiet (Shell.applyRedirects capture lastExit streams redirects)
      (Shell.applyRedirects capture' lastExit' streams redirects) := by
  induction redirects generalizing streams with
  | nil => exact lockstep_pure _
  | cons redirect rest ih =>
    obtain ⟨hredirect, hrest⟩ := List.forall_mem_cons.mp hredirects
    exact (h.applyRedirect streams hredirect).bind fun streams => ih streams hrest

/-! ### Tasks -/

lemma newPipes (n : ℕ) : Lockstep R quiet (Shell.newPipes n) (Shell.newPipes n) := by
  induction n with
  | zero => exact lockstep_pure _
  | succ n ih => exact (h.io _).bind fun pipe => ih.bind fun _ => lockstep_pure _

lemma closePipes (pipes : List sys.Io) :
    Lockstep R quiet (Shell.closePipes pipes) (Shell.closePipes pipes) := by
  induction pipes with
  | nil => exact lockstep_pure _
  | cons pipe rest ih => exact (h.io _).bind fun _ => ih

lemma awaitHandles (tasks : List sys.Task) (pipes : List sys.Io) :
    Lockstep R quiet (Shell.awaitHandles tasks pipes) (Shell.awaitHandles tasks pipes) := by
  induction tasks generalizing pipes with
  | nil => exact lockstep_pure _
  | cons task rest ih =>
    apply (h.io _).bind
    intro result
    apply (h.closePipes _).bind
    intro _
    exact (ih pipes.tail).bind fun _ => lockstep_pure _

lemma runSimple {argv : List Word} {redirects : List Redirect}
    (hargv : ∀ word ∈ argv, word.Nests nested)
    (hredirects : ∀ redirect ∈ redirects, ∀ word ∈ redirect.words, word.Nests nested) :
    Lockstep R quiet (Shell.runSimple capture lastExit argv redirects)
      (Shell.runSimple capture' lastExit' argv redirects) := by
  apply (h.expandArgv hargv).bind
  intro argv
  apply h.shellStreams.bind
  intro streams
  apply (h.applyRedirects streams hredirects).bind
  intro streams
  cases JobBuiltin.ofName (argv.headD []) with
  | some builtin => exact h.onJobs _
  | none =>
    dsimp only
    split_ifs
    · apply (h.spawnTask argv streams).bind
      intro task
      apply (h.io _).bind
      intro result
      cases result with
      | ok exit => exact (h.applyEffects exit.effects).bind fun _ => lockstep_pure _
      | error e => exact lockstep_pure _
    · exact lockstep_throw _

lemma spawnCommands (onNested : Option ExecError) {commands : List Command}
    (hcommands : ∀ command ∈ commands, command.Nests nested) (stdin : sys.Io)
    (pipes : List sys.Io) :
    Lockstep R quiet (Shell.spawnCommands capture lastExit onNested commands stdin pipes)
      (Shell.spawnCommands capture' lastExit' onNested commands stdin pipes) := by
  induction commands generalizing stdin pipes with
  | nil => exact lockstep_pure _
  | cons command rest ih =>
    obtain ⟨hcommand, hrest⟩ := List.forall_mem_cons.mp hcommands
    have hskip := (lockstep_refuse onNested).bind fun _ => ih hrest (pipes.headD stdin) pipes.tail
    cases command with
    | simple argv redirects =>
      obtain ⟨hargv, hredirects⟩ := Command.nests_simple.mp hcommand
      apply h.shellStreams.bind
      intro streams
      apply (h.expandArgv hargv).bind
      intro argv
      apply (h.applyRedirects _ hredirects).bind
      intro streams
      apply (h.spawnTask argv streams).bind
      intro task
      exact (ih hrest _ _).bind fun _ => lockstep_pure _
    | pipeline _ | and _ _ | or _ _ | sequence _ | background _ | subshell _ | empty => exact hskip

lemma runPipeline {commands : List Command}
    (hcommands : ∀ command ∈ commands, command.Nests nested) :
    Lockstep R quiet (Shell.runPipeline capture lastExit commands)
      (Shell.runPipeline capture' lastExit' commands) := by
  apply (h.newPipes _).bind
  intro pipes
  apply (lockstep_field fun _ _ hs => h.stdin hs).bind
  intro stdin
  apply (h.spawnCommands _ hcommands stdin pipes).bind
  intro tasks
  apply (h.awaitHandles tasks pipes).bind
  intro exits
  exact h.concludePipeline exits

lemma spawnBackground {command : Command} (hcommand : command.Nests nested) :
    Lockstep R quiet (Shell.spawnBackground capture lastExit command)
      (Shell.spawnBackground capture' lastExit' command) := by
  induction command using Shell.spawnBackground.induct with
  | case1 | case2 | case4 | case6 =>
    simp only [Shell.spawnBackground, ↓reduceIte]
    exact lockstep_pure _
  | case3 argv redirects hargv =>
    simp only [Shell.spawnBackground, hargv, ↓reduceIte]
    obtain ⟨hwords, hredirects⟩ := Command.nests_simple.mp hcommand
    apply (h.expandArgv hwords).bind
    intro argv
    split_ifs
    · apply h.shellStreams.bind
      intro streams
      apply (h.applyRedirects streams hredirects).bind
      intro streams
      exact (h.spawnTask argv streams).bind fun _ => lockstep_pure _
    · exact lockstep_throw _
  | case5 commands hcommands =>
    simp only [Shell.spawnBackground, hcommands, ↓reduceIte]
    apply (h.newPipes _).bind
    intro pipes
    apply (lockstep_field fun _ _ hs => h.stdin hs).bind
    intro stdin
    apply (h.spawnCommands _ (Command.nests_pipeline.mp hcommand) stdin pipes).bind
    intro tasks
    exact (h.closePipes pipes).bind fun _ => lockstep_pure _
  | case7 first tail ih =>
    simp only [Shell.spawnBackground]
    exact ih (Command.nests_sequence.mp hcommand first List.mem_cons_self)
  | case8 left right ih =>
    simp only [Shell.spawnBackground]
    exact ih (Command.nests_and.mp hcommand).1
  | case9 left right ih =>
    simp only [Shell.spawnBackground]
    exact ih (Command.nests_or.mp hcommand).1
  | case10 command ih | case11 command ih =>
    simp only [Shell.spawnBackground]
    exact ih hcommand

lemma runBackground {command : Command} (hcommand : command.Nests nested) :
    Lockstep R quiet (Shell.runBackground capture lastExit command)
      (Shell.runBackground capture' lastExit' command) := by
  apply (h.spawnBackground hcommand).bind
  intro tasks
  cases tasks with
  | nil => exact lockstep_pure _
  | cons task rest => exact h.onJobs _

end Simulates

/-! ### Whole commands -/

/-- The commands inside a command come first. -/
lemma Command.induct {P : Command → Prop} (empty : P .empty)
    (simple : ∀ argv redirects, P (.simple argv redirects))
    (pipeline : ∀ commands, (∀ command ∈ commands, P command) → P (.pipeline commands))
    (and : ∀ left right, P left → P right → P (.and left right))
    (or : ∀ left right, P left → P right → P (.or left right))
    (sequence : ∀ commands, (∀ command ∈ commands, P command) → P (.sequence commands))
    (background : ∀ command, P command → P (.background command))
    (subshell : ∀ command, P command → P (.subshell command)) (command : Command) : P command :=
  @Command.rec P (fun commands => ∀ command ∈ commands, P command) simple pipeline and or sequence
    background subshell empty (fun _ hmem => absurd hmem List.not_mem_nil)
    (fun _ _ hhead htail => List.forall_mem_cons.mpr ⟨hhead, htail⟩) command

section

variable {Env World : Type} {interpreter : Interpreter Env World}

lemma lastExit_bind {run : Run Env World} {next : ℤ → Session Env World → Run Env World}
    {lastExit : ℤ} (hrun : run.session.lastExit = lastExit)
    (hnext : ∀ code session, session.lastExit = lastExit →
      (next code session).session.lastExit = lastExit) :
    (run.bind next).session.lastExit = lastExit := by
  unfold Run.bind
  split
  · exact hnext _ _ hrun
  · exact hrun

/-- The status is stored when the line is done, not before. -/
lemma executeCommand_lastExit (command : Command) (session : Session Env World) :
    (executeCommand interpreter command session).session.lastExit = session.lastExit := by
  induction command using Command.induct generalizing session with
  | empty =>
    rw [executeCommand]
    rfl
  | simple argv redirects =>
    rw [executeCommand_simple, executeSimple]
    split_ifs <;> rfl
  | pipeline commands ih =>
    rcases commands with _ | ⟨command, _ | ⟨command', rest⟩⟩
    · rw [executeCommand]
      rfl
    · rw [executeCommand]
      exact ih command List.mem_cons_self session
    · rw [executeCommand_pipeline _ (by simp)]
      rfl
  | and left right ihl ihr =>
    rw [executeCommand_and]
    refine lastExit_bind (ihl session) fun code session' hsession => ?_
    split_ifs
    · exact hsession
    · rw [ihr, hsession]
  | or left right ihl ihr =>
    rw [executeCommand_or]
    refine lastExit_bind (ihl session) fun code session' hsession => ?_
    split_ifs
    · exact hsession
    · rw [ihr, hsession]
  | sequence commands ih =>
    rw [executeCommand_sequence]
    suffices h : ∀ lastCode (session : Session Env World),
        (sequenceLoop (executeCommand interpreter) commands lastCode session).session.lastExit =
          session.lastExit from h 0 session
    induction commands with
    | nil => exact fun _ _ => rfl
    | cons command rest ihrest =>
      obtain ⟨hcommand, hrest⟩ := List.forall_mem_cons.mp ih
      intro lastCode session
      refine lastExit_bind (hcommand session) fun code session' hsession => ?_
      rw [ihrest hrest, hsession]
  | background command =>
    rw [executeCommand_background]
    rfl
  | subshell command ih =>
    rw [executeCommand_subshell]
    exact ih session

end

section

variable {sys : System}

/-- A run, as a step at a value of `$?`. -/
def stepOf (lastExit : ℤ) (run : ShellSession sys → Run Environment (Rest sys)) : Step sys ℤ :=
  .ofFun fun s =>
    let result := run { toContext := s, lastExit }
    (result.outcome, result.session.toContext)

variable {lastExit : ℤ} {run : ShellSession sys → Run Environment (Rest sys)}

lemma stepOf_pure (code : ℤ) : (stepOf lastExit (.pure code) : Step sys ℤ) = Pure.pure code := rfl

lemma stepOf_bind {next : ℤ → ShellSession sys → Run Environment (Rest sys)}
    (hrun : ∀ session, (run session).session.lastExit = session.lastExit) :
    stepOf lastExit (fun session => (run session).bind next) =
      stepOf lastExit run >>= fun code => stepOf lastExit (next code) := by
  apply Computation.ext
  intro s
  have hlast := hrun { toContext := s, lastExit }
  rcases hresult : run { toContext := s, lastExit } with ⟨outcome, session, executed⟩
  rw [hresult] at hlast
  have hexec : (stepOf lastExit run).exec s = (outcome, session.toContext) := by
    simp only [stepOf, exec_ofFun, hresult]
  cases outcome with
  | error e =>
    rw [exec_bind_of_error hexec]
    simp only [stepOf, exec_ofFun, hresult, Run.bind]
  | ok code =>
    obtain ⟨context, last⟩ := session
    obtain rfl : last = lastExit := hlast
    rw [exec_bind_of_ok hexec]
    simp only [stepOf, exec_ofFun, hresult, Run.bind]

/-- The interpreter that goes by its steps. -/
lemma Simulates.executeCommand {nested : Text → Prop} {capture capture' : Text → Step sys Text}
    {lastExit' : ℤ} {R : ShellState sys → ShellState sys → Prop} {quiet : ShellState sys → Prop}
    (h : Simulates nested capture capture' lastExit lastExit' R quiet) {command : Command}
    (hcommand : command.Nests nested) :
    Lockstep R quiet
      (stepOf lastExit (Shell.executeCommand (interpreterWith capture) command))
      (stepOf lastExit' (Shell.executeCommand (interpreterWith capture') command)) := by
  have heq {cmd : Command} {run : Interpreter Environment (Rest sys) → ShellSession sys →
      Run Environment (Rest sys)}
      (heq : ∀ interpreter session, Shell.executeCommand interpreter cmd session =
        run interpreter session)
      (hrun : Lockstep R quiet (stepOf lastExit (run (interpreterWith capture)))
        (stepOf lastExit' (run (interpreterWith capture')))) :
      Lockstep R quiet (stepOf lastExit (Shell.executeCommand (interpreterWith capture) cmd))
        (stepOf lastExit' (Shell.executeCommand (interpreterWith capture') cmd)) := by
    rw [funext (heq (interpreterWith capture)), funext (heq (interpreterWith capture'))]
    exact hrun
  have hpure (code : ℤ) :
      Lockstep R quiet (stepOf lastExit (.pure code)) (stepOf lastExit' (.pure code)) := by
    rw [stepOf_pure, stepOf_pure]
    exact lockstep_pure code
  induction command using Command.induct with
  | empty => exact heq (fun _ _ => by rw [Shell.executeCommand]) (hpure 0)
  | simple argv redirects =>
    by_cases hargv : argv = []
    · refine heq (fun _ session => (executeCommand_simple _ argv redirects session).trans
        (if_pos hargv)) ?_
      exact hpure 0
    · refine heq (fun _ session => (executeCommand_simple _ argv redirects session).trans
        (if_neg hargv)) ?_
      obtain ⟨hwords, hredirects⟩ := Command.nests_simple.mp hcommand
      exact h.runSimple hwords hredirects
  | pipeline commands ih =>
    have hcommands := Command.nests_pipeline.mp hcommand
    rcases commands with _ | ⟨command, _ | ⟨command', rest⟩⟩
    · exact heq (fun _ _ => by rw [Shell.executeCommand]) (hpure 0)
    · refine heq (fun _ _ => by rw [Shell.executeCommand]) (ih command ?_ (hcommands command ?_))
      · exact List.mem_cons_self
      · exact List.mem_cons_self
    · exact heq (fun _ session => executeCommand_pipeline _ (by simp) session)
        (h.runPipeline hcommands)
  | and left right ihl ihr =>
    obtain ⟨hleft, hright⟩ := Command.nests_and.mp hcommand
    refine heq (fun _ session => executeCommand_and _ left right session) ?_
    rw [stepOf_bind (executeCommand_lastExit left), stepOf_bind (executeCommand_lastExit left)]
    apply (ihl hleft).bind
    intro code
    split_ifs
    · exact hpure code
    · exact ihr hright
  | or left right ihl ihr =>
    obtain ⟨hleft, hright⟩ := Command.nests_or.mp hcommand
    refine heq (fun _ session => executeCommand_or _ left right session) ?_
    rw [stepOf_bind (executeCommand_lastExit left), stepOf_bind (executeCommand_lastExit left)]
    apply (ihl hleft).bind
    intro code
    split_ifs
    · exact hpure 0
    · exact ihr hright
  | sequence commands ih =>
    refine heq (fun _ session => executeCommand_sequence _ commands session) ?_
    suffices hloop : ∀ lastCode, Lockstep R quiet
        (stepOf lastExit
          (sequenceLoop (Shell.executeCommand (interpreterWith capture)) commands lastCode))
        (stepOf lastExit'
          (sequenceLoop (Shell.executeCommand (interpreterWith capture')) commands lastCode)) from
      hloop 0
    have hcommands := Command.nests_sequence.mp hcommand
    clear hcommand
    induction commands with
    | nil => exact fun lastCode => hpure lastCode
    | cons command rest ihrest =>
      obtain ⟨hfirst, hrest⟩ := List.forall_mem_cons.mp hcommands
      obtain ⟨ihfirst, ihrest'⟩ := List.forall_mem_cons.mp ih
      intro lastCode
      have hunfold (interpreter : Interpreter Environment (Rest sys)) (last : ℤ) :
          stepOf last (sequenceLoop (Shell.executeCommand interpreter) (command :: rest) lastCode) =
            stepOf last (Shell.executeCommand interpreter command) >>= fun code =>
              stepOf last (sequenceLoop (Shell.executeCommand interpreter) rest code) :=
        stepOf_bind (executeCommand_lastExit command)
      rw [hunfold, hunfold]
      exact (ihfirst hfirst).bind fun code => ihrest ihrest' hrest code
  | background command =>
    exact heq (fun _ session => executeCommand_background _ command session)
      (h.runBackground hcommand)
  | subshell command ih =>
    refine heq (fun _ session => executeCommand_subshell _ command session) ?_
    have hstep := ih hcommand
    refine lockstep_ofFun (fun s hs => hstep.inherited s (h.quiet_restored hs)) ?_
    intro s s' hs hquiet
    obtain ⟨hresult, hstate⟩ := hstep.agrees s s' hs (h.quiet_restored hquiet)
    exact ⟨hresult, h.restored hs hstate⟩

end

end AmlaSandbox.Shell
