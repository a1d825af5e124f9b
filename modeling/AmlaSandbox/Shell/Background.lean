import AmlaSandbox.Shell.Substitution

/-!
# Background commands

`c &` spawns the tasks of a command and does not wait for them. Of a list it spawns the first
command only, and the pipes of a pipeline are closed before a task has run.
-/

namespace AmlaSandbox.Shell

open Text Library Library.Computation Scheduling

section

variable {sys : System}

/-! ### The job -/

def awaitTasks : List sys.Task → Step sys (List TaskResult)
  | [] => pure []
  | task :: rest => do
    let result ← awaitTask task
    let results ← awaitTasks rest
    pure (result :: results)

/-- `Job::update_state`, when all tasks are complete. -/
def jobStatus (results : List TaskResult) : ℤ :=
  match results.getLast? with
  | some result => (exitCode result).getD 1
  | none => 0

section

variable (capture : Text → Step sys Text) (lastExit : ℤ)

/-- `c &`, until all its tasks have finished. -/
def runJob (command : Command) : Step sys ℤ := do
  let tasks ← spawnBackground capture lastExit command
  let results ← awaitTasks tasks
  pure (jobStatus results)

/-- A command in the shell, as a step. -/
def runCommand (command : Command) : Step sys ℤ :=
  stepOf lastExit (executeCommand (interpreterWith capture) command)

end

/-- A substitution, by what it comes to; of the shell it changes the shared world only. -/
def substitute (come : Text → ShellState sys → Except ExecError Text × sys.World) (text : Text) :
    Step sys Text := .ofFun fun s =>
  let (result, shared) := come text s
  (result, { s with world := { s.world with shared } })

/-! ### What should happen -/

/-- A task or a builtin was started, with what it was given. -/
def Consulted.isStart : Consulted sys → Bool
  | .spawned _ _ | .usedJobs => true
  | _ => false

/-- What a step starts; the newest is first. -/
def started (step : Step sys ℤ) (s : ShellState sys) : List (Consulted sys) :=
  (recordedSince s.world (step.exec s).2.world).filter Consulted.isStart

/-- The status, and what has become of the world; `none` where there was an error. -/
def settled (step : Step sys ℤ) (s : ShellState sys) : Option (ℤ × sys.World) :=
  match step.exec s with
  | (.ok status, s') => some (status, s'.world.shared)
  | (.error _, _) => none

/-- `c &` starts what `(c)` does, and comes to the same. -/
structure RunsWhole (capture : Text → Step sys Text) (lastExit : ℤ) (command : Command)
    (s : ShellState sys) : Prop where
  started : started (runJob capture lastExit command) s =
    started (runCommand capture lastExit (.subshell command)) s
  settled : settled (runJob capture lastExit command) s =
    settled (runCommand capture lastExit (.subshell command)) s

/-- The streams of a command that is not in a pipeline. -/
def openStreams (capture : Text → Step sys Text) (lastExit : ℤ) (redirects : List Redirect) :
    Step sys (Streams sys) := do
  let streams ← shellStreams
  applyRedirects capture lastExit streams redirects

/-- What is expanded and opened for a simple command before it is looked up. -/
def prepare (capture : Text → Step sys Text) (lastExit : ℤ) (argv : List Word)
    (redirects : List Redirect) : Step sys (List Text × Streams sys) := do
  let argv ← expandArgv capture lastExit argv
  let streams ← openStreams capture lastExit redirects
  pure (argv, streams)

end

/-- The trees of pipelines, lists, sequences and subshells. -/
inductive Command.IsTree : Command → Prop
  | simple {argv : List Word} (redirects : List Redirect) (h : argv ≠ []) :
      IsTree (.simple argv redirects)
  | pipeline {commands : List Command} (hlen : 2 ≤ commands.length)
      (h : ∀ c ∈ commands, IsTree c) : IsTree (.pipeline commands)
  | and {left right : Command} (hl : IsTree left) (hr : IsTree right) : IsTree (.and left right)
  | or {left right : Command} (hl : IsTree left) (hr : IsTree right) : IsTree (.or left right)
  | sequence {commands : List Command} (hlen : 2 ≤ commands.length)
      (h : ∀ c ∈ commands, IsTree c) : IsTree (.sequence commands)
  | subshell {command : Command} (h : IsTree command) : IsTree (.subshell command)

/-- The words never come out as a builtin that needs the job table. -/
def NeverBuiltin (argv : List Word) (redirects : List Redirect) : Prop :=
  ∀ (sys : System) come lastExit (s s' : ShellState sys) argv' streams,
    (prepare (substitute come) lastExit argv redirects).exec s = (.ok (argv', streams), s') →
      JobBuiltin.ofName (argv'.headD []) = none

/-- One simple command that is no such builtin, perhaps in subshells. -/
inductive Command.IsSingle : Command → Prop
  | simple {argv : List Word} {redirects : List Redirect} (h : NeverBuiltin argv redirects) :
      IsSingle (.simple argv redirects)
  | subshell {command : Command} (h : IsSingle command) : IsSingle (.subshell command)

section

variable {sys : System} {capture : Text → Step sys Text} {lastExit : ℤ} {s s' : ShellState sys}
  {argv : List Word} {redirects : List Redirect} {commands : List Command}
  {command left right : Command}

/-! ### Commands as steps -/

lemma runCommand_simple (h : argv ≠ []) : runCommand capture lastExit (.simple argv redirects) =
    runSimple capture lastExit argv redirects := by
  have heq : executeCommand (interpreterWith capture) (.simple argv redirects) = fun session =>
      .unit (.simple argv redirects) session ((interpreterWith capture).simple argv redirects
        session.lastExit session.toContext) := by
    funext session
    rw [executeCommand_simple, executeSimple, if_neg h]
  rw [runCommand, heq]
  rfl

lemma runCommand_pipeline (h : 2 ≤ commands.length) :
    runCommand capture lastExit (.pipeline commands) = runPipeline capture lastExit commands := by
  rw [runCommand, funext (executeCommand_pipeline (interpreterWith capture) h)]
  rfl

lemma runCommand_and : runCommand capture lastExit (.and left right) =
    runCommand capture lastExit left >>= fun code =>
      if code ≠ 0 then pure code else runCommand capture lastExit right := by
  rw [runCommand, funext (executeCommand_and _ left right),
    stepOf_bind (executeCommand_lastExit left)]
  congr 1
  funext code
  split_ifs <;> rfl

lemma runCommand_or : runCommand capture lastExit (.or left right) =
    runCommand capture lastExit left >>= fun code =>
      if code = 0 then pure 0 else runCommand capture lastExit right := by
  rw [runCommand, funext (executeCommand_or _ left right),
    stepOf_bind (executeCommand_lastExit left)]
  congr 1
  funext code
  split_ifs <;> rfl

/-- The commands of a sequence one after the other, from a status on. -/
def runSequence (capture : Text → Step sys Text) (lastExit : ℤ) :
    List Command → ℤ → Step sys ℤ
  | [], code => pure code
  | command :: rest, _ => runCommand capture lastExit command >>= runSequence capture lastExit rest

lemma runCommand_sequence : runCommand capture lastExit (.sequence commands) =
    runSequence capture lastExit commands 0 := by
  have hloop : ∀ code, stepOf lastExit
      (sequenceLoop (executeCommand (interpreterWith capture)) commands code) =
        runSequence capture lastExit commands code := by
    induction commands with
    | nil => exact fun _ => rfl
    | cons command rest ih =>
      intro code
      rw [runSequence, ← funext ih]
      exact stepOf_bind (executeCommand_lastExit command)
  rw [runCommand, funext (executeCommand_sequence _ commands)]
  exact hloop 0

lemma exec_subshell : (runCommand capture lastExit (.subshell command)).exec s =
    (((runCommand capture lastExit command).exec s).1,
      restored s ((runCommand capture lastExit command).exec s).2) := by
  rw [runCommand, funext (executeCommand_subshell _ command)]
  rfl

lemma started_subshell : started (runCommand capture lastExit (.subshell command)) s =
    started (runCommand capture lastExit command) s := by
  rw [started, started, exec_subshell]
  rfl

lemma settled_subshell : settled (runCommand capture lastExit (.subshell command)) s =
    settled (runCommand capture lastExit command) s := by
  rw [settled, settled, exec_subshell]
  rcases (runCommand capture lastExit command).exec s with ⟨_ | _, _⟩ <;> rfl

lemma runJob_subshell :
    runJob capture lastExit (.subshell command) = runJob capture lastExit command := by
  rw [runJob, runJob, spawnBackground]

lemma runsWhole_subshell_iff : RunsWhole capture lastExit (.subshell command) s ↔
    RunsWhole capture lastExit command s := by
  constructor
  · rintro ⟨hstarted, hsettled⟩
    rw [runJob_subshell, started_subshell] at hstarted
    rw [runJob_subshell, settled_subshell] at hsettled
    exact ⟨hstarted, hsettled⟩
  · rintro ⟨hstarted, hsettled⟩
    constructor
    · rwa [runJob_subshell, started_subshell]
    · rwa [runJob_subshell, settled_subshell]

end

/-! ### Expansions -/

/-- What holds of the parts of an expansion, and of steps that are put together. -/
structure Pervades {sys : System} (good : ∀ {α : Type}, Step sys α → Prop)
    (capture : Text → Step sys Text) (lastExit : ℤ) : Prop where
  pure : ∀ {α : Type} (a : α), good (Pure.pure a : Step sys α)
  bind : ∀ {α β : Type} {m : Step sys α} {f : α → Step sys β}, good m → (∀ a, good (f a)) →
    good (m >>= f)
  field : ∀ {α : Type} (f : ShellState sys → α), good (Step.field f)
  capture : ∀ text, good (capture text)
  expandText : ∀ text, good (expandText lastExit text : Step sys Text)
  openFile : ∀ kind path, good (Step.onShared fun w =>
    match sys.openFile kind path w with
    | (.ok io, w) => (.ok io, w)
    | (.error message, w) => (.error (.failed message), w) : Step sys sys.Io)
  fromString : ∀ content, good (Step.io (sys.fromString content))

namespace Pervades

variable {sys : System} {good : ∀ {α : Type}, Step sys α → Prop} {capture : Text → Step sys Text}
  {lastExit : ℤ} (h : Pervades good capture lastExit)
include h

lemma expandSegment (segment : WordSegment) :
    good (Shell.expandSegment capture lastExit segment) := by
  unfold Shell.expandSegment
  split
  · exact h.capture _
  · split_ifs
    · exact h.expandText _
    · exact h.pure _

lemma expandWord (word : Word) : good (Shell.expandWord capture lastExit word) := by
  rw [Shell.expandWord]
  induction word.segments with
  | nil => exact h.pure _
  | cons segment rest ih =>
    exact h.bind (h.expandSegment segment) fun text => h.bind ih fun _ => h.pure _

lemma matchPaths (cwd expanded : Text) (canGlob : Bool) :
    good (Shell.matchPaths cwd expanded canGlob : Step sys (List Text)) := by
  unfold Shell.matchPaths
  split_ifs
  · exact h.field _
  · exact h.pure _

lemma expandArgv (argv : List Word) : good (Shell.expandArgv capture lastExit argv) := by
  apply h.bind (h.field _)
  intro cwd
  induction argv with
  | nil => exact h.pure _
  | cons word rest ih =>
    exact h.bind (h.expandWord word) fun _ => h.bind (h.matchPaths _ _ _) fun _ =>
      h.bind ih fun _ => h.pure _

lemma openRedirect (kind : OpenKind) (path : Word) :
    good (Shell.openRedirect capture lastExit kind path) := by
  have hpath : good (Shell.expandRedirectPath capture lastExit path) :=
    h.bind (h.expandWord path) fun _ => h.pure _
  exact h.bind hpath fun path => h.bind (h.field _) fun cwd => h.openFile kind _

lemma applyRedirect (streams : Streams sys) (redirect : Redirect) :
    good (Shell.applyRedirect capture lastExit streams redirect) := by
  unfold Shell.applyRedirect
  split
  · exact h.bind (h.openRedirect _ _) fun _ => h.pure _
  · exact h.bind (h.openRedirect _ _) fun _ => h.pure _
  · exact h.bind (h.openRedirect _ _) fun _ => h.pure _
  · exact h.bind (h.openRedirect _ _) fun _ => h.pure _
  · exact h.bind (h.openRedirect _ _) fun _ => h.pure _
  · exact h.pure _
  · exact h.pure _
  · exact h.bind (h.fromString _) fun _ => h.pure _
  · exact h.pure _

lemma applyRedirects (streams : Streams sys) (redirects : List Redirect) :
    good (Shell.applyRedirects capture lastExit streams redirects) := by
  induction redirects generalizing streams with
  | nil => exact h.pure _
  | cons redirect rest ih => exact h.bind (h.applyRedirect streams redirect) fun _ => ih _

lemma openStreams (redirects : List Redirect) :
    good (Shell.openStreams capture lastExit redirects) :=
  h.bind (h.field _) fun _ => h.applyRedirects _ redirects

lemma prepare (argv : List Word) (redirects : List Redirect) :
    good (Shell.prepare capture lastExit argv redirects) :=
  h.bind (h.expandArgv argv) fun _ => h.bind (h.openStreams redirects) fun _ => h.pure _

end Pervades

/-- Nothing is started. -/
def Calm {sys : System} {α : Type} (m : Step sys α) : Prop :=
  ∀ s, ∃ new, (m.exec s).2.world.record = new ++ s.world.record ∧ ∀ e ∈ new, e.isStart = false

section

variable {sys : System} {α β : Type} {m : Step sys α} {f : α → Step sys β} {lastExit : ℤ}
  {s s' : ShellState sys}

lemma Calm.bind (hm : Calm m) (hf : ∀ a, Calm (f a)) : Calm (m >>= f) := by
  intro s
  obtain ⟨new, hnew, hstart⟩ := hm s
  rcases hexec : m.exec s with ⟨result, t⟩
  rw [hexec] at hnew
  cases result with
  | error e =>
    rw [exec_bind_of_error hexec]
    exact ⟨new, hnew, hstart⟩
  | ok a =>
    rw [exec_bind_of_ok hexec]
    obtain ⟨later, hlater, hstart'⟩ := hf a t
    refine ⟨later ++ new, ?_, ?_⟩
    · rw [hlater, hnew, List.append_assoc]
    · exact List.forall_mem_append.mpr ⟨hstart', hstart⟩

lemma calm_of_record (h : ∀ s, (m.exec s).2.world.record = s.world.record) : Calm m :=
  fun s => ⟨[], h s, by simp⟩

lemma pervades_calm (come : Text → ShellState sys → Except ExecError Text × sys.World)
    (lastExit : ℤ) : Pervades Calm (substitute come) lastExit where
  pure _ := calm_of_record fun _ => rfl
  bind := Calm.bind
  field _ := calm_of_record fun _ => rfl
  capture _ := calm_of_record fun _ => rfl
  expandText text s :=
    ⟨[.expanded s.env (s.env.expandTilde text)], rfl, by simp [Consulted.isStart]⟩
  openFile _ _ := calm_of_record fun _ => rfl
  fromString _ := calm_of_record fun _ => rfl

lemma recordedSince_append {before after : Rest sys} {new : List (Consulted sys)}
    (h : after.record = new ++ before.record) : recordedSince before after = new := by
  rw [recordedSince, h, List.length_append, Nat.add_sub_cancel, List.take_left' rfl]

end

/-! ### Simple commands -/

section

variable {sys : System} {capture : Text → Step sys Text} {lastExit : ℤ} {s t t' : ShellState sys}
  {come : Text → ShellState sys → Except ExecError Text × sys.World}
  {argv : List Word} {redirects : List Redirect} {command : Command}

/-- What the shell does with the result of a simple command. -/
def conclude (result : TaskResult) : Step sys ℤ :=
  match result with
  | .ok exit => do
    applyEffects exit.effects
    pure exit.code.toInt
  | .error _ => pure 1

/-- The task of a simple command, and its result. -/
def launch (argv : List Text) (streams : Streams sys) : Step sys TaskResult :=
  spawnTask argv streams >>= awaitTask

/-- What `execute_simple` does with its words and streams. -/
def startPrepared (argv : List Text) (streams : Streams sys) : Step sys ℤ :=
  match JobBuiltin.ofName (argv.headD []) with
  | some builtin => Step.onJobs (sys.builtin builtin argv streams.stdout streams.stderr)
  | none =>
    if sys.commandExists (argv.headD []) then launch argv streams >>= conclude
    else throw (.commandNotFound (argv.headD []))

lemma runSimple_eq : runSimple capture lastExit argv redirects =
    prepare capture lastExit argv redirects >>= fun r => startPrepared r.1 r.2 := by
  simp only [runSimple, prepare, openStreams, bind_assoc, pure_bind, startPrepared, launch]
  rfl

lemma spawnBackground_simple (h : argv ≠ []) :
    spawnBackground capture lastExit (.simple argv redirects) =
      expandArgv capture lastExit argv >>= fun argv =>
        if sys.commandExists (argv.headD []) then
          openStreams capture lastExit redirects >>= fun streams =>
            spawnTask argv streams >>= fun task => pure [task]
        else throw (.commandNotFound (argv.headD [])) := by
  rw [spawnBackground, if_neg h]
  simp only [openStreams, bind_assoc]

lemma exists_of_prepare {argv' : List Text} {streams : Streams sys}
    (h : (prepare capture lastExit argv redirects).exec s = (.ok (argv', streams), t)) :
    ∃ t₁, (expandArgv capture lastExit argv).exec s = (.ok argv', t₁) ∧
      (openStreams capture lastExit redirects).exec t₁ = (.ok streams, t) := by
  rw [prepare] at h
  rcases hexpand : (expandArgv capture lastExit argv).exec s with ⟨_ | words, t₁⟩
  · rw [exec_bind_of_error hexpand] at h
    cases h
  · rw [exec_bind_of_ok hexpand] at h
    rcases hopen : (openStreams capture lastExit redirects).exec t₁ with ⟨_ | streams', t₂⟩
    · rw [exec_bind_of_error hopen] at h
      cases h
    · rw [exec_bind_of_ok hopen] at h
      cases h
      exact ⟨t₁, rfl, hopen⟩

/-- The job of a simple command has its task only. -/
lemma exec_runJob {argv' : List Text} {streams : Streams sys} (hne : argv ≠ [])
    (hprepare : (prepare capture lastExit argv redirects).exec s = (.ok (argv', streams), t))
    (hexists : sys.commandExists (argv'.headD []) = true) :
    (runJob capture lastExit (.simple argv redirects)).exec s =
      (launch argv' streams >>= fun result => pure (jobStatus [result])).exec t := by
  obtain ⟨t₁, hexpand, hopen⟩ := exists_of_prepare hprepare
  rw [runJob, spawnBackground_simple hne, bind_assoc, exec_bind_of_ok hexpand, if_pos hexists,
    bind_assoc, exec_bind_of_ok hopen]
  simp only [launch, awaitTasks, bind_assoc, pure_bind]

/-- A task is started, and nothing else. -/
lemma exec_launch (argv : List Text) (streams : Streams sys) : ∃ result t₁ ctx shared,
    (launch argv streams).exec t = (.ok result, t₁) ∧
      t₁.world.record = .spawned ctx shared :: t.world.record :=
  ⟨_, _, _, _, rfl, rfl⟩

/-- Neither was any further than the expansion. -/
lemma runsWhole_of_errors {e e' : ExecError}
    (hjob : (runJob capture lastExit command).exec s = (.error e, t))
    (hcommand : (runCommand capture lastExit command).exec s = (.error e', t'))
    (ht : ∃ new, t.world.record = new ++ s.world.record ∧ ∀ e ∈ new, e.isStart = false)
    (ht' : ∃ new, t'.world.record = new ++ s.world.record ∧ ∀ e ∈ new, e.isStart = false) :
    RunsWhole capture lastExit command s := by
  obtain ⟨new, hnew, hstart⟩ := ht
  obtain ⟨new', hnew', hstart'⟩ := ht'
  constructor
  · rw [started_subshell, started, started, hjob, hcommand, recordedSince_append hnew,
      recordedSince_append hnew', List.filter_eq_nil_iff.mpr (by simpa using hstart),
      List.filter_eq_nil_iff.mpr (by simpa using hstart')]
  · rw [settled_subshell, settled, settled, hjob, hcommand]

/-- The task of the job is the one of the command. -/
lemma runsWhole_of_start {argv' : List Text} {streams : Streams sys} (hne : argv ≠ [])
    (hprepare : (prepare capture lastExit argv redirects).exec s = (.ok (argv', streams), t))
    (hbuiltin : JobBuiltin.ofName (argv'.headD []) = none)
    (hexists : sys.commandExists (argv'.headD []) = true)
    (ht : ∃ new, t.world.record = new ++ s.world.record ∧ ∀ e ∈ new, e.isStart = false) :
    RunsWhole capture lastExit (.simple argv redirects) s := by
  obtain ⟨new, hnew, -⟩ := ht
  obtain ⟨result, t₁, ctx, shared, hlaunch, hspawned⟩ := exec_launch (t := t) argv' streams
  have hrecord : t₁.world.record = .spawned ctx shared :: new ++ s.world.record := by
    rw [hspawned, hnew, List.cons_append]
  have hjob : (runJob capture lastExit (.simple argv redirects)).exec s =
      (.ok (jobStatus [result]), t₁) := by
    rw [exec_runJob hne hprepare hexists, exec_bind_of_ok hlaunch, exec_pure]
  have hcommand : (runCommand capture lastExit (.simple argv redirects)).exec s =
      (conclude result).exec t₁ := by
    rw [runCommand_simple hne, runSimple_eq, exec_bind_of_ok hprepare, startPrepared, hbuiltin]
    simp only [hexists, if_true]
    rw [exec_bind_of_ok hlaunch]
  cases result with
  | ok exit =>
    constructor
    · have happlied : ((conclude (.ok exit)).exec t₁).2.world.record =
          .applied exit.effects :: .spawned ctx shared :: new ++ s.world.record :=
        congrArg (List.cons _) hrecord
      rw [started_subshell, started, started, hjob, hcommand, recordedSince_append hrecord,
        recordedSince_append happlied]
      rfl
    · rw [settled_subshell, settled, settled, hjob, hcommand]
      rfl
  | error error =>
    constructor
    · rw [started_subshell, started, started, hjob, hcommand]
      rfl
    · rw [settled_subshell, settled, settled, hjob, hcommand]
      rfl

lemma runsWhole_simple (hne : argv ≠ []) (h : Pervades Calm capture lastExit)
    (hbuiltin : ∀ argv' streams t, (prepare capture lastExit argv redirects).exec s =
      (.ok (argv', streams), t) → JobBuiltin.ofName (argv'.headD []) = none) :
    RunsWhole capture lastExit (.simple argv redirects) s := by
  have hargv := h.expandArgv argv s
  have hcalm := h.prepare argv redirects s
  have hspawn : spawnBackground capture lastExit (.simple argv redirects) = _ :=
    spawnBackground_simple hne
  have hcommand : runCommand capture lastExit (.simple argv redirects) = _ :=
    (runCommand_simple hne).trans runSimple_eq
  have hrun_of_error {e : ExecError} {t : ShellState sys}
      (hprepare : (prepare capture lastExit argv redirects).exec s = (.error e, t)) :
      (runCommand capture lastExit (.simple argv redirects)).exec s = (.error e, t) := by
    rw [hcommand, exec_bind_of_error hprepare]
  rcases hexpand : (expandArgv capture lastExit argv).exec s with ⟨words, t₁⟩
  rw [hexpand] at hargv
  cases words with
  | error e =>
    have hprepare : (prepare capture lastExit argv redirects).exec s = (.error e, t₁) :=
      exec_bind_of_error hexpand
    have hjob : (spawnBackground capture lastExit (.simple argv redirects)).exec s =
        (.error e, t₁) := by
      rw [hspawn, exec_bind_of_error hexpand]
    have hrun := hrun_of_error hprepare
    exact runsWhole_of_errors (exec_bind_of_error hjob) hrun hargv hargv
  | ok argv' =>
    rcases hopen : (openStreams capture lastExit redirects).exec t₁ with ⟨streams, t₂⟩
    have hprepare : (prepare capture lastExit argv redirects).exec s =
        (streams.map fun streams => (argv', streams), t₂) := by
      rw [prepare, exec_bind_of_ok hexpand, exec_bind, hopen]
      cases streams <;> rfl
    rw [hprepare] at hcalm
    by_cases hexists : sys.commandExists (argv'.headD []) = true
    · cases streams with
      | error e =>
        have hjob : (spawnBackground capture lastExit (.simple argv redirects)).exec s =
            (.error e, t₂) := by
          rw [hspawn, exec_bind_of_ok hexpand, if_pos hexists, exec_bind_of_error hopen]
        have hrun := hrun_of_error hprepare
        exact runsWhole_of_errors (exec_bind_of_error hjob) hrun hcalm hcalm
      | ok streams =>
        exact runsWhole_of_start hne hprepare (hbuiltin _ _ _ hprepare) hexists hcalm
    -- the redirects are applied before the command is looked up, or not at all
    · have hjob : (spawnBackground capture lastExit (.simple argv redirects)).exec s =
          (.error (.commandNotFound (argv'.headD [])), t₁) := by
        rw [hspawn, exec_bind_of_ok hexpand, if_neg hexists, exec_throw]
      cases streams with
      | error e =>
        have hrun := hrun_of_error hprepare
        exact runsWhole_of_errors (exec_bind_of_error hjob) hrun hargv hcalm
      | ok streams =>
        have hstart : (startPrepared argv' streams).exec t₂ =
            (.error (.commandNotFound (argv'.headD [])), t₂) := by
          rw [startPrepared, hbuiltin _ _ _ hprepare]
          simp only [hexists]
          rfl
        have hrun : (runCommand capture lastExit (.simple argv redirects)).exec s =
            (.error (.commandNotFound (argv'.headD [])), t₂) := by
          rw [hcommand, exec_bind_of_ok hprepare, hstart]
        exact runsWhole_of_errors (exec_bind_of_error hjob) hrun hargv hcalm

/-- A builtin is a command of the shell only. -/
lemma ofName_of_runsWhole {argv' : List Text} {streams : Streams sys} (hne : argv ≠ [])
    (hcalm : Pervades Calm capture lastExit)
    (h : RunsWhole capture lastExit (.simple argv redirects) s)
    (hprepare : (prepare capture lastExit argv redirects).exec s = (.ok (argv', streams), t)) :
    JobBuiltin.ofName (argv'.headD []) = none := by
  obtain ⟨new, hnew, hstart⟩ := hcalm.prepare argv redirects s
  rw [hprepare] at hnew
  cases hname : JobBuiltin.ofName (argv'.headD []) with
  | none => rfl
  | some builtin =>
    exfalso
    have hrun : (runCommand capture lastExit (.simple argv redirects)).exec s =
        (Step.onJobs (sys.builtin builtin argv' streams.stdout streams.stderr)).exec t := by
      rw [runCommand_simple hne, runSimple_eq, exec_bind_of_ok hprepare, startPrepared, hname]
    have hused : ((Step.onJobs (sys.builtin builtin argv' streams.stdout streams.stderr)).exec
        t).2.world.record = .usedJobs :: new ++ s.world.record := congrArg (List.cons _) hnew
    by_cases hexists : sys.commandExists (argv'.headD []) = true
    · obtain ⟨result, t₁, ctx, shared, hlaunch, hspawned⟩ := exec_launch (t := t) argv' streams
      have hrecord : t₁.world.record = .spawned ctx shared :: new ++ s.world.record := by
        rw [hspawned, hnew, List.cons_append]
      have hstarted := h.started
      rw [started_subshell, started, started, hrun, recordedSince_append hused,
        exec_runJob hne hprepare hexists, exec_bind_of_ok hlaunch, exec_pure,
        recordedSince_append hrecord] at hstarted
      cases hstarted
    · obtain ⟨t₁, hexpand, -⟩ := exists_of_prepare hprepare
      have hjob : (spawnBackground capture lastExit (.simple argv redirects)).exec s =
          (.error (.commandNotFound (argv'.headD [])), t₁) := by
        rw [spawnBackground_simple hne, exec_bind_of_ok hexpand, if_neg hexists, exec_throw]
      have hsettled := h.settled
      rw [settled_subshell, settled, settled, hrun, runJob, exec_bind_of_error hjob] at hsettled
      cases hsettled

end

end AmlaSandbox.Shell
