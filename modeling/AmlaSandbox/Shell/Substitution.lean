import AmlaSandbox.Shell.Isolation

/-!
# Command substitution

A substitution runs its command in a new shell, which is given the directory, the environment and
the streams, but neither the exit status, the options, the tools nor the jobs. It does what the
command does in the shell itself as long as none of these is consulted to a different end.
-/

namespace AmlaSandbox.Shell

open Text Library Computation

section

variable {sys : System}

/-! ### The command in the shell itself -/

/-- The shell with its output redirected to a new buffer. -/
def redirected (session : ShellSession sys) : sys.Io × ShellSession sys :=
  let (buffer, shared) := sys.newBuffer session.world.shared
  (buffer, { session with world := { session.world with stdout := buffer, shared } })

/-- `(c)`, with its output redirected to a buffer. -/
def runRedirected (command : Command) (session : ShellSession sys) : Run Environment (Rest sys) :=
  executeCommand (interpreter sys) (.subshell command) (redirected session).2

/-- What a substitution should come to: the effects of `(c)`, its error or the content of the
buffer, and nothing else. -/
def Substitutes (text : Text) (command : Command) (session : ShellSession sys) : Prop :=
  let (output, shared) := outputOf (redirected session).1 (runRedirected command session)
  (captureOutput text).exec session.toContext =
    (output, { session.toContext with world := { session.world with shared } })

/-! ### What makes no difference -/

/-- Nothing of this depends on what a substitution is not given; the record is newest first. -/
def Harmless (start : Rest sys) (lastExit : ℤ) : List (Consulted sys) → Prop
  | [] => True
  | .expanded env text :: earlier =>
    env.expand lastExit text = env.expand 0 text ∧ Harmless start lastExit earlier
  | .spawned ctx world :: earlier =>
    sys.spawn ctx world = sys.spawn { ctx with toolCatalog := none } world ∧
      Harmless start lastExit earlier
  | .pipelined exits :: earlier =>
    pipelineStatus ((lastPipefail earlier).getD start.pipefail) exits =
        pipelineStatus ((lastPipefail earlier).getD false) exits ∧
      Harmless start lastExit earlier
  | .usedJobs :: earlier => start.jobs = sys.newJobs ∧ Harmless start lastExit earlier
  | .applied _ :: earlier => Harmless start lastExit earlier

instance instDecidableHarmless [DecidableEq sys.Task] [DecidableEq sys.World]
    [DecidableEq sys.Jobs] (start : Rest sys) (lastExit : ℤ) :
    (record : List (Consulted sys)) → Decidable (Harmless start lastExit record)
  | [] => inferInstanceAs (Decidable True)
  | .expanded _ _ :: earlier | .spawned _ _ :: earlier | .pipelined _ :: earlier
  | .usedJobs :: earlier =>
    have := instDecidableHarmless start lastExit earlier
    inferInstanceAs (Decidable (_ ∧ _))
  | .applied _ :: earlier => instDecidableHarmless start lastExit earlier

lemma Harmless.tail {start : Rest sys} {lastExit : ℤ} {e : Consulted sys}
    {earlier : List (Consulted sys)} (h : Harmless start lastExit (e :: earlier)) :
    Harmless start lastExit earlier := by
  cases e with
  | applied => exact h
  | expanded | spawned | pipelined | usedJobs => exact h.2

/-- Nothing that was recorded since the start makes a difference. -/
def Quiet (start : Rest sys) (lastExit : ℤ) (s : ShellState sys) : Prop :=
  Harmless start lastExit (recordedSince start s.world)

variable {start : Rest sys} {lastExit : ℤ} {s s' t t' : ShellState sys}

lemma recordedSince_of_le {e : Consulted sys} (hrecord : t.world.record = e :: s.world.record)
    (hle : start.record.length ≤ s.world.record.length) :
    recordedSince start t.world = e :: recordedSince start s.world := by
  unfold recordedSince
  rw [hrecord, List.length_cons, Nat.succ_sub hle, List.take_succ_cons]

/-- What is quiet now was quiet before. -/
lemma Quiet.before {e : Consulted sys} (hrecord : t.world.record = e :: s.world.record)
    (h : Quiet start lastExit t) : Quiet start lastExit s := by
  by_cases hle : start.record.length ≤ s.world.record.length
  · rw [Quiet, recordedSince_of_le hrecord hle] at h
    exact h.tail
  · rw [Quiet, recordedSince, Nat.sub_eq_zero_of_le (by omega), List.take_zero]
    trivial

/-! ### Two shells -/

/-- A shell that comes from `start`, and one that was created for a substitution. -/
structure Alike (start : Rest sys) (s s' : ShellState sys) : Prop where
  cwd : s.cwd = s'.cwd
  env : s.env = s'.env
  stdin : s.world.stdin = s'.world.stdin
  stdout : s.world.stdout = s'.world.stdout
  stderr : s.world.stderr = s'.world.stderr
  shared : s.world.shared = s'.world.shared
  noTools : s'.world.toolCatalog = none
  jobs : start.jobs = sys.newJobs → s.world.jobs = s'.world.jobs
  tracks : Tracks start s
  pipefail : s'.world.pipefail = (lastPipefail (recordedSince start s.world)).getD false

lemma Tracks.le (h : Tracks start s) : start.record.length ≤ s.world.record.length := by
  obtain ⟨new, hrecord, -⟩ := h
  rw [hrecord, List.length_append]
  exact Nat.le_add_left ..

namespace Alike

/-- A step of both that is recorded, and that leaves the option alone. -/
lemma note (h : Alike start s s') {e : Consulted sys}
    (hrecord : t.world.record = e :: s.world.record)
    (he : ∀ new, lastPipefail (e :: new) = lastPipefail new)
    (hpipefail : s'.world.pipefail = t'.world.pipefail) :
    t'.world.pipefail = (lastPipefail (recordedSince start t.world)).getD false := by
  rw [recordedSince_of_le hrecord h.tracks.le, he, ← hpipefail, h.pipefail]

lemma harmless (h : Alike start s s') {e : Consulted sys}
    (hrecord : t.world.record = e :: s.world.record) (hquiet : Quiet start lastExit t) :
    Harmless start lastExit (e :: recordedSince start s.world) := by
  rwa [Quiet, recordedSince_of_le hrecord h.tracks.le] at hquiet

end Alike

/-- What a new shell is given is the same. -/
lemma captureShell_congr (h : Alike start s s') (buffer : sys.Io) (shared : sys.World) :
    captureShell s buffer shared = captureShell s' buffer shared := by
  unfold captureShell
  rw [h.cwd, h.env, h.stdin, h.stderr]

lemma captureWith_alike (h : Alike start s s') (interpreter : Interpreter Environment (Rest sys))
    (command : Text) : captureWith interpreter command s = captureWith interpreter command s' := by
  unfold captureWith
  simp only [h.shared, captureShell_congr h]

lemma simulates_alike (start : Rest sys) (lastExit : ℤ) :
    Simulates (fun _ => True) captureOutput captureOutput lastExit 0 (Alike start)
      (Quiet start lastExit) where
  cwd := Alike.cwd
  stdin := Alike.stdin
  stdout := Alike.stdout
  stderr := Alike.stderr
  shared := Alike.shared
  restored hs ht := { ht with cwd := hs.cwd, env := hs.env }
  quiet_restored h := h
  capture cmd _ := by
    rw [captureOutput_eq]
    refine lockstep_ofFun (fun s h => h) fun s s' hs _ => ?_
    rw [captureWith_alike hs]
    exact ⟨rfl, { hs with shared := rfl }⟩
  expandText text := by
    refine lockstep_ofFun (fun s h => h.before rfl) fun s s' hs hquiet => ?_
    have hexpand :=
      (hs.harmless (e := .expanded s.env (s.env.expandTilde text)) rfl hquiet).1
    refine ⟨?_, { hs with
      tracks := hs.tracks.note rfl (fun _ => rfl) rfl
      pipefail := hs.note rfl (fun _ => rfl) rfl }⟩
    rw [hs.env] at hexpand
    simp only [hs.env, hexpand]
  onShared f := by
    refine lockstep_ofFun (fun s h => h) fun s s' hs _ => ?_
    rw [hs.shared]
    exact ⟨rfl, { hs with shared := rfl }⟩
  onJobs f := by
    refine lockstep_ofFun (fun s h => h.before rfl) fun s s' hs hquiet => ?_
    have hjobs := hs.jobs (hs.harmless (e := .usedJobs) rfl hquiet).1
    rw [hjobs, hs.shared]
    exact ⟨rfl, { hs with
      jobs := fun _ => rfl
      shared := rfl
      tracks := hs.tracks.note rfl (fun _ => rfl) rfl
      pipefail := hs.note rfl (fun _ => rfl) rfl }⟩
  spawnTask argv streams := by
    refine lockstep_ofFun (fun s h => h.before rfl) fun s s' hs hquiet => ?_
    let ctx (s : ShellState sys) : CmdContext sys.Io sys.Tools :=
      { argv, stdin := streams.stdin, stdout := streams.stdout, stderr := streams.stderr
        cwd := s.cwd, env := s.env, toolCatalog := s.world.toolCatalog }
    have hspawn := (hs.harmless (e := .spawned (ctx s) s.world.shared) rfl hquiet).1
    have hctx : sys.spawn (ctx s) s.world.shared = sys.spawn (ctx s') s'.world.shared := by
      rw [hspawn]
      simp only [ctx, hs.noTools, hs.cwd, hs.env, hs.shared]
    refine ⟨congrArg (fun r => Except.ok r.1) hctx, { hs with
      shared := congrArg Prod.snd hctx
      tracks := hs.tracks.note rfl (fun _ => rfl) rfl
      pipefail := hs.note rfl (fun _ => rfl) rfl }⟩
  applyEffects effects := by
    refine lockstep_ofFun (fun s h => h.before rfl) fun s s' hs hquiet => ?_
    refine ⟨rfl, { hs with
      cwd := congrArg ((effects.cwd.map String.toList).getD ·) hs.cwd
      env := by simp only [hs.env]
      tracks := hs.tracks.applied rfl rfl
      pipefail := ?_ }⟩
    rw [recordedSince_of_le (e := .applied effects) rfl hs.tracks.le, lastPipefail]
    dsimp only
    rw [hs.pipefail]
    cases effects.pipefail <;> rfl
  concludePipeline exits := by
    refine lockstep_ofFun (fun s h => h.before rfl) fun s s' hs hquiet => ?_
    have hstatus := (hs.harmless (e := .pipelined exits) rfl hquiet).1
    rw [← hs.tracks.recordedSince, ← hs.pipefail] at hstatus
    exact ⟨congrArg Except.ok hstatus, { hs with
      tracks := hs.tracks.note rfl (fun _ => rfl) rfl
      pipefail := hs.note rfl (fun _ => rfl) rfl }⟩

/-! ### The substitution in the shell -/

/-- The new shell starts where the redirected shell does. -/
lemma alike_start (session : ShellSession sys) :
    Alike (redirected session).2.world (redirected session).2.toContext
      (captureShell session.toContext (redirected session).1
        (redirected session).2.world.shared).toContext where
  cwd := rfl
  env := rfl
  stdin := rfl
  stdout := rfl
  stderr := rfl
  shared := rfl
  noTools := rfl
  jobs h := h
  tracks := ⟨[], rfl, rfl⟩
  pipefail := by rw [recordedSince, Nat.sub_self, List.take_zero]; rfl

/-- A command that is run in the shell and in a new one. -/
theorem outputOf_eq (command : Command) (session : ShellSession sys)
    (h : Harmless (redirected session).2.world session.lastExit
      (recordedSince (redirected session).2.world (runRedirected command session).session.world)) :
    outputOf (redirected session).1 (runRedirected command session) =
      outputOf (redirected session).1 (executeCommand (interpreter sys) command
        (captureShell session.toContext (redirected session).1
          (redirected session).2.world.shared)) := by
  have hstep := (simulates_alike (redirected session).2.world session.lastExit).executeCommand
    (nests_true (.subshell command))
  obtain ⟨hresult, hstate⟩ := hstep.agrees _ _ (alike_start session) h
  have houtcome : (runRedirected command session).outcome =
      (executeCommand (interpreter sys) (.subshell command) (captureShell session.toContext
        (redirected session).1 (redirected session).2.world.shared)).outcome := hresult
  have hshared : (runRedirected command session).session.world.shared =
      (executeCommand (interpreter sys) (.subshell command) (captureShell session.toContext
        (redirected session).1 (redirected session).2.world.shared)).session.world.shared :=
    hstate.shared
  rw [executeCommand_subshell] at houtcome hshared
  simp only [outputOf, houtcome, hshared, inSubshell]

/-- A substitution comes to what its command comes to in the shell, if nothing that the command
consults depends on the exit status, the options, the tools or the jobs of the shell. -/
theorem captureOutput_substitutes {text : Text} {command : Command} {lexer : Lexer}
    (hparse : parse text = some (.ok (command, lexer))) (session : ShellSession sys)
    (h : Harmless (redirected session).2.world session.lastExit
      (recordedSince (redirected session).2.world (runRedirected command session).session.world)) :
    Substitutes text command session := by
  have hcapture : (captureWith (interpreter sys) text session.toContext) =
      outputOf (redirected session).1 (runRedirected command session) := by
    rw [outputOf_eq command session h, captureWith, hparse]
    rfl
  rw [Substitutes, captureOutput_eq, exec_ofFun, hcapture]

end

/-! ### A shell with `echo` -/

/-- A system with the command `echo` and any number of buffers. -/
def echoSystem : System where
  Io := Option ℕ
  Tools := Unit
  Jobs := Unit
  Task := Option ℕ × List UInt8
  World := List (List UInt8)
  commandExists name := name = "echo".toList
  spawn ctx world :=
    ((ctx.stdout, ([' '].intercalate ctx.argv.tail ++ ['\n']).map Char.toUInt8), world)
  awaitTask task world :=
    (.ok { code := 0 },
      match task.1 with
      | some buffer => world.modify buffer (· ++ task.2)
      | none => world)
  newPipe world := (none, world)
  closePipe _ world := world
  newBuffer world := (some world.length, world ++ [[]])
  takeBuffer io world :=
    match io with
    | some buffer => (world.getD buffer [], world.set buffer [])
    | none => ([], world)
  fromUtf8Lossy bytes := bytes.map fun b => Char.ofNat b.toNat
  openFile _ _ world := (.ok none, world)
  fromString _ world := (none, world)
  expandGlob _ _ pattern := [pattern]
  newJobs := ()
  addJob _ _ _ := (1, ())
  println _ world := world
  builtin _ _ _ _ _ world := (0, (), world)

/-- A shell after a command that ended with a status. -/
def echoShell (lastExit : ℤ) : ShellSession echoSystem where
  cwd := "/".toList
  env := ∅
  world :=
    { pipefail := false, toolCatalog := none, jobs := (), stdin := none, stdout := none
      stderr := none, shared := [] }
  lastExit

/-- What the command that is parsed from a text has. -/
def parsedAs (text : Text) (p : Command → Bool) : Bool :=
  match parse text with
  | some (.ok (command, _)) => p command
  | _ => false

lemma exists_of_parsedAs {text : Text} {p : Command → Bool} (h : parsedAs text p = true) :
    ∃ command lexer, parse text = some (.ok (command, lexer)) ∧ p command = true := by
  unfold parsedAs at h
  split at h
  · rename_i command lexer hparse
    exact ⟨command, lexer, hparse, h⟩
  · cases h

instance instDecidableEqEchoTask : DecidableEq echoSystem.Task :=
  inferInstanceAs (DecidableEq (Option ℕ × List UInt8))

instance instDecidableEqEchoWorld : DecidableEq echoSystem.World :=
  inferInstanceAs (DecidableEq (List (List UInt8)))

instance instDecidableEqEchoJobs : DecidableEq echoSystem.Jobs := inferInstanceAs (DecidableEq Unit)

/-- A list with a pipeline. -/
theorem captureOutput_substitutes_list :
    ((captureOutput "echo a && echo b | echo c".toList).exec (echoShell 3).toContext).1.toOption =
        some "a\nc".toList ∧
      ∃ command lexer, parse "echo a && echo b | echo c".toList = some (.ok (command, lexer)) ∧
        Substitutes "echo a && echo b | echo c".toList command (echoShell 3) := by
  have hharmless : parsedAs "echo a && echo b | echo c".toList (fun command => decide
      (Harmless (redirected (echoShell 3)).2.world 3
        (recordedSince (redirected (echoShell 3)).2.world
          (runRedirected command (echoShell 3)).session.world))) = true := by decide +kernel
  obtain ⟨command, lexer, hparse, h⟩ := exists_of_parsedAs hharmless
  exact ⟨by decide +kernel, command, lexer, hparse,
    captureOutput_substitutes hparse (echoShell 3) (of_decide_eq_true h)⟩

/-- `$(echo $?)` after a command that failed: the new shell has seen no command. -/
theorem not_substitutes_lastExit :
    ∃ command lexer, parse "echo $?".toList = some (.ok (command, lexer)) ∧
      ¬ Substitutes "echo $?".toList command (echoShell 3) := by
  have hshell : parsedAs "echo $?".toList (fun command =>
      (outputOf (redirected (echoShell 3)).1 (runRedirected command (echoShell 3))).1.toOption =
        some "3".toList) = true := by decide +kernel
  have hcapture : ((captureOutput "echo $?".toList).exec (echoShell 3).toContext).1.toOption =
      some "0".toList := by decide +kernel
  obtain ⟨command, lexer, hparse, h⟩ := exists_of_parsedAs hshell
  refine ⟨command, lexer, hparse, fun hsubstitutes => ?_⟩
  have hresult : ((captureOutput "echo $?".toList).exec (echoShell 3).toContext).1 =
      (outputOf (redirected (echoShell 3)).1 (runRedirected command (echoShell 3))).1 :=
    congrArg Prod.fst hsubstitutes
  rw [hresult, of_decide_eq_true h] at hcapture
  exact absurd hcapture (by decide)

end AmlaSandbox.Shell
