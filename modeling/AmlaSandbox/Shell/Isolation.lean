import AmlaSandbox.Shell.Nesting

/-!
# Subshells

A subshell runs in the shell itself, which then restores its directory and its environment. Nothing
restores the pipefail option, so it stays what the last command to set it made it.
-/

namespace AmlaSandbox.Shell

open Text Library Computation

/-! ### What is restored -/

/-- Directory, environment and options are what they were. -/
def Isolated {sys : System} (before after : ShellState sys) : Prop :=
  after.cwd = before.cwd ∧ after.env = before.env ∧ after.world.pipefail = before.world.pipefail

/-- The option, if an effect has set it; the record is newest first. -/
def lastPipefail {sys : System} : List (Consulted sys) → Option Bool
  | [] => none
  | .applied effects :: earlier => effects.pipefail <|> lastPipefail earlier
  | _ :: earlier => lastPipefail earlier

/-- What was recorded since. -/
def recordedSince {sys : System} (before after : Rest sys) : List (Consulted sys) :=
  after.record.take (after.record.length - before.record.length)

/-- A shell that comes from another one: its option follows from the effects in between. -/
def Tracks {sys : System} (start : Rest sys) (s : ShellState sys) : Prop :=
  ∃ new, s.world.record = new ++ start.record ∧
    s.world.pipefail = (lastPipefail new).getD start.pipefail

section

variable {sys : System} {start : Rest sys} {s : ShellState sys}

lemma Tracks.recordedSince (h : Tracks start s) :
    s.world.pipefail = (lastPipefail (Shell.recordedSince start s.world)).getD start.pipefail := by
  obtain ⟨new, hrecord, hpipefail⟩ := h
  have hnew : Shell.recordedSince start s.world = new := by
    rw [Shell.recordedSince, hrecord, List.length_append, Nat.add_sub_cancel,
      List.take_left']
    rfl
  rw [hnew]
  exact hpipefail

/-- A step that leaves the option alone. -/
lemma Tracks.note (h : Tracks start s) {s' : ShellState sys} {e : Consulted sys}
    (hrecord : s'.world.record = e :: s.world.record)
    (he : ∀ new, lastPipefail (e :: new) = lastPipefail new)
    (hpipefail : s'.world.pipefail = s.world.pipefail) : Tracks start s' := by
  obtain ⟨new, hnew, hp⟩ := h
  refine ⟨e :: new, by rw [hrecord, hnew, List.cons_append], ?_⟩
  rw [he, hpipefail, hp]

/-- The effects of a command. -/
lemma Tracks.applied (h : Tracks start s) {s' : ShellState sys} {effects : Scheduling.SideEffects}
    (hrecord : s'.world.record = .applied effects :: s.world.record)
    (hpipefail : s'.world.pipefail = effects.pipefail.getD s.world.pipefail) :
    Tracks start s' := by
  obtain ⟨new, hnew, hp⟩ := h
  refine ⟨.applied effects :: new, by rw [hrecord, hnew, List.cons_append], ?_⟩
  rw [hpipefail, hp, lastPipefail]
  cases effects.pipefail <;> rfl

lemma simulates_tracks (start : Rest sys) (lastExit : ℤ) :
    Simulates (fun _ => True) captureOutput captureOutput lastExit lastExit
      (Diagonal (Tracks start)) fun _ => True where
  cwd h := congrArg (fun s : ShellState sys => s.cwd) h.1
  stdin h := congrArg (fun s : ShellState sys => s.world.stdin) h.1
  stdout h := congrArg (fun s : ShellState sys => s.world.stdout) h.1
  stderr h := congrArg (fun s : ShellState sys => s.world.stderr) h.1
  shared h := congrArg (fun s : ShellState sys => s.world.shared) h.1
  restored := by
    rintro s _ t _ ⟨rfl, -⟩ ⟨rfl, h⟩
    exact ⟨rfl, h⟩
  quiet_restored := id
  capture cmd _ := by
    rw [captureOutput_eq]
    exact keeps_iff.mpr fun s h => h
  expandText _ := keeps_iff.mpr fun s h => h.note rfl (fun _ => rfl) rfl
  onShared _ := keeps_iff.mpr fun s h => h
  onJobs _ := keeps_iff.mpr fun s h => h.note rfl (fun _ => rfl) rfl
  spawnTask _ _ := keeps_iff.mpr fun s h => h.note rfl (fun _ => rfl) rfl
  applyEffects effects := keeps_iff.mpr fun s h => h.applied rfl rfl
  concludePipeline _ := keeps_iff.mpr fun s h => h.note rfl (fun _ => rfl) rfl

lemma nests_true (command : Command) : command.Nests fun _ => True :=
  fun _ _ _ _ _ _ => trivial

/-- Every command leads to a shell that is tracked. -/
lemma executeCommand_tracks (command : Command) (session : ShellSession sys) :
    Tracks session.world
      (executeCommand (interpreter sys) command session).session.toContext := by
  have hkeeps := (simulates_tracks session.world session.lastExit).executeCommand
    (nests_true command)
  exact keeps_iff.mp hkeeps session.toContext ⟨[], rfl, rfl⟩

/-- The directory and the environment are restored, on each path. -/
lemma subshell_context (command : Command) (session : ShellSession sys) :
    let run := executeCommand (interpreter sys) (.subshell command) session
    run.session.cwd = session.cwd ∧ run.session.env = session.env := by
  rw [executeCommand_subshell]
  exact ⟨rfl, rfl⟩

end

/-- A subshell is isolated if, and only if, no command in it sets the pipefail option, or the last
one that does sets it to what it was. -/
theorem subshell_isolated_iff (sys : System) (command : Command) (session : ShellSession sys) :
    let run := executeCommand (interpreter sys) (.subshell command) session
    Isolated session.toContext run.session.toContext ↔
      ∀ enabled ∈ lastPipefail (recordedSince session.world run.session.world),
        enabled = session.world.pipefail := by
  intro run
  have hpipefail : run.session.world.pipefail =
      (lastPipefail (recordedSince session.world run.session.world)).getD
        session.world.pipefail :=
    (executeCommand_tracks (.subshell command) session).recordedSince
  obtain ⟨hcwd, henv⟩ := subshell_context command session
  constructor
  · rintro ⟨-, -, hsame⟩ enabled henabled
    rw [hpipefail, henabled] at hsame
    exact hsame
  · intro h
    refine ⟨hcwd, henv, ?_⟩
    rw [hpipefail]
    cases hlast : lastPipefail (recordedSince session.world run.session.world) with
    | none => rfl
    | some enabled => exact h enabled hlast

/-- A system in which every command exists, and `set -o pipefail` sets the option. -/
def optionSystem : System where
  Io := Unit
  Tools := Unit
  Jobs := Unit
  Task := List Text
  World := Unit
  commandExists _ := true
  spawn ctx world := (ctx.argv, world)
  awaitTask argv world :=
    let pipefail :=
      if argv = ["set".toList, "-o".toList, "pipefail".toList] then some true else none
    (.ok { code := 0, effects := { pipefail } }, world)
  newPipe world := ((), world)
  closePipe _ world := world
  newBuffer world := ((), world)
  takeBuffer _ world := ([], world)
  fromUtf8Lossy _ := []
  openFile _ _ world := (.ok (), world)
  fromString _ world := ((), world)
  expandGlob _ _ pattern := [pattern]
  newJobs := ()
  addJob _ _ _ := (1, ())
  println _ world := world
  builtin _ _ _ _ _ world := (0, (), world)

/-- A shell of the system in which no option is set. -/
def optionShell : ShellSession optionSystem where
  cwd := "/".toList
  env := ∅
  world :=
    { pipefail := false, toolCatalog := none, jobs := (), stdin := (), stdout := (), stderr := ()
      shared := () }
  lastExit := 0

def quotedWord (text : Text) : Word := { segments := [.singleQuoted text] }

/-- `('set' '-o' 'pipefail')` -/
theorem not_isolated_setPipefail : ¬ Isolated optionShell.toContext
    (executeCommand (interpreter optionSystem)
      (.subshell (.simple (["set".toList, "-o".toList, "pipefail".toList].map quotedWord) []))
      optionShell).session.toContext := by
  rw [executeCommand_subshell, inSubshell, executeCommand_simple]
  rintro ⟨-, -, hpipefail⟩
  exact absurd hpipefail (by decide)

end AmlaSandbox.Shell
