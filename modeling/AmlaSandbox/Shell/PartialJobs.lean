import AmlaSandbox.Shell.Background

/-!
# Jobs that are less than their command

The job of a list has the tasks of its first command only, and the status of a pipeline in the
background does not depend on `pipefail`. A system in which every command exists and succeeds, or
every one fails, tells the job of a list from the list.
-/

namespace AmlaSandbox.Shell

open Text Library Library.Computation Scheduling

/-! ### A system with two statuses -/

/-- Every command exists; the next one to end has the first status, and the others have the second
one. -/
def scripted : System where
  Io := Unit
  Tools := Unit
  Jobs := Unit
  Task := Unit
  World := Int32 × Int32
  commandExists _ := true
  spawn _ world := ((), world)
  awaitTask _ world := (.ok { code := world.1 }, world.2, world.2)
  newPipe world := ((), world)
  closePipe _ world := world
  newBuffer world := ((), world)
  takeBuffer _ world := ([], world)
  fromUtf8Lossy _ := []
  openFile _ _ world := (.ok (), world)
  fromString _ world := ((), world)
  expandGlob _ _ pattern := [pattern]
  newJobs := ()
  addJob _ _ _ := (1, ())
  println _ world := world
  builtin _ _ _ _ _ world := (world.1.toInt, (), world.2, world.2)

/-- Substitutions come to nothing. -/
def blank : Text → Step scripted Text := substitute fun _ s => (.ok [], s.world.shared)

def scriptedShell (pipefail : Bool) (script : Int32 × Int32) : ShellState scripted where
  cwd := "/".toList
  env := ∅
  world :=
    { pipefail, toolCatalog := none, jobs := (), stdin := (), stdout := (), stderr := ()
      shared := script }

/-- A shell after a step that has recorded something, and has taken something from the script. -/
def afterStep (new : List (Consulted scripted)) (script : Int32 × Int32) (s : ShellState scripted) :
    ShellState scripted :=
  { s with world := { s.world with record := new ++ s.world.record, shared := script } }

/-- The step comes to something like this after so many starts, and leaves this script. -/
def Leaves {α : Type} (s : ShellState scripted) (m : Step scripted α) (starts : ℕ)
    (script : Int32 × Int32) (post : α → Prop) : Prop :=
  ∃ a new, m.exec s = (.ok a, afterStep new script s) ∧
    new.countP Consulted.isStart = starts ∧ post a

def Fails {α : Type} (s : ShellState scripted) (m : Step scripted α) : Prop :=
  ∃ e t, m.exec s = (.error e, t)

/-- The step only records what it consults. -/
def Sure {α : Type} (m : Step scripted α) : Prop :=
  ∀ s, Leaves s m 0 s.world.shared fun _ => True

section

variable {α β : Type} {m : Step scripted α} {f : α → Step scripted β} {a : α}
  {s : ShellState scripted} {n n' : ℕ} {script script' : Int32 × Int32} {post : α → Prop}
  {post' : β → Prop} {lastExit : ℤ}

lemma afterStep_afterStep {new new' : List (Consulted scripted)} :
    afterStep new' script' (afterStep new script s) = afterStep (new' ++ new) script' s := by
  simp [afterStep]

lemma Leaves.bind (hm : Leaves s m n script post) (hf : ∀ t a, t.world.shared = script →
    t.world.pipefail = s.world.pipefail → post a → Leaves t (f a) n' script' post') :
    Leaves s (m >>= f) (n + n') script' post' := by
  obtain ⟨a, new, hexec, hcount, ha⟩ := hm
  obtain ⟨b, new', hexec', hcount', hb⟩ := hf (afterStep new script s) a rfl rfl ha
  refine ⟨b, new' ++ new, ?_, ?_, hb⟩
  · rw [exec_bind_of_ok hexec, hexec', afterStep_afterStep]
  · rw [List.countP_append, hcount, hcount', Nat.add_comm]

lemma Leaves.next (hm : Leaves s m 0 script post) (hf : ∀ t a, t.world.shared = script →
    t.world.pipefail = s.world.pipefail → post a → Leaves t (f a) n script' post') :
    Leaves s (m >>= f) n script' post' :=
  Nat.zero_add n ▸ hm.bind hf

lemma Leaves.fails (hm : Leaves s m n script post) (hf : ∀ t a, t.world.shared = script →
    t.world.pipefail = s.world.pipefail → post a → Fails t (f a)) : Fails s (m >>= f) := by
  obtain ⟨a, new, hexec, -, ha⟩ := hm
  obtain ⟨e, t, hexec'⟩ := hf (afterStep new script s) a rfl rfl ha
  exact ⟨e, t, by rw [exec_bind_of_ok hexec, hexec']⟩

lemma Fails.bind (hm : Fails s m) : Fails s (m >>= f) := by
  obtain ⟨e, t, hexec⟩ := hm
  exact ⟨e, t, exec_bind_of_error hexec⟩

lemma leaves_of_exec (hs : s.world.shared = script) (h : m.exec s = (.ok a, s)) (ha : post a) :
    Leaves s m 0 script post :=
  hs ▸ ⟨a, [], h, rfl, ha⟩

lemma leaves_pure (hs : s.world.shared = script) (ha : post a) :
    Leaves s (pure a) 0 script post :=
  leaves_of_exec hs rfl ha

lemma Leaves.last (hm : Leaves s m n script post) (hf : ∀ t a, t.world.shared = script →
    t.world.pipefail = s.world.pipefail → post a → Leaves t (f a) 0 script' post') :
    Leaves s (m >>= f) n script' post' :=
  hm.bind hf

lemma Leaves.map {g : α → β} (hm : Leaves s m n script post)
    (hg : ∀ a, post a → post' (g a)) : Leaves s (m >>= fun a => pure (g a)) n script post' :=
  hm.last fun _ a ht _ ha => leaves_pure ht (hg a ha)

lemma leaves_field {f : ShellState scripted → α} (hs : s.world.shared = script) :
    Leaves s (Step.field f) 0 script fun _ => True :=
  leaves_of_exec hs rfl trivial

lemma Sure.bind (hm : Sure m) (hf : ∀ a, Sure (f a)) : Sure (m >>= f) := fun s =>
  (hm s).next fun t a ht _ _ => ht ▸ hf a t

lemma pervades_sure (lastExit : ℤ) : Pervades Sure blank lastExit where
  pure _ _ := leaves_pure rfl trivial
  bind := Sure.bind
  field _ _ := leaves_of_exec rfl rfl trivial
  capture _ _ := leaves_of_exec rfl rfl trivial
  expandText text s := ⟨_, [.expanded s.env (s.env.expandTilde text)], rfl, rfl, trivial⟩
  openFile _ _ _ := leaves_of_exec rfl rfl trivial
  fromString _ _ := leaves_of_exec rfl rfl trivial

/-! ### Tasks that end as they are told -/

variable {k k' : Int32}

lemma leaves_spawnTask (hs : s.world.shared = script) (argv : List Text)
    (streams : Streams scripted) : Leaves s (spawnTask argv streams) 1 script fun _ => True :=
  hs ▸ ⟨(), [.spawned _ _], rfl, rfl, trivial⟩

lemma leaves_awaitTask (hs : s.world.shared = (k, k')) (task : scripted.Task) :
    Leaves s (awaitTask task) 0 (k', k') (· = .ok { code := k }) := by
  have h : Leaves s (awaitTask task) 0 (s.world.shared.2, s.world.shared.2)
      (· = .ok { code := s.world.shared.1 }) := ⟨_, [], rfl, rfl, rfl⟩
  rwa [hs] at h

lemma leaves_awaitTasks_cons {task : scripted.Task} {rest : List scripted.Task}
    {results : List TaskResult} (hs : s.world.shared = (k, k'))
    (hrest : ∀ t, t.world.shared = (k', k') →
      Leaves t (awaitTasks rest) 0 (k', k') (· = results)) :
    Leaves s (awaitTasks (task :: rest)) 0 (k', k') (· = .ok { code := k } :: results) := by
  rw [awaitTasks]
  refine (leaves_awaitTask hs task).next fun t result ht _ hresult => ?_
  exact (hrest t ht).map fun _ hresults => hresult ▸ hresults ▸ rfl

lemma leaves_awaitTasks (hs : s.world.shared = (k, k)) (tasks : List scripted.Task) :
    Leaves s (awaitTasks tasks) 0 (k, k)
      (· = List.replicate tasks.length (.ok { code := k })) := by
  induction tasks generalizing s with
  | nil => exact leaves_pure hs rfl
  | cons task rest ih => exact leaves_awaitTasks_cons hs fun _ => ih

lemma leaves_awaitTasks_of_length {tasks : List scripted.Task} (hs : s.world.shared = (k, k'))
    (hlen : tasks.length = n + 1) : Leaves s (awaitTasks tasks) 0 (k', k')
      (· = .ok { code := k } :: List.replicate n (.ok { code := k' })) := by
  cases tasks with
  | nil => cases hlen
  | cons task rest =>
    obtain rfl := Nat.succ.inj hlen
    exact leaves_awaitTasks_cons hs fun _ ht => leaves_awaitTasks ht rest

lemma leaves_closePipes (hs : s.world.shared = script) (pipes : List scripted.Io) :
    Leaves s (closePipes pipes) 0 script fun _ => True := by
  induction pipes generalizing s with
  | nil => exact leaves_pure hs trivial
  | cons pipe rest ih =>
    rw [closePipes]
    have hfirst : Leaves s (Step.io fun w => ((), scripted.closePipe pipe w)) 0 script
      fun _ => True := leaves_of_exec hs rfl trivial
    exact hfirst.next fun t _ ht _ _ => ih ht

lemma leaves_newPipes (hs : s.world.shared = script) (n : ℕ) :
    Leaves s (newPipes n) 0 script fun _ => True := by
  induction n generalizing s with
  | zero => exact leaves_pure hs trivial
  | succ n ih =>
    rw [newPipes]
    have hfirst : Leaves s (Step.io scripted.newPipe) 0 script fun _ => True :=
      leaves_of_exec hs rfl trivial
    refine hfirst.next fun t _ ht _ _ => ?_
    exact (ih ht).map fun _ _ => trivial

lemma leaves_awaitHandles_cons {task : scripted.Task} {rest : List scripted.Task}
    {pipes : List scripted.Io} {exits : List (Option ℤ)} (hs : s.world.shared = (k, k'))
    (hrest : ∀ t, t.world.shared = (k', k') →
      Leaves t (awaitHandles rest pipes.tail) 0 (k', k') (· = exits)) :
    Leaves s (awaitHandles (task :: rest) pipes) 0 (k', k') (· = some k.toInt :: exits) := by
  rw [awaitHandles]
  refine (leaves_awaitTask hs task).next fun t result ht _ hresult => ?_
  refine (leaves_closePipes ht _).next fun t' _ ht' _ _ => ?_
  exact (hrest t' ht').map fun _ hexits => hresult ▸ hexits ▸ rfl

lemma leaves_awaitHandles (hs : s.world.shared = (k, k)) (tasks : List scripted.Task)
    (pipes : List scripted.Io) : Leaves s (awaitHandles tasks pipes) 0 (k, k)
      (· = List.replicate tasks.length (some k.toInt)) := by
  induction tasks generalizing s pipes with
  | nil => exact leaves_pure hs rfl
  | cons task rest ih => exact leaves_awaitHandles_cons hs fun _ ht => ih ht _

lemma leaves_awaitHandles_of_length {tasks : List scripted.Task} (hs : s.world.shared = (k, k'))
    (hlen : tasks.length = n + 1) (pipes : List scripted.Io) :
    Leaves s (awaitHandles tasks pipes) 0 (k', k')
      (· = some k.toInt :: List.replicate n (some k'.toInt)) := by
  cases tasks with
  | nil => cases hlen
  | cons task rest =>
    obtain rfl := Nat.succ.inj hlen
    exact leaves_awaitHandles_cons hs fun _ ht => leaves_awaitHandles ht rest _

/-! ### Jobs -/

def Command.isSimple : Command → Bool
  | .simple _ _ => true
  | _ => false

/-- The tasks of the job of a command. -/
def Command.taskCount : Command → ℕ
  | .simple _ _ => 1
  | .pipeline commands => commands.countP Command.isSimple
  | .sequence (first :: _) => first.taskCount
  | .and left _ | .or left _ => left.taskCount
  | .background command | .subshell command => command.taskCount
  | .sequence [] | .empty => 0

variable {argv : List Word} {redirects : List Redirect} {commands : List Command}
  {command : Command}

/-- The task of a stage. -/
def spawnStage (lastExit : ℤ) (argv : List Word) (redirects : List Redirect) (stdin : scripted.Io)
    (pipes : List scripted.Io) : Step scripted scripted.Task := do
  let streams ← shellStreams
  let argv ← expandArgv blank lastExit argv
  let streams ← applyRedirects blank lastExit
    { streams with stdin, stdout := pipes.headD streams.stdout } redirects
  spawnTask argv streams

lemma spawnCommands_simple {onNested : Option ExecError} {rest : List Command}
    (stdin : scripted.Io) (pipes : List scripted.Io) :
    spawnCommands blank lastExit onNested (.simple argv redirects :: rest) stdin pipes =
      spawnStage lastExit argv redirects stdin pipes >>= fun task =>
        spawnCommands blank lastExit onNested rest (pipes.headD stdin) pipes.tail >>= fun tasks =>
          pure (task :: tasks) := by
  simp only [spawnCommands, spawnStage, bind_assoc]

lemma leaves_spawnStage (hs : s.world.shared = script) (argv : List Word)
    (redirects : List Redirect) (stdin : scripted.Io) (pipes : List scripted.Io) :
    Leaves s (spawnStage lastExit argv redirects stdin pipes) 1 script
      fun _ => True := by
  rw [spawnStage]
  refine Leaves.next (leaves_field hs) fun t streams ht _ _ => ?_
  have hargv := (pervades_sure lastExit).expandArgv argv t
  rw [ht] at hargv
  refine hargv.next fun t argv ht _ _ => ?_
  have hredirects := (pervades_sure lastExit).applyRedirects
    { streams with stdin, stdout := pipes.headD streams.stdout } redirects t
  rw [ht] at hredirects
  exact hredirects.next fun t streams ht _ _ => leaves_spawnTask ht argv streams

/-- The stages that are not simple are left out, unless there is an error. -/
lemma leaves_spawnCommands {onNested : Option ExecError} (hs : s.world.shared = script)
    (h : onNested = none ∨ ∀ c ∈ commands, c.isSimple = true) (stdin : scripted.Io)
    (pipes : List scripted.Io) :
    Leaves s (spawnCommands blank lastExit onNested commands stdin pipes)
      (commands.countP Command.isSimple) script
      (·.length = commands.countP Command.isSimple) := by
  induction commands generalizing s stdin pipes with
  | nil => exact leaves_pure hs rfl
  | cons command rest ih =>
    have hrest := h.imp_right fun h => (List.forall_mem_cons.mp h).2
    cases command with
    | simple argv redirects =>
      rw [List.countP_cons_of_pos rfl, spawnCommands_simple, Nat.add_comm]
      refine (leaves_spawnStage hs argv redirects stdin pipes).bind fun t task ht _ _ => ?_
      refine (ih ht hrest _ _).map fun tasks htasks => ?_
      rw [List.length_cons, htasks, Nat.add_comm]
    | pipeline _ | and _ _ | or _ _ | sequence _ | background _ | subshell _ | empty =>
      rcases h with rfl | h
      · exact ih hs hrest _ _
      · exact absurd (List.forall_mem_cons.mp h).1 Bool.false_ne_true

lemma fails_spawnCommands {e : ExecError} (h : ∃ c ∈ commands, c.isSimple = false)
    (stdin : scripted.Io) (pipes : List scripted.Io) :
    Fails s (spawnCommands blank lastExit (some e) commands stdin pipes) := by
  induction commands generalizing s stdin pipes with
  | nil => exact absurd h (by simp)
  | cons command rest ih =>
    cases command with
    | simple argv redirects =>
      have hrest : ∃ c ∈ rest, c.isSimple = false := by simpa [Command.isSimple] using h
      rw [spawnCommands_simple]
      exact (leaves_spawnStage rfl argv redirects stdin pipes).fails fun t _ _ _ _ =>
        (ih hrest _ _).bind
    | pipeline _ | and _ _ | or _ _ | sequence _ | background _ | subshell _ | empty =>
      exact ⟨e, s, rfl⟩

/-! ### Both ways -/

/-- The loop over the handles of a pipeline. -/
def noteExits (pipefail : Bool) (noted : Option ℤ × ℤ) (exits : List (Option ℤ)) :
    Option ℤ × ℤ :=
  exits.foldl (fun noted exit => Pipelines.noteExit pipefail exit noted.1) noted

lemma pipelineStatus_eq (pipefail : Bool) (exits : List (Option ℤ)) :
    pipelineStatus pipefail exits =
      (noteExits pipefail (none, 0) exits).1.getD (noteExits pipefail (none, 0) exits).2 :=
  rfl

/-- All stages of a pipeline have the same status. -/
lemma pipelineStatus_replicate (pipefail : Bool) (code : ℤ) (n : ℕ) :
    pipelineStatus pipefail (List.replicate (n + 1) (some code)) = code := by
  have hnote : ∀ failure, (failure = none ∨ failure = some code) →
      (Pipelines.noteExit pipefail (some code) failure).2 = code ∧
        ((Pipelines.noteExit pipefail (some code) failure).1 = none ∨
          (Pipelines.noteExit pipefail (some code) failure).1 = some code) := by
    rintro _ (rfl | rfl)
    · cases hfails : pipefail && code != 0 <;> simp [Pipelines.noteExit, hfails]
    · simp [Pipelines.noteExit]
  have hloop : ∀ noted : Option ℤ × ℤ, noted.2 = code → (noted.1 = none ∨ noted.1 = some code) →
      (noteExits pipefail noted (List.replicate n (some code))).1.getD
        (noteExits pipefail noted (List.replicate n (some code))).2 = code := by
    induction n with
    | zero =>
      rintro ⟨_, _⟩ hlast (rfl | rfl)
      · exact hlast
      · rfl
    | succ n ih =>
      intro noted _ hfailure
      obtain ⟨hlast, hfailure⟩ := hnote noted.1 hfailure
      exact ih _ hlast hfailure
  obtain ⟨hlast, hfailure⟩ := hnote none (.inl rfl)
  exact hloop _ hlast hfailure

/-- The first failure is kept. -/
lemma pipelineStatus_cons {code : ℤ} (h : code ≠ 0) (exits : List (Option ℤ)) :
    pipelineStatus true (some code :: exits) = code := by
  have hkept : ∀ exit, (Pipelines.noteExit true exit (some code)).1 = some code := by
    rintro (_ | exit) <;> simp [Pipelines.noteExit]
  have hloop : ∀ noted : Option ℤ × ℤ, noted.1 = some code →
      (noteExits true noted exits).1 = some code := by
    induction exits with
    | nil => exact fun _ hnoted => hnoted
    | cons exit rest ih =>
      rintro ⟨_, _⟩ rfl
      exact ih _ (hkept exit)
  have hfirst : (Pipelines.noteExit true (some code) none).1 = some code := by
    simp [Pipelines.noteExit, h]
  have hfailure : (noteExits true (none, 0) (some code :: exits)).1 = some code := hloop _ hfirst
  rw [pipelineStatus_eq, hfailure]
  rfl

lemma leaves_spawnBackground (h : command.IsTree) (hs : s.world.shared = script) :
    Leaves s (spawnBackground blank lastExit command) command.taskCount script
      (·.length = command.taskCount) := by
  induction h with
  | @simple argv redirects hne =>
    have hargv := (pervades_sure lastExit).expandArgv argv s
    rw [hs] at hargv
    rw [spawnBackground_simple hne]
    refine hargv.next fun t argv ht _ _ => ?_
    have hstreams := (pervades_sure lastExit).openStreams redirects t
    rw [ht] at hstreams
    refine hstreams.next fun t streams ht _ _ => ?_
    exact (leaves_spawnTask ht argv streams).map fun _ _ => rfl
  | @pipeline commands hlen h ih =>
    have hne : commands ≠ [] := List.length_pos_iff.mp (by omega)
    rw [spawnBackground, if_neg hne, Command.taskCount]
    refine (leaves_newPipes hs _).next fun t pipes ht _ _ => ?_
    refine (leaves_field ht).next fun t stdin ht _ _ => ?_
    refine (leaves_spawnCommands ht (.inl rfl) stdin pipes).last fun t tasks ht _ htasks => ?_
    exact (leaves_closePipes ht pipes).map fun _ _ => htasks
  | and hl hr ihl ihr =>
    rw [spawnBackground, Command.taskCount]
    exact ihl
  | or hl hr ihl ihr =>
    rw [spawnBackground, Command.taskCount]
    exact ihl
  | @sequence commands hlen h ih =>
    cases commands with
    | nil => cases hlen
    | cons first rest =>
      rw [spawnBackground, Command.taskCount]
      exact ih first List.mem_cons_self
  | subshell h ih =>
    rw [spawnBackground, Command.taskCount]
    exact ih

lemma leaves_runJob {results : List TaskResult} (h : command.IsTree)
    (hs : s.world.shared = script) (hawait : ∀ t tasks, t.world.shared = script →
      tasks.length = command.taskCount → Leaves t (awaitTasks tasks) 0 script' (· = results)) :
    Leaves s (runJob blank lastExit command) command.taskCount script'
      (· = jobStatus results) := by
  rw [runJob]
  refine (leaves_spawnBackground h hs).last fun t tasks ht _ htasks => ?_
  exact (hawait t tasks ht htasks).map fun _ hresults => hresults ▸ rfl

/-! ### Commands in the shell -/

/-- The step fails, or it starts so much at least and has the status of the script. -/
def Ends (s : ShellState scripted) (m : Step scripted ℤ) (k : Int32) (starts : ℕ) : Prop :=
  Fails s m ∨ ∃ n, starts ≤ n ∧ Leaves s m n (k, k) (· = k.toInt)

lemma Ends.bind {m : Step scripted ℤ} {f : ℤ → Step scripted ℤ} (hm : Ends s m k n)
    (hf : ∀ t, t.world.shared = (k, k) → Ends t (f k.toInt) k n') :
    Ends s (m >>= f) k (n + n') := by
  rcases hm with hm | ⟨starts, hle, _, new, hexec, hcount, rfl⟩
  · exact .inl hm.bind
  rcases hf (afterStep new (k, k) s) rfl with
    ⟨e, t, hexec'⟩ | ⟨starts', hle', _, new', hexec', hcount', rfl⟩
  · exact .inl ⟨e, t, by rw [exec_bind_of_ok hexec, hexec']⟩
  · refine .inr ⟨starts + starts', Nat.add_le_add hle hle', _, new' ++ new, ?_, ?_, rfl⟩
    · rw [exec_bind_of_ok hexec, hexec', afterStep_afterStep]
    · rw [List.countP_append, hcount, hcount', Nat.add_comm]

lemma Ends.last {m : Step scripted ℤ} {f : ℤ → Step scripted ℤ} (hm : Ends s m k n)
    (hf : ∀ t, t.world.shared = (k, k) → Ends t (f k.toInt) k 0) : Ends s (m >>= f) k n :=
  hm.bind hf

lemma Ends.mono {m : Step scripted ℤ} (hm : Ends s m k n) (h : n' ≤ n) : Ends s m k n' :=
  hm.imp_right fun ⟨m, hle, hleaves⟩ => ⟨m, h.trans hle, hleaves⟩

lemma ends_pure (hs : s.world.shared = (k, k)) : Ends s (pure k.toInt) k 0 :=
  .inr ⟨0, le_rfl, leaves_pure hs rfl⟩

/-- A builtin or a task. -/
lemma leaves_startPrepared (hs : s.world.shared = (k, k)) (argv : List Text)
    (streams : Streams scripted) :
    Leaves s (startPrepared argv streams) 1 (k, k) (· = k.toInt) := by
  rw [startPrepared]
  cases JobBuiltin.ofName (argv.headD []) with
  | some builtin =>
    have h : Leaves s (Step.onJobs (scripted.builtin builtin argv streams.stdout streams.stderr)) 1
        (s.world.shared.2, s.world.shared.2) (· = s.world.shared.1.toInt) :=
      ⟨_, [.usedJobs], rfl, rfl, rfl⟩
    rwa [hs] at h
  | none =>
    have hlaunch : Leaves s (launch argv streams) 1 (k, k) (· = .ok { code := k }) :=
      (leaves_spawnTask hs argv streams).last fun t task ht _ _ => leaves_awaitTask ht task
    refine hlaunch.last fun t result ht _ hresult => ?_
    rw [hresult, ← ht]
    exact ⟨_, [.applied _], rfl, rfl, rfl⟩

lemma leaves_runSimple (h : argv ≠ []) (hs : s.world.shared = (k, k)) :
    Leaves s (runCommand blank lastExit (.simple argv redirects)) 1 (k, k) (· = k.toInt) := by
  have hprepare := (pervades_sure lastExit).prepare argv redirects s
  rw [hs] at hprepare
  rw [runCommand_simple h, runSimple_eq]
  exact hprepare.next fun t r ht _ _ => leaves_startPrepared ht r.1 r.2

lemma leaves_runPipeline {exits : List (Option ℤ)} (hlen : 2 ≤ commands.length)
    (hs : s.world.shared = script) (hsimple : ∀ c ∈ commands, c.isSimple = true)
    (hawait : ∀ t tasks pipes, t.world.shared = script → tasks.length = commands.length →
      Leaves t (awaitHandles tasks pipes) 0 script' (· = exits)) :
    Leaves s (runCommand blank lastExit (.pipeline commands)) commands.length script'
      (· = pipelineStatus s.world.pipefail exits) := by
  rw [runCommand_pipeline hlen, runPipeline]
  refine (leaves_newPipes hs _).next fun t pipes ht ho₁ _ => ?_
  refine (leaves_field ht).next fun t stdin ht ho₂ _ => ?_
  have hspawn : Leaves t (spawnCommands blank lastExit (some nestedCommand) commands stdin pipes)
    _ script _ := leaves_spawnCommands ht (.inr hsimple) stdin pipes
  rw [List.countP_eq_length.mpr hsimple] at hspawn
  refine hspawn.last fun t tasks ht ho₃ htasks => ?_
  refine (hawait t tasks pipes ht htasks).last fun t exits' ht ho₄ hexits => ?_
  rw [hexits, ← ht, ← ho₁, ← ho₂, ← ho₃, ← ho₄]
  exact ⟨_, [.pipelined _], rfl, rfl, rfl⟩

lemma fails_runPipeline (hlen : 2 ≤ commands.length) (h : ∃ c ∈ commands, c.isSimple = false) :
    Fails s (runCommand blank lastExit (.pipeline commands)) := by
  rw [runCommand_pipeline hlen, runPipeline]
  refine (leaves_newPipes rfl _).fails fun t pipes _ _ _ => ?_
  exact (leaves_field rfl).fails fun t stdin _ _ _ => (fails_spawnCommands h stdin pipes).bind

lemma ends_runPipeline (hlen : 2 ≤ commands.length) (hs : s.world.shared = (k, k)) :
    Ends s (runCommand blank lastExit (.pipeline commands)) k commands.length := by
  by_cases hsimple : ∀ c ∈ commands, c.isSimple = true
  · have hrun : Leaves s (runCommand blank lastExit (.pipeline commands)) _ (k, k) _ :=
      leaves_runPipeline hlen hs hsimple fun t tasks pipes ht htasks =>
        htasks ▸ leaves_awaitHandles ht tasks pipes
    obtain ⟨n, hn⟩ : ∃ n, commands.length = n + 1 := ⟨commands.length - 1, by omega⟩
    rw [hn] at hrun ⊢
    rw [pipelineStatus_replicate] at hrun
    exact .inr ⟨n + 1, le_rfl, hrun⟩
  · simp only [not_forall, Bool.not_eq_true] at hsimple
    obtain ⟨c, hmem, hc⟩ := hsimple
    exact .inl (fails_runPipeline hlen ⟨c, hmem, hc⟩)

lemma ends_and {left right : Command}
    (hl : Ends s (runCommand blank lastExit left) k n)
    (hr : ∀ t, t.world.shared = (k, k) → Ends t (runCommand blank lastExit right) k n')
    (hk : k.toInt = 0) : Ends s (runCommand blank lastExit (.and left right)) k (n + n') := by
  rw [runCommand_and]
  refine hl.bind fun t ht => ?_
  rw [if_neg (not_not.mpr hk)]
  exact hr t ht

lemma ends_or {left right : Command}
    (hl : Ends s (runCommand blank lastExit left) k n)
    (hr : ∀ t, t.world.shared = (k, k) → Ends t (runCommand blank lastExit right) k n')
    (hk : k.toInt ≠ 0) : Ends s (runCommand blank lastExit (.or left right)) k (n + n') := by
  rw [runCommand_or]
  refine hl.bind fun t ht => ?_
  rw [if_neg hk]
  exact hr t ht

lemma ends_runSequence (hs : s.world.shared = (k, k)) (h : ∀ c ∈ commands, ∀ t,
    t.world.shared = (k, k) → Ends t (runCommand blank lastExit c) k 1) :
    Ends s (runSequence blank lastExit commands k.toInt) k commands.length := by
  induction commands generalizing s with
  | nil => exact ends_pure hs
  | cons command rest ih =>
    obtain ⟨hcommand, hrest⟩ := List.forall_mem_cons.mp h
    rw [runSequence, List.length_cons, Nat.add_comm]
    exact (hcommand s hs).bind fun t ht => ih ht hrest

lemma ends_sequence {first : Command} {rest : List Command}
    (hfirst : Ends s (runCommand blank lastExit first) k n) (hrest : ∀ c ∈ rest, ∀ t,
      t.world.shared = (k, k) → Ends t (runCommand blank lastExit c) k 1) :
    Ends s (runCommand blank lastExit (.sequence (first :: rest))) k (n + rest.length) := by
  rw [runCommand_sequence, runSequence]
  exact hfirst.bind fun t ht => ends_runSequence ht hrest

lemma ends_subshell (h : Ends s (runCommand blank lastExit command) k n) :
    Ends s (runCommand blank lastExit (.subshell command)) k n := by
  rcases h with ⟨e, t, hexec⟩ | ⟨starts, hle, code, new, hexec, hcount, hcode⟩
  · refine .inl ⟨e, restored s t, ?_⟩
    rw [exec_subshell, hexec]
  · refine .inr ⟨starts, hle, code, new, ?_, hcount, hcode⟩
    rw [exec_subshell, hexec]
    rfl

/-- The command starts what its job starts at least, and at least something. -/
lemma ends_runCommand (h : command.IsTree) (hs : s.world.shared = (k, k)) :
    Ends s (runCommand blank lastExit command) k (max 1 command.taskCount) := by
  induction h generalizing s with
  | simple redirects hne => exact .inr ⟨1, le_rfl, leaves_runSimple hne hs⟩
  | @pipeline commands hlen h ih =>
    exact (ends_runPipeline hlen hs).mono (max_le (by omega) List.countP_le_length)
  | @and left right hl hr ihl ihr =>
    by_cases hk : k.toInt = 0
    · exact (ends_and (ihl hs) (fun t ht => ihr ht) hk).mono (Nat.le_add_right _ _)
    · rw [runCommand_and, Command.taskCount]
      refine (ihl hs).last fun t ht => ?_
      rw [if_pos hk]
      exact ends_pure ht
  | @or left right hl hr ihl ihr =>
    by_cases hk : k.toInt = 0
    · rw [runCommand_or, Command.taskCount]
      refine (ihl hs).last fun t ht => ?_
      rw [if_pos hk, ← hk]
      exact ends_pure ht
    · exact (ends_or (ihl hs) (fun t ht => ihr ht) hk).mono (Nat.le_add_right _ _)
  | @sequence commands hlen h ih =>
    cases commands with
    | nil => cases hlen
    | cons first rest =>
      have hrest : ∀ c ∈ rest, ∀ t, t.world.shared = (k, k) →
          Ends t (runCommand blank lastExit c) k 1 := fun c hmem t ht =>
        (ih c (List.mem_cons_of_mem _ hmem) ht).mono (le_max_left _ _)
      exact (ends_sequence (ih first List.mem_cons_self hs) hrest).mono (Nat.le_add_right _ _)
  | subshell h ih => exact ends_subshell (ih hs)

/-! ### Where the job is another one -/

lemma length_started {step : Step scripted ℤ} {post : ℤ → Prop} (h : Leaves s step n script post) :
    (started step s).length = n := by
  obtain ⟨_, new, hexec, hcount, -⟩ := h
  rw [started, hexec, recordedSince_append rfl, ← List.countP_eq_length_filter, hcount]

lemma settled_eq {step : Step scripted ℤ} {post : ℤ → Prop} (h : Leaves s step n script post) :
    ∃ code, post code ∧ settled step s = some (code, script) := by
  obtain ⟨code, new, hexec, -, hcode⟩ := h
  exact ⟨code, hcode, by rw [settled, hexec]; rfl⟩

lemma not_runsWhole_of_fails {post : ℤ → Prop}
    (hjob : Leaves s (runJob blank lastExit command) n script post)
    (hcommand : Fails s (runCommand blank lastExit command)) :
    ¬ RunsWhole blank lastExit command s := by
  rintro ⟨-, hsettled⟩
  obtain ⟨code, -, hjob⟩ := settled_eq hjob
  obtain ⟨e, t, hexec⟩ := hcommand
  rw [hjob, settled_subshell, settled, hexec] at hsettled
  cases hsettled

/-- The command starts more than the job. -/
lemma not_runsWhole_of_ends {post : ℤ → Prop}
    (hjob : Leaves s (runJob blank lastExit command) n (k, k) post)
    (hcommand : Ends s (runCommand blank lastExit command) k n') (h : n < n') :
    ¬ RunsWhole blank lastExit command s := by
  rcases hcommand with hcommand | ⟨starts, hle, hcommand⟩
  · exact not_runsWhole_of_fails hjob hcommand
  · rintro ⟨hstarted, -⟩
    have hlength := congrArg List.length hstarted
    rw [length_started hjob, started_subshell, length_started hcommand] at hlength
    omega

end

/-- In a list, the job is the first command. -/
lemma not_runsWhole_of_strict {command : Command} (h : command.IsTree) {k : Int32} {lastExit : ℤ}
    (hends : Ends (scriptedShell false (k, k)) (runCommand blank lastExit command) k
      (max 1 command.taskCount + 1)) :
    ¬ RunsWhole blank lastExit command (scriptedShell false (k, k)) :=
  not_runsWhole_of_ends
    (leaves_runJob h rfl fun _ tasks ht hlen => hlen ▸ leaves_awaitTasks ht tasks) hends
    (Nat.lt_succ_of_le (le_max_right _ _))

section

variable {left right : Command} {commands : List Command} {lastExit : ℤ}

lemma not_runsWhole_and (hl : left.IsTree) (hr : right.IsTree) :
    ¬ RunsWhole blank lastExit (.and left right) (scriptedShell false (0, 0)) := by
  refine not_runsWhole_of_strict (.and hl hr) ?_
  refine ends_and (ends_runCommand hl rfl) (fun t ht => ?_) rfl
  exact (ends_runCommand hr ht).mono (le_max_left _ _)

lemma not_runsWhole_or (hl : left.IsTree) (hr : right.IsTree) :
    ¬ RunsWhole blank lastExit (.or left right) (scriptedShell false (1, 1)) := by
  refine not_runsWhole_of_strict (.or hl hr) ?_
  refine ends_or (ends_runCommand hl rfl) (fun t ht => ?_) (by decide)
  exact (ends_runCommand hr ht).mono (le_max_left _ _)

lemma not_runsWhole_sequence (hlen : 2 ≤ commands.length) (h : ∀ c ∈ commands, c.IsTree) :
    ¬ RunsWhole blank lastExit (.sequence commands) (scriptedShell false (0, 0)) := by
  refine not_runsWhole_of_strict (.sequence hlen h) ?_
  cases commands with
  | nil => cases hlen
  | cons first rest =>
    obtain ⟨hfirst, hrest⟩ := List.forall_mem_cons.mp h
    have hends : Ends (scriptedShell false (0, 0))
        (runCommand blank lastExit (.sequence (first :: rest))) 0 _ :=
      ends_sequence (ends_runCommand hfirst rfl) fun c hmem t ht =>
        (ends_runCommand (hrest c hmem) ht).mono (le_max_left _ _)
    exact hends.mono (Nat.add_le_add_left (Nat.le_of_succ_le_succ hlen) _)

/-- A stage is no simple command, or the first one fails and `pipefail` is set. -/
lemma exists_not_runsWhole_pipeline (hlen : 2 ≤ commands.length) (h : ∀ c ∈ commands, c.IsTree)
    (lastExit : ℤ) : ∃ s, ¬ RunsWhole blank lastExit (.pipeline commands) s := by
  by_cases hsimple : ∀ c ∈ commands, c.isSimple = true
  · obtain ⟨n, hn⟩ : ∃ n, commands.length = n + 2 := ⟨commands.length - 2, by omega⟩
    have hcount : (Command.pipeline commands).taskCount = n + 2 :=
      (List.countP_eq_length.mpr hsimple).trans hn
    let s := scriptedShell true (1, 0)
    have hjob : Leaves s (runJob blank lastExit (.pipeline commands)) _ (0, 0) (· = jobStatus _) :=
      leaves_runJob (.pipeline hlen h) rfl fun t tasks ht htasks =>
        leaves_awaitTasks_of_length ht (htasks.trans hcount)
    have hcommand : Leaves s (runCommand blank lastExit (.pipeline commands)) _ (0, 0)
        (· = pipelineStatus true _) :=
      leaves_runPipeline hlen rfl hsimple fun t tasks pipes ht htasks =>
        leaves_awaitHandles_of_length ht (htasks.trans hn) pipes
    refine ⟨s, fun hwhole => ?_⟩
    have hsettled := hwhole.settled
    obtain ⟨_, rfl, hjob⟩ := settled_eq hjob
    obtain ⟨_, rfl, hcommand⟩ := settled_eq hcommand
    rw [settled_subshell, hjob, hcommand, pipelineStatus_cons (by decide)] at hsettled
    have hlast : jobStatus (.ok { code := 1 } :: List.replicate (n + 1) (.ok { code := 0 })) =
        0 := by
      simp [jobStatus, List.getLast?_cons, List.getLast?_replicate, exitCode]
    rw [hlast] at hsettled
    cases hsettled
  · simp only [not_forall, Bool.not_eq_true] at hsimple
    obtain ⟨c, hmem, hc⟩ := hsimple
    have hjob : Leaves (scriptedShell false (0, 0)) (runJob blank lastExit (.pipeline commands)) _
        (0, 0) _ :=
      leaves_runJob (.pipeline hlen h) rfl fun t tasks ht hlen => hlen ▸ leaves_awaitTasks ht tasks
    exact ⟨_, not_runsWhole_of_fails hjob (fails_runPipeline hlen ⟨c, hmem, hc⟩)⟩

end

/-! ### Names that are written out -/

section

variable {name : Text} {words : List Word} {redirects : List Redirect}

lemma expand_of_not_mem (env : Environment) (lastExit : ℤ) (h : '$' ∉ name) :
    env.expand lastExit name = name := by
  induction name with
  | nil => rw [Environment.expand]
  | cons c rest ih =>
    obtain ⟨hc, hrest⟩ := List.ne_and_not_mem_of_not_mem_cons h
    rw [Environment.expand.eq_def]
    split
    all_goals simp_all

lemma expandTilde_of_ne (env : Environment) (h : name.head? ≠ some '~') :
    env.expandTilde name = name := by
  unfold Environment.expandTilde
  split <;> first | rfl | exact absurd rfl h

/-- A name that is written out. -/
lemma neverBuiltin_unquoted (hdollar : '$' ∉ name) (htilde : name.head? ≠ some '~')
    (hglob : isGlobPattern name = false) (hname : JobBuiltin.ofName name = none) :
    NeverBuiltin (.unquoted name :: words) redirects := by
  intro sys come lastExit s s' argv' streams hprepare
  obtain ⟨t, hexpand, -⟩ := exists_of_prepare hprepare
  have hword : ∃ t, (expandWord (substitute come) lastExit (.unquoted name)).exec s =
      (.ok (name, true), t) := by
    have htext : s.env.expand lastExit (s.env.expandTilde name) ++ [] = name := by
      rw [expandTilde_of_ne s.env htilde, expand_of_not_mem s.env lastExit hdollar, List.append_nil]
    exact ⟨_, congrArg (fun text => (Except.ok (text, true), _)) htext⟩
  obtain ⟨t₁, hword⟩ := hword
  have hmatch : (matchPaths s.cwd name true).exec t₁ = (.ok [name], t₁) := by
    rw [matchPaths, hglob]
    rfl
  have hargv : (expandArgv (substitute come) lastExit (.unquoted name :: words)).exec s =
      (expandWords (substitute come) lastExit s.cwd words >>= fun rest =>
        pure ([name] ++ rest)).exec t₁ := by
    have hcwd : (Step.field fun s : ShellState sys => s.cwd).exec s = (.ok s.cwd, s) := rfl
    rw [expandArgv, exec_bind_of_ok hcwd, expandWords, exec_bind_of_ok hword]
    dsimp only
    rw [exec_bind_of_ok hmatch]
  rw [hargv] at hexpand
  rcases hrest : (expandWords (substitute come) lastExit s.cwd words).exec t₁ with ⟨_ | rest, t₂⟩
  · rw [exec_bind_of_error hrest] at hexpand
    cases hexpand
  · rw [exec_bind_of_ok hrest] at hexpand
    cases hexpand
    exact hname

end

/-! ### A shell with pipes -/

/-- A system with the commands `echo` and `cat`, and pipes that may be closed; the first one is the
terminal. -/
def pipedSystem : System where
  Io := ℕ
  Tools := Unit
  Jobs := Unit
  Task := List Text × ℕ × ℕ
  World := List (List UInt8 × Bool)
  commandExists name := name = "echo".toList ∨ name = "cat".toList
  spawn ctx world := ((ctx.argv, ctx.stdin, ctx.stdout), world)
  awaitTask := fun (argv, stdin, stdout) world =>
    let output :=
      if argv.headD [] = "cat".toList then (world.getD stdin ([], true)).1
      else ([' '].intercalate argv.tail ++ ['\n']).map Char.toUInt8
    if (world.getD stdout ([], true)).2 then (.error (.io "broken pipe"), world)
    else (.ok { code := 0 }, world.modify stdout fun (data, closed) => (data ++ output, closed))
  newPipe world := (world.length, world ++ [([], false)])
  closePipe pipe world := world.modify pipe fun (data, _) => (data, true)
  newBuffer world := (world.length, world ++ [([], false)])
  takeBuffer buffer world := ((world.getD buffer ([], true)).1, world)
  fromUtf8Lossy bytes := bytes.map fun b => Char.ofNat b.toNat
  openFile _ _ world := (.ok 0, world)
  fromString _ world := (0, world)
  expandGlob _ _ pattern := [pattern]
  newJobs := ()
  addJob _ _ _ := (1, ())
  println _ world := world
  builtin _ _ _ _ _ world := (0, (), world)

def pipedShell : ShellState pipedSystem where
  cwd := "/".toList
  env := ∅
  world :=
    { pipefail := false, toolCatalog := none, jobs := (), stdin := (0 : ℕ), stdout := (0 : ℕ)
      stderr := (0 : ℕ), shared := [([], false)] }

def echoLine (text : String) : Command :=
  .simple [.unquoted "echo".toList, .unquoted text.toList] []

def catCommand : Command := .simple [.unquoted "cat".toList] []

/-- What the terminal shows in the end. -/
def onTerminal (result : Option (ℤ × pipedSystem.World)) : Option (ℤ × List UInt8) :=
  result.map fun (status, world) => (status, (List.headD world ([], true)).1)

/-! ### All commands -/

/-- A command runs whole in the background, in every system and whatever its substitutions come to,
if and only if it is a single one. -/
theorem runsWhole_iff {command : Command} (h : command.IsTree) :
    (∀ (sys : System) come lastExit (s : ShellState sys),
      RunsWhole (substitute come) lastExit command s) ↔ command.IsSingle := by
  induction h with
  | @simple argv redirects hne =>
    constructor
    · intro hwhole
      refine .simple fun sys come lastExit s s' argv' streams hprepare => ?_
      have hcalm := pervades_calm come lastExit
      exact ofName_of_runsWhole hne hcalm (hwhole sys come lastExit s) hprepare
    · rintro ⟨hbuiltin⟩ sys come lastExit s
      exact runsWhole_simple hne (pervades_calm come lastExit) fun argv' streams t hprepare =>
        hbuiltin sys come lastExit s t argv' streams hprepare
  | pipeline hlen h ih =>
    constructor
    · intro hwhole
      obtain ⟨s, hs⟩ := exists_not_runsWhole_pipeline hlen h 0
      exact absurd (hwhole scripted _ 0 s) hs
    · rintro ⟨⟩
  | and hl hr ihl ihr =>
    constructor
    · intro hwhole
      exact absurd (hwhole scripted _ 0 _) (not_runsWhole_and hl hr)
    · rintro ⟨⟩
  | or hl hr ihl ihr =>
    constructor
    · intro hwhole
      exact absurd (hwhole scripted _ 0 _) (not_runsWhole_or hl hr)
    · rintro ⟨⟩
  | sequence hlen h ih =>
    constructor
    · intro hwhole
      exact absurd (hwhole scripted _ 0 _) (not_runsWhole_sequence hlen h)
    · rintro ⟨⟩
  | subshell h ih =>
    simp only [runsWhole_subshell_iff, ih]
    constructor
    · exact .subshell
    · intro hsingle
      cases hsingle with
      | subshell hsingle => exact hsingle

/-- `(echo a)` -/
theorem runsWhole_echo : (Command.subshell (echoLine "a")).IsTree ∧
    ∀ (sys : System) come lastExit (s : ShellState sys),
      RunsWhole (substitute come) lastExit (.subshell (echoLine "a")) s := by
  have htree : (Command.subshell (echoLine "a")).IsTree :=
    .subshell (.simple [] (List.cons_ne_nil _ _))
  have hsingle : (Command.subshell (echoLine "a")).IsSingle :=
    .subshell (.simple (neverBuiltin_unquoted (by decide) (by decide) rfl rfl))
  exact ⟨htree, (runsWhole_iff htree).mpr hsingle⟩

/-- The job of `echo a; echo b` shows one line, and that of `echo a | cat` shows nothing. -/
theorem not_runsWhole_echo :
    ((Command.sequence [echoLine "a", echoLine "b"]).IsTree ∧
      ¬ RunsWhole captureOutput 0 (.sequence [echoLine "a", echoLine "b"]) pipedShell) ∧
    ((Command.pipeline [echoLine "a", catCommand]).IsTree ∧
      ¬ RunsWhole captureOutput 0 (.pipeline [echoLine "a", catCommand]) pipedShell) := by
  have htree : ∀ {argv : List Word}, argv ≠ [] → (Command.simple argv []).IsTree := .simple []
  have hdiffer : ∀ {command : Command},
      onTerminal (settled (runJob captureOutput 0 command) pipedShell) ≠
        onTerminal (settled (runCommand captureOutput 0 (.subshell command)) pipedShell) →
      ¬ RunsWhole captureOutput 0 command pipedShell :=
    fun h hwhole => h (congrArg onTerminal hwhole.settled)
  refine ⟨⟨.sequence le_rfl ?_, hdiffer (by decide +kernel)⟩,
    ⟨.pipeline le_rfl ?_, hdiffer (by decide +kernel)⟩⟩
  · simp [echoLine, htree]
  · simp [echoLine, catCommand, htree]

end AmlaSandbox.Shell
