import AmlaSandbox.Shell.Parser

/-!
# Execution of a command line

Chains of one operator are flattened and run in a loop; an error leaves the line at once, and the
status that `$?` stands for is stored when the line is done.
-/

namespace AmlaSandbox.Shell

open Text

/-! ### What a command comes to -/

inductive ExecError
  | commandNotFound (name : Text)
  | parse (e : ShellError)
  | failed (message : Text)
deriving DecidableEq, Repr

/-- An exit status, or the error that `?` hands on. -/
abbrev Outcome := Except ExecError ℤ

/-- A command that was executed: `lastExit` is the `$?` that its words were expanded with, `none`
for a command without words. -/
structure Execution where
  command : Command
  lastExit : Option ℤ
  outcome : Outcome

/-- What commands see and change; `world` is all that the shell shares with others. -/
structure Context (Env World : Type) where
  cwd : Text
  env : Env
  world : World

structure Session (Env World : Type) extends Context Env World where
  lastExit : ℤ

/-- The part of the shell that expands words and spawns tasks, at a value of `$?`. -/
structure Interpreter (Env World : Type) where
  simple : List Word → List Redirect → ℤ → Context Env World → Outcome × Context Env World
  pipeline : List Command → ℤ → Context Env World → Outcome × Context Env World
  background : Command → ℤ → Context Env World → Outcome × Context Env World

structure Run (Env World : Type) where
  outcome : Outcome
  session : Session Env World
  executed : List Execution

namespace Run

variable {Env World : Type}

def pure (code : ℤ) (session : Session Env World) : Run Env World :=
  { outcome := .ok code, session, executed := [] }

/-- `run?`, followed by `next`. -/
def bind (run : Run Env World) (next : ℤ → Session Env World → Run Env World) : Run Env World :=
  match run.outcome with
  | .ok code =>
    let rest := next code run.session
    { rest with executed := run.executed ++ rest.executed }
  | .error _ => run

/-- A command that the interpreter executes as one. -/
def unit (command : Command) (session : Session Env World)
    (result : Outcome × Context Env World) : Run Env World :=
  { outcome := result.1
    session := { result.2 with lastExit := session.lastExit }
    executed := [{ command, lastExit := some session.lastExit, outcome := result.1 }] }

end Run

/-! ### Chains -/

namespace Command

def isEmpty : Command → Bool
  | .empty => true
  | _ => false

/-- The loop of `collect_and_chain`; the chain is built from its end. -/
def andChainLoop : Command → List Command → List Command
  | .and left right, chain => andChainLoop left (chain ++ [right])
  | other, chain => chain ++ [other]

def collectAndChain (cmd : Command) : List Command := (andChainLoop cmd []).reverse

def orChainLoop : Command → List Command → List Command
  | .or left right, chain => orChainLoop left (chain ++ [right])
  | other, chain => chain ++ [other]

def collectOrChain (cmd : Command) : List Command := (orChainLoop cmd []).reverse

theorem andChainLoop_eq_append (cmd : Command) (chain : List Command) :
    andChainLoop cmd chain = chain ++ andChainLoop cmd [] := by
  match cmd with
  | .and left right =>
    rw [andChainLoop, andChainLoop_eq_append left (chain ++ [right]), andChainLoop,
      andChainLoop_eq_append left ([] ++ [right])]
    simp
  | .simple .. | .pipeline _ | .or .. | .sequence _ | .background _ | .subshell _ | .empty => rfl

theorem orChainLoop_eq_append (cmd : Command) (chain : List Command) :
    orChainLoop cmd chain = chain ++ orChainLoop cmd [] := by
  match cmd with
  | .or left right =>
    rw [orChainLoop, orChainLoop_eq_append left (chain ++ [right]), orChainLoop,
      orChainLoop_eq_append left ([] ++ [right])]
    simp
  | .simple .. | .pipeline _ | .and .. | .sequence _ | .background _ | .subshell _ | .empty => rfl

@[simp] lemma collectAndChain_and (left right : Command) :
    collectAndChain (.and left right) = collectAndChain left ++ [right] := by
  rw [collectAndChain, andChainLoop, andChainLoop_eq_append, collectAndChain]
  simp

@[simp] lemma collectOrChain_or (left right : Command) :
    collectOrChain (.or left right) = collectOrChain left ++ [right] := by
  rw [collectOrChain, orChainLoop, orChainLoop_eq_append, collectOrChain]
  simp

lemma collectOrChain_ne_nil (cmd : Command) : collectOrChain cmd ≠ [] := by
  match cmd with
  | .or left right => simp
  | .simple .. | .pipeline _ | .and .. | .sequence _ | .background _ | .subshell _ | .empty =>
    simp [collectOrChain, orChainLoop]

theorem sizeOf_le_of_mem_andChain {cmd c : Command} (h : c ∈ collectAndChain cmd) :
    sizeOf c ≤ sizeOf cmd := by
  match cmd with
  | .and left right =>
    rw [collectAndChain_and, List.mem_append, List.mem_singleton] at h
    obtain h | rfl := h
    · have := sizeOf_le_of_mem_andChain h
      rw [Command.and.sizeOf_spec]
      omega
    · rw [Command.and.sizeOf_spec]
      omega
  | .simple .. | .pipeline _ | .or .. | .sequence _ | .background _ | .subshell _ | .empty =>
    rw [List.mem_singleton.mp h]

theorem sizeOf_le_of_mem_orChain {cmd c : Command} (h : c ∈ collectOrChain cmd) :
    sizeOf c ≤ sizeOf cmd := by
  match cmd with
  | .or left right =>
    rw [collectOrChain_or, List.mem_append, List.mem_singleton] at h
    obtain h | rfl := h
    · have := sizeOf_le_of_mem_orChain h
      rw [Command.or.sizeOf_spec]
      omega
    · rw [Command.or.sizeOf_spec]
      omega
  | .simple .. | .pipeline _ | .and .. | .sequence _ | .background _ | .subshell _ | .empty =>
    rw [List.mem_singleton.mp h]

/-- What is left of a chain after its operator is smaller than the command. -/
lemma sizeOf_lt_of_mem_collectAndChain {left right c : Command}
    (h : c ∈ collectAndChain (.and left right)) : sizeOf c < sizeOf (Command.and left right) := by
  rw [Command.and.sizeOf_spec]
  rw [collectAndChain_and, List.mem_append, List.mem_singleton] at h
  obtain h | rfl := h
  · have := sizeOf_le_of_mem_andChain h
    omega
  · omega

lemma sizeOf_lt_of_mem_collectOrChain {left right c : Command}
    (h : c ∈ collectOrChain (.or left right)) : sizeOf c < sizeOf (Command.or left right) := by
  rw [Command.or.sizeOf_spec]
  rw [collectOrChain_or, List.mem_append, List.mem_singleton] at h
  obtain h | rfl := h
  · have := sizeOf_le_of_mem_orChain h
    omega
  · omega

end Command

/-! ### The loops -/

section

variable {α Env World : Type} (run : α → Session Env World → Run Env World)

def andLoop : List α → Session Env World → Run Env World
  | [], session => .pure 0 session
  | cmd :: rest, session =>
    (run cmd session).bind fun code session =>
      if code ≠ 0 then .pure code session else andLoop rest session

def orLoop : List α → ℤ → Session Env World → Run Env World
  | [], lastCode, session => .pure lastCode session
  | cmd :: rest, _, session =>
    (run cmd session).bind fun code session =>
      if code = 0 then .pure 0 session else orLoop rest code session

def sequenceLoop : List α → ℤ → Session Env World → Run Env World
  | [], lastCode, session => .pure lastCode session
  | cmd :: rest, _, session =>
    (run cmd session).bind fun code session => sequenceLoop rest code session

end

/-! ### Commands -/

section

variable {Env World : Type} (interpreter : Interpreter Env World)

def executeSimple (argv : List Word) (redirects : List Redirect) (session : Session Env World) :
    Run Env World :=
  if argv = [] then
    { outcome := .ok 0, session
      executed := [{ command := .simple argv redirects, lastExit := none, outcome := .ok 0 }] }
  else
    .unit (.simple argv redirects) session
      (interpreter.simple argv redirects session.lastExit session.toContext)

/-- `execute_in_subshell`, around the run of its command. -/
def inSubshell (run : Session Env World → Run Env World) (session : Session Env World) :
    Run Env World :=
  let result := run session
  { result with session := { result.session with cwd := session.cwd, env := session.env } }

def executeCommand (cmd : Command) (session : Session Env World) : Run Env World :=
  match cmd with
  | .empty => .pure 0 session
  | .simple argv redirects => executeSimple interpreter argv redirects session
  | .pipeline [] => .pure 0 session
  | .pipeline [cmd] => executeCommand cmd session
  | .pipeline commands =>
    .unit (.pipeline commands) session
      (interpreter.pipeline commands session.lastExit session.toContext)
  | .and left right =>
    let chain := Command.collectAndChain (.and left right)
    andLoop (fun cmd session => executeCommand cmd.1 session) chain.attach session
  | .or left right =>
    let chain := Command.collectOrChain (.or left right)
    orLoop (fun cmd session => executeCommand cmd.1 session) chain.attach 0 session
  | .sequence commands =>
    sequenceLoop (fun cmd session => executeCommand cmd.1 session) commands.attach 0 session
  | .background command =>
    .unit (.background command) session
      (interpreter.background command session.lastExit session.toContext)
  | .subshell command => inSubshell (fun session => executeCommand command session) session
termination_by sizeOf cmd
decreasing_by
  · decreasing_tactic
  · exact Command.sizeOf_lt_of_mem_collectAndChain cmd.2
  · exact Command.sizeOf_lt_of_mem_collectOrChain cmd.2
  · have := List.sizeOf_lt_of_mem cmd.2
    rw [Command.sequence.sizeOf_spec]
    omega
  · decreasing_tactic

/-- `execute`, from the parsed line on. -/
def execute (cmd : Command) (session : Session Env World) : Run Env World :=
  if cmd.isEmpty then .pure 0 session
  else
    (executeCommand interpreter cmd session).bind fun exitCode session =>
      .pure exitCode { session with lastExit := exitCode }

end

end AmlaSandbox.Shell
