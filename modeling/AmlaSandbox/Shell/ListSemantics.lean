import AmlaSandbox.Shell.Execute

/-!
# The semantics of lists

What the left-to-right semantics of `&&`, `||` and `;` prescribe, and when the loops of the shell do
it.
-/

namespace AmlaSandbox.Shell

open Text

variable {Env World : Type}

/-! ### The prescribed run -/

/-- `127` is the status of a command that is not found. -/
def Outcome.status : Outcome → ℤ
  | .ok code => code
  | .error _ => 127

namespace Run

/-- The run with its status in `$?`. -/
def settle (run : Run Env World) : Run Env World :=
  { run with session := { run.session with lastExit := run.outcome.status } }

/-- Both runs, whatever the first one comes to. -/
def followedBy (run : Run Env World) (next : Session Env World → Run Env World) : Run Env World :=
  let rest := next run.session
  { rest with executed := run.executed ++ rest.executed }

end Run

section

variable (interpreter : Interpreter Env World)

mutual

/-- The semantics: `$?` is the status of the command before, and a command that fails in whatever
way has failed. -/
def prescribed : Command → Session Env World → Run Env World
  | .empty, session => .pure 0 session
  | .simple argv redirects, session => (executeSimple interpreter argv redirects session).settle
  | .pipeline commands, session =>
    (Run.unit (.pipeline commands) session
      (interpreter.pipeline commands session.lastExit session.toContext)).settle
  | .and left right, session =>
    let first := prescribed left session
    if first.outcome.status = 0 then first.followedBy (prescribed right) else first
  | .or left right, session =>
    let first := prescribed left session
    if first.outcome.status = 0 then first else first.followedBy (prescribed right)
  | .sequence commands, session => prescribedSequence commands session
  | .background command, session =>
    (Run.unit (.background command) session
      (interpreter.background command session.lastExit session.toContext)).settle
  | .subshell command, session => inSubshell (prescribed command) session

def prescribedSequence : List Command → Session Env World → Run Env World
  | [], session => .pure 0 session
  | [command], session => prescribed command session
  | command :: rest, session => (prescribed command session).followedBy (prescribedSequence rest)

end

/-- The shell executes what is prescribed, in this order and with this `$?`, and comes to the
same. -/
structure RunsAsPrescribed (cmd : Command) (session : Session Env World) : Prop where
  executed :
    (execute interpreter cmd session).executed = (prescribed interpreter cmd session).executed
  outcome : (execute interpreter cmd session).outcome = (prescribed interpreter cmd session).outcome

end

/-- Nothing but the last command ends in an error, and words are only expanded while `$?` is what it
was at the beginning. -/
structure Undisturbed (lastExit : ℤ) (executed : List Execution) : Prop where
  expanded : ∀ e ∈ executed, ∀ status, e.lastExit = some status → status = lastExit
  known : ∀ e ∈ executed.dropLast, ∃ code, e.outcome = .ok code

/-- The trees of simple commands, lists and subshells; pipelines and background commands are
executed as one. -/
inductive Command.IsList : Command → Prop
  | simple (argv : List Word) (redirects : List Redirect) : IsList (.simple argv redirects)
  | pipeline (commands : List Command) (h : 2 ≤ commands.length) : IsList (.pipeline commands)
  | background (command : Command) : IsList (.background command)
  | and {left right : Command} (hl : IsList left) (hr : IsList right) : IsList (.and left right)
  | or {left right : Command} (hl : IsList left) (hr : IsList right) : IsList (.or left right)
  | sequence {commands : List Command} (hne : commands ≠ []) (h : ∀ c ∈ commands, IsList c) :
      IsList (.sequence commands)
  | subshell {command : Command} (h : IsList command) : IsList (.subshell command)

/-! ### Runs one after the other -/

namespace Run

@[simp] lemma pure_bind (code : ℤ) (session : Session Env World)
    (next : ℤ → Session Env World → Run Env World) :
    (pure code session).bind next = next code session := by
  simp [bind, pure]

@[simp] lemma bind_pure (run : Run Env World) : run.bind pure = run := by
  obtain ⟨outcome, session, executed⟩ := run
  cases outcome <;> simp [bind, pure]

lemma ite_pure_zero (code : ℤ) (session : Session Env World) :
    (if code ≠ 0 then pure code session else pure 0 session) = pure code session := by
  split_ifs with h <;> simp_all

lemma ite_zero_pure (code : ℤ) (session : Session Env World) :
    (if code = 0 then pure 0 session else pure code session) = pure code session := by
  split_ifs with h <;> simp_all

lemma bind_assoc (run : Run Env World) (f g : ℤ → Session Env World → Run Env World) :
    (run.bind f).bind g = run.bind fun code session => (f code session).bind g := by
  obtain ⟨outcome, session, executed⟩ := run
  cases outcome with
  | error e => rfl
  | ok code =>
    simp only [bind]
    cases h : (f code session).outcome <;> simp [h]

end Run

section

variable {α : Type} {run : α → Session Env World → Run Env World}

lemma andLoop_append (xs ys : List α) (session : Session Env World) :
    andLoop run (xs ++ ys) session =
      (andLoop run xs session).bind fun code session =>
        if code ≠ 0 then .pure code session else andLoop run ys session := by
  induction xs generalizing session with
  | nil => simp [andLoop]
  | cons cmd rest ih =>
    rw [List.cons_append, andLoop, andLoop, Run.bind_assoc]
    congr
    funext code session
    split_ifs with h
    · simp [h]
    · exact ih session

lemma orLoop_append (xs ys : List α) (lastCode : ℤ) (hxs : xs ≠ []) (session : Session Env World) :
    orLoop run (xs ++ ys) lastCode session =
      (orLoop run xs lastCode session).bind fun code session =>
        if code = 0 then .pure 0 session else orLoop run ys code session := by
  induction xs generalizing session lastCode with
  | nil => contradiction
  | cons cmd rest ih =>
    rw [List.cons_append, orLoop, orLoop, Run.bind_assoc]
    congr
    funext code session
    by_cases h : code = 0
    · simp [h]
    · cases rest with
      | nil => simp [h, orLoop]
      | cons next rest => simpa [h] using ih code (by simp) session

variable {β : Type} (run) (f : β → α)

lemma andLoop_map (xs : List β) (session : Session Env World) :
    andLoop (fun x => run (f x)) xs session = andLoop run (xs.map f) session := by
  induction xs generalizing session with
  | nil => rfl
  | cons x rest ih => simp only [List.map_cons, andLoop, ih]

lemma orLoop_map (xs : List β) (lastCode : ℤ) (session : Session Env World) :
    orLoop (fun x => run (f x)) xs lastCode session = orLoop run (xs.map f) lastCode session := by
  induction xs generalizing session lastCode with
  | nil => rfl
  | cons x rest ih => simp only [List.map_cons, orLoop, ih]

lemma sequenceLoop_map (xs : List β) (lastCode : ℤ) (session : Session Env World) :
    sequenceLoop (fun x => run (f x)) xs lastCode session =
      sequenceLoop run (xs.map f) lastCode session := by
  induction xs generalizing session lastCode with
  | nil => rfl
  | cons x rest ih => simp only [List.map_cons, sequenceLoop, ih]

end

/-! ### The flattened chains -/

section

variable (interpreter : Interpreter Env World)

lemma executeCommand_simple (argv : List Word) (redirects : List Redirect)
    (session : Session Env World) :
    executeCommand interpreter (.simple argv redirects) session =
      executeSimple interpreter argv redirects session := by
  rw [executeCommand]

lemma executeCommand_andChain (left right : Command) (session : Session Env World) :
    executeCommand interpreter (.and left right) session =
      andLoop (executeCommand interpreter) (Command.collectAndChain (.and left right)) session := by
  rw [executeCommand, andLoop_map (executeCommand interpreter) Subtype.val,
    List.attach_map_subtype_val]

lemma executeCommand_orChain (left right : Command) (session : Session Env World) :
    executeCommand interpreter (.or left right) session =
      orLoop (executeCommand interpreter) (Command.collectOrChain (.or left right)) 0 session := by
  rw [executeCommand, orLoop_map (executeCommand interpreter) Subtype.val,
    List.attach_map_subtype_val]

lemma executeCommand_sequence (commands : List Command) (session : Session Env World) :
    executeCommand interpreter (.sequence commands) session =
      sequenceLoop (executeCommand interpreter) commands 0 session := by
  rw [executeCommand, sequenceLoop_map (executeCommand interpreter) Subtype.val,
    List.attach_map_subtype_val]

lemma executeCommand_subshell (command : Command) (session : Session Env World) :
    executeCommand interpreter (.subshell command) session =
      inSubshell (executeCommand interpreter command) session := by
  rw [executeCommand]

/-- The loop over the chain of a command is the command, whether there is a chain or not. -/
lemma andLoop_collectAndChain (cmd : Command) (session : Session Env World) :
    andLoop (executeCommand interpreter) (Command.collectAndChain cmd) session =
      executeCommand interpreter cmd session := by
  have single : andLoop (executeCommand interpreter) [cmd] session =
      executeCommand interpreter cmd session := by
    simp only [andLoop, Run.ite_pure_zero]
    exact Run.bind_pure _
  match cmd with
  | .and left right => exact (executeCommand_andChain interpreter left right session).symm
  | .simple .. | .pipeline _ | .or .. | .sequence _ | .background _ | .subshell _ | .empty =>
    exact single

lemma orLoop_collectOrChain (cmd : Command) (session : Session Env World) :
    orLoop (executeCommand interpreter) (Command.collectOrChain cmd) 0 session =
      executeCommand interpreter cmd session := by
  have single : orLoop (executeCommand interpreter) [cmd] 0 session =
      executeCommand interpreter cmd session := by
    simp only [orLoop, Run.ite_zero_pure]
    exact Run.bind_pure _
  match cmd with
  | .or left right => exact (executeCommand_orChain interpreter left right session).symm
  | .simple .. | .pipeline _ | .and .. | .sequence _ | .background _ | .subshell _ | .empty =>
    exact single

/-- A flattened chain runs like the command that it was flattened from. -/
theorem executeCommand_and (left right : Command) (session : Session Env World) :
    executeCommand interpreter (.and left right) session =
      (executeCommand interpreter left session).bind fun code session =>
        if code ≠ 0 then .pure code session else executeCommand interpreter right session := by
  have single (session : Session Env World) :
      andLoop (executeCommand interpreter) [right] session =
        executeCommand interpreter right session := by
    simp only [andLoop, Run.ite_pure_zero]
    exact Run.bind_pure _
  rw [executeCommand_andChain, Command.collectAndChain_and, andLoop_append,
    andLoop_collectAndChain]
  simp only [single]

theorem executeCommand_or (left right : Command) (session : Session Env World) :
    executeCommand interpreter (.or left right) session =
      (executeCommand interpreter left session).bind fun code session =>
        if code = 0 then .pure 0 session else executeCommand interpreter right session := by
  have single (code : ℤ) (session : Session Env World) :
      orLoop (executeCommand interpreter) [right] code session =
        executeCommand interpreter right session := by
    simp only [orLoop, Run.ite_zero_pure]
    exact Run.bind_pure _
  rw [executeCommand_orChain, Command.collectOrChain_or,
    orLoop_append _ _ _ (Command.collectOrChain_ne_nil left), orLoop_collectOrChain]
  simp only [single]

end

/-! ### The prescribed run -/

/-- Each command expands `$?` to the status of the one before it, the first one to `status`. -/
def Follows : ℤ → List Execution → Prop
  | _, [] => True
  | status, e :: rest =>
    (∀ shown, e.lastExit = some shown → shown = status) ∧ Follows e.outcome.status rest

/-- The status after some commands. -/
def lastStatus : ℤ → List Execution → ℤ
  | status, [] => status
  | _, e :: rest => lastStatus e.outcome.status rest

lemma follows_append {status : ℤ} {first second : List Execution} :
    Follows status (first ++ second) ↔
      Follows status first ∧ Follows (lastStatus status first) second := by
  induction first generalizing status with
  | nil => simp [Follows, lastStatus]
  | cons e rest ih => simp only [List.cons_append, Follows, lastStatus, ih, and_assoc]

lemma lastStatus_append (status : ℤ) (first second : List Execution) :
    lastStatus status (first ++ second) = lastStatus (lastStatus status first) second := by
  induction first generalizing status with
  | nil => rfl
  | cons e rest ih => exact ih _

/-- What a run from a status is to be: it has executed something, comes to what the last command
came to, and every command knows the status of the one before. -/
structure Run.Concludes (status : ℤ) (run : Run Env World) : Prop where
  last : run.executed.getLast?.map Execution.outcome = some run.outcome
  lastExit : run.session.lastExit = lastStatus status run.executed
  follows : Follows status run.executed

namespace Run.Concludes

variable {status : ℤ} {run : Run Env World}

lemma ne_nil (h : run.Concludes status) : run.executed ≠ [] := by
  intro hnil
  have := h.last
  simp [hnil] at this

lemma exists_mem (h : run.Concludes status) : ∃ e ∈ run.executed, e.outcome = run.outcome := by
  obtain ⟨e, he, heq⟩ := Option.map_eq_some_iff.mp h.last
  exact ⟨e, List.mem_of_getLast? he, heq⟩

lemma followedBy {next : Session Env World → Run Env World} (h : run.Concludes status)
    (hn : (next run.session).Concludes run.session.lastExit) :
    (run.followedBy next).Concludes status where
  last := by
    simp only [Run.followedBy, List.getLast?_append_of_ne_nil _ hn.ne_nil]
    exact hn.last
  lastExit := by
    simp only [Run.followedBy, lastStatus_append, ← h.lastExit]
    exact hn.lastExit
  follows := by
    simp only [Run.followedBy, follows_append, ← h.lastExit]
    exact ⟨h.follows, hn.follows⟩

lemma inSubshell {next : Session Env World → Run Env World} {session : Session Env World}
    (h : (next session).Concludes status) : (inSubshell next session).Concludes status :=
  ⟨h.last, h.lastExit, h.follows⟩

end Run.Concludes

section

variable (interpreter : Interpreter Env World) {cmd : Command}

lemma settle_unit_concludes (session : Session Env World)
    (result : Outcome × Context Env World) :
    (Run.unit cmd session result).settle.Concludes session.lastExit where
  last := rfl
  lastExit := rfl
  follows := by simp [Run.settle, Run.unit, Follows]

lemma settle_executeSimple_concludes (argv : List Word) (redirects : List Redirect)
    (session : Session Env World) :
    (executeSimple interpreter argv redirects session).settle.Concludes session.lastExit := by
  unfold executeSimple
  split_ifs
  · exact ⟨rfl, rfl, by simp [Run.settle, Follows]⟩
  · exact settle_unit_concludes session _

lemma prescribedSequence_cons {command : Command} {rest : List Command} (h : rest ≠ [])
    (session : Session Env World) :
    prescribedSequence interpreter (command :: rest) session =
      (prescribed interpreter command session).followedBy
        (prescribedSequence interpreter rest) := by
  cases rest with
  | nil => contradiction
  | cons next rest =>
    rw [prescribedSequence]
    simp

lemma prescribedSequence_concludes {commands : List Command} (hne : commands ≠ [])
    (h : ∀ c ∈ commands, ∀ session : Session Env World,
      (prescribed interpreter c session).Concludes session.lastExit)
    (session : Session Env World) :
    (prescribedSequence interpreter commands session).Concludes session.lastExit := by
  induction commands generalizing session with
  | nil => contradiction
  | cons command rest ih =>
    have first := h command (List.mem_cons_self ..) session
    cases rest with
    | nil => rwa [prescribedSequence]
    | cons next rest =>
      rw [prescribedSequence_cons _ (by simp)]
      exact first.followedBy (ih (by simp) (fun c hc => h c (List.mem_cons_of_mem _ hc)) _)

/-- The prescribed run is what left to right means: every command sees the status of the one before
it, and the status of the last one is the status of the line. -/
theorem prescribed_concludes (h : cmd.IsList) (session : Session Env World) :
    (prescribed interpreter cmd session).Concludes session.lastExit := by
  induction h generalizing session with
  | simple argv redirects =>
    rw [prescribed]
    exact settle_executeSimple_concludes interpreter argv redirects session
  | pipeline commands =>
    rw [prescribed]
    exact settle_unit_concludes session _
  | background command =>
    rw [prescribed]
    exact settle_unit_concludes session _
  | and _ _ ihl ihr =>
    rw [prescribed]
    split_ifs
    · exact (ihl session).followedBy (ihr _)
    · exact ihl session
  | or _ _ ihl ihr =>
    rw [prescribed]
    split_ifs
    · exact ihl session
    · exact (ihl session).followedBy (ihr _)
  | sequence hne _ ih =>
    rw [prescribed]
    exact prescribedSequence_concludes interpreter hne ih session
  | subshell _ ih =>
    rw [prescribed]
    exact (ih session).inSubshell

end

/-! ### The executed run -/

namespace Undisturbed

variable {lastExit : ℤ} {first second : List Execution}

lemma left (h : Undisturbed lastExit (first ++ second)) : Undisturbed lastExit first where
  expanded e he := h.expanded e (List.mem_append_left _ he)
  known e he := by
    apply h.known e
    rw [List.dropLast_append]
    split_ifs
    · exact he
    · exact List.mem_append_left _ (List.dropLast_subset _ he)

lemma right (h : Undisturbed lastExit (first ++ second)) : Undisturbed lastExit second where
  expanded e he := h.expanded e (List.mem_append_right _ he)
  known e he := by
    apply h.known e
    rw [List.dropLast_append]
    split_ifs with hnil
    · simp [List.isEmpty_iff.mp hnil] at he
    · exact List.mem_append_right _ he

lemma known_of_ne_nil (h : Undisturbed lastExit (first ++ second)) (hne : second ≠ []) :
    ∀ e ∈ first, ∃ code, e.outcome = .ok code := by
  intro e he
  apply h.known e
  rw [List.dropLast_append_of_ne_nil hne]
  exact List.mem_append_left _ he

end Undisturbed

/-- What holds of every run of the shell: `$?` stays what it was, and an error is the last thing. -/
structure Run.Orderly (lastExit : ℤ) (run : Run Env World) : Prop where
  session : run.session.lastExit = lastExit
  undisturbed : Undisturbed lastExit run.executed
  known : ∀ code, run.outcome = .ok code → ∀ e ∈ run.executed, ∃ code, e.outcome = .ok code

namespace Run.Orderly

variable {lastExit : ℤ} {run : Run Env World}

lemma pure (code : ℤ) {session : Session Env World} (h : session.lastExit = lastExit) :
    (Run.pure code session).Orderly lastExit :=
  ⟨h, ⟨by simp [Run.pure], by simp [Run.pure]⟩, by simp [Run.pure]⟩

lemma bind {next : ℤ → Session Env World → Run Env World} (h : run.Orderly lastExit)
    (hn : ∀ code session, session.lastExit = lastExit → (next code session).Orderly lastExit) :
    (run.bind next).Orderly lastExit := by
  cases ho : run.outcome with
  | error e => simpa only [Run.bind, ho] using h
  | ok code =>
    have hr := hn code run.session h.session
    simp only [Run.bind, ho]
    refine ⟨hr.session, ⟨fun e he => ?_, fun e he => ?_⟩, fun c hc e he => ?_⟩
    · obtain he | he := List.mem_append.mp he
      · exact h.undisturbed.expanded e he
      · exact hr.undisturbed.expanded e he
    · rw [List.dropLast_append] at he
      split_ifs at he
      · exact h.undisturbed.known e he
      · obtain he | he := List.mem_append.mp he
        · exact h.known code ho e he
        · exact hr.undisturbed.known e he
    · obtain he | he := List.mem_append.mp he
      · exact h.known code ho e he
      · exact hr.known c hc e he

lemma unit (cmd : Command) (session : Session Env World) (result : Outcome × Context Env World) :
    (Run.unit cmd session result).Orderly session.lastExit :=
  ⟨rfl, ⟨by simp [Run.unit], by simp [Run.unit]⟩, by simp +contextual [Run.unit]⟩

end Run.Orderly

section

variable (interpreter : Interpreter Env World) {cmd : Command}

lemma executeSimple_orderly (argv : List Word) (redirects : List Redirect)
    (session : Session Env World) :
    (executeSimple interpreter argv redirects session).Orderly session.lastExit := by
  unfold executeSimple
  split_ifs
  · exact ⟨rfl, ⟨by simp, by simp⟩, by simp⟩
  · exact Run.Orderly.unit _ session _

lemma sequenceLoop_orderly {commands : List Command}
    (h : ∀ c ∈ commands, ∀ session : Session Env World,
      (executeCommand interpreter c session).Orderly session.lastExit)
    (lastCode : ℤ) (session : Session Env World) :
    (sequenceLoop (executeCommand interpreter) commands lastCode session).Orderly
      session.lastExit := by
  induction commands generalizing lastCode session with
  | nil => exact .pure lastCode rfl
  | cons command rest ih =>
    rw [sequenceLoop]
    apply (h command (List.mem_cons_self ..) session).bind
    intro code next hnext
    rw [← hnext]
    exact ih (fun c hc => h c (List.mem_cons_of_mem _ hc)) code next

lemma executeCommand_pipeline {commands : List Command} (h : 2 ≤ commands.length)
    (session : Session Env World) :
    executeCommand interpreter (.pipeline commands) session =
      .unit (.pipeline commands) session
        (interpreter.pipeline commands session.lastExit session.toContext) := by
  match commands with
  | first :: second :: rest =>
    rw [executeCommand]
    · simp
    · simp

lemma executeCommand_background (command : Command) (session : Session Env World) :
    executeCommand interpreter (.background command) session =
      .unit (.background command) session
        (interpreter.background command session.lastExit session.toContext) := by
  rw [executeCommand]

theorem executeCommand_orderly (h : cmd.IsList) (session : Session Env World) :
    (executeCommand interpreter cmd session).Orderly session.lastExit := by
  induction h generalizing session with
  | simple argv redirects =>
    rw [executeCommand_simple]
    exact executeSimple_orderly interpreter argv redirects session
  | pipeline commands h =>
    rw [executeCommand_pipeline interpreter h]
    exact .unit _ session _
  | background command =>
    rw [executeCommand_background]
    exact .unit _ session _
  | and _ _ ihl ihr =>
    rw [executeCommand_and]
    apply (ihl session).bind
    intro code next hnext
    split_ifs
    · exact .pure code hnext
    · exact hnext ▸ ihr next
  | or _ _ ihl ihr =>
    rw [executeCommand_or]
    apply (ihl session).bind
    intro code next hnext
    split_ifs
    · exact .pure 0 hnext
    · exact hnext ▸ ihr next
  | sequence _ _ ih =>
    rw [executeCommand_sequence]
    exact sequenceLoop_orderly interpreter ih 0 session
  | subshell _ ih =>
    rw [executeCommand_subshell]
    exact ⟨(ih session).session, (ih session).undisturbed, (ih session).known⟩

end

/-! ### Where they agree -/

structure Run.Agrees (run other : Run Env World) : Prop where
  outcome : run.outcome = other.outcome
  executed : run.executed = other.executed
  context : run.session.toContext = other.session.toContext

section

variable (interpreter : Interpreter Env World) {cmd : Command}

lemma unit_agrees {session other : Session Env World}
    (result : ℤ → Context Env World → Outcome × Context Env World)
    (hc : session.toContext = other.toContext)
    (hu : Undisturbed session.lastExit
      (Run.unit cmd other (result other.lastExit other.toContext)).settle.executed) :
    (Run.unit cmd session (result session.lastExit session.toContext)).Agrees
      (Run.unit cmd other (result other.lastExit other.toContext)).settle := by
  have hstatus : other.lastExit = session.lastExit :=
    hu.expanded _ (List.mem_singleton_self _) _ rfl
  constructor <;> simp [Run.unit, Run.settle, hc, hstatus]

lemma executeSimple_agrees (argv : List Word) (redirects : List Redirect)
    {session other : Session Env World} (hc : session.toContext = other.toContext)
    (hu : Undisturbed session.lastExit
      (executeSimple interpreter argv redirects other).settle.executed) :
    (executeSimple interpreter argv redirects session).Agrees
      (executeSimple interpreter argv redirects other).settle := by
  unfold executeSimple at hu ⊢
  split_ifs at hu ⊢ with h
  · exact ⟨rfl, rfl, hc⟩
  · exact unit_agrees (interpreter.simple argv redirects) hc hu

/-- A first command that agrees with what is prescribed and a second one that does. -/
lemma bind_agrees {run other : Run Env World} {code : ℤ}
    {next : ℤ → Session Env World → Run Env World} {second : Session Env World → Run Env World}
    (h : run.Agrees other) (hcode : other.outcome = .ok code)
    (hn : (next code run.session).Agrees (second other.session)) :
    (run.bind next).Agrees (other.followedBy second) := by
  have ho : run.outcome = .ok code := h.outcome.trans hcode
  refine ⟨?_, ?_, ?_⟩
  · simpa only [Run.bind, ho, Run.followedBy] using hn.outcome
  · simp only [Run.bind, ho, Run.followedBy, h.executed, hn.executed]
  · simpa only [Run.bind, ho, Run.followedBy] using hn.context

/-- A first command after which nothing is run. -/
lemma bind_agrees_of_pure {run other : Run Env World}
    {next : ℤ → Session Env World → Run Env World} (h : run.Agrees other)
    (hn : ∀ code, other.outcome = .ok code → next code run.session = .pure code run.session) :
    (run.bind next).Agrees other := by
  cases ho : run.outcome with
  | error e => simpa only [Run.bind, ho] using h
  | ok code =>
    have hnext := hn code (h.outcome.symm.trans ho)
    refine ⟨?_, ?_, ?_⟩
    · simp only [Run.bind, ho, hnext, Run.pure, ← h.outcome]
    · simp only [Run.bind, ho, hnext, Run.pure, List.append_nil, h.executed]
    · simpa only [Run.bind, ho, hnext, Run.pure] using h.context

/-- Before another command, what is prescribed comes to a status. -/
lemma outcome_of_undisturbed {lastExit status : ℤ} {run : Run Env World}
    {second : Session Env World → Run Env World} (hr : run.Concludes status)
    (hs : (second run.session).executed ≠ [])
    (hu : Undisturbed lastExit (run.followedBy second).executed) :
    ∃ code, run.outcome = .ok code := by
  obtain ⟨e, he, heq⟩ := hr.exists_mem
  obtain ⟨code, hcode⟩ := hu.known_of_ne_nil hs e he
  exact ⟨code, heq ▸ hcode⟩

lemma sequenceLoop_agrees {commands : List Command} (hne : commands ≠ [])
    (hl : ∀ c ∈ commands, c.IsList)
    (h : ∀ c ∈ commands, ∀ session other : Session Env World,
      session.toContext = other.toContext →
      Undisturbed session.lastExit (prescribed interpreter c other).executed →
      (executeCommand interpreter c session).Agrees (prescribed interpreter c other))
    (lastCode : ℤ) {session other : Session Env World} (hc : session.toContext = other.toContext)
    (hu : Undisturbed session.lastExit (prescribedSequence interpreter commands other).executed) :
    (sequenceLoop (executeCommand interpreter) commands lastCode session).Agrees
      (prescribedSequence interpreter commands other) := by
  induction commands generalizing lastCode session other with
  | nil => contradiction
  | cons command rest ih =>
    have hcmd := hl command (List.mem_cons_self ..)
    rw [sequenceLoop]
    cases rest with
    | nil =>
      rw [prescribedSequence] at hu ⊢
      exact bind_agrees_of_pure (h command (List.mem_cons_self ..) session other hc hu)
        fun code _ => rfl
    | cons next rest =>
      rw [prescribedSequence_cons _ (by simp)] at hu ⊢
      have first := h command (List.mem_cons_self ..) session other hc hu.left
      have hrest : next :: rest ≠ [] := by simp
      have hsecond := prescribedSequence_concludes interpreter hrest
        (fun c hc => prescribed_concludes interpreter (hl c (List.mem_cons_of_mem _ hc)))
        (prescribed interpreter command other).session
      obtain ⟨code, hcode⟩ := outcome_of_undisturbed
        (prescribed_concludes interpreter hcmd other) hsecond.ne_nil hu
      apply bind_agrees first hcode
      apply ih (by simp) (fun c hc => hl c (List.mem_cons_of_mem _ hc))
        (fun c hc => h c (List.mem_cons_of_mem _ hc)) code first.context
      rw [(executeCommand_orderly interpreter hcmd session).session]
      exact hu.right

/-- Where the prescribed run is undisturbed, the shell does it. -/
theorem executeCommand_agrees (h : cmd.IsList) {session other : Session Env World}
    (hc : session.toContext = other.toContext)
    (hu : Undisturbed session.lastExit (prescribed interpreter cmd other).executed) :
    (executeCommand interpreter cmd session).Agrees (prescribed interpreter cmd other) := by
  induction h generalizing session other with
  | simple argv redirects =>
    rw [prescribed] at hu ⊢
    rw [executeCommand_simple]
    exact executeSimple_agrees interpreter argv redirects hc hu
  | pipeline commands h =>
    rw [prescribed] at hu ⊢
    rw [executeCommand_pipeline interpreter h]
    exact unit_agrees (interpreter.pipeline commands) hc hu
  | background command =>
    rw [prescribed] at hu ⊢
    rw [executeCommand_background]
    exact unit_agrees (interpreter.background command) hc hu
  | and hl hr ihl ihr =>
    rename_i left right
    rw [executeCommand_and]
    rw [prescribed] at hu ⊢
    split_ifs at hu ⊢ with hfirst
    · have first := ihl hc hu.left
      have hsecond :=
        prescribed_concludes interpreter hr (prescribed interpreter left other).session
      obtain ⟨code, hcode⟩ := outcome_of_undisturbed (prescribed_concludes interpreter hl other)
        hsecond.ne_nil hu
      apply bind_agrees first hcode
      have hzero : code = 0 := by simpa [hcode, Outcome.status] using hfirst
      rw [if_neg (by simpa using hzero)]
      apply ihr first.context
      rw [(executeCommand_orderly interpreter hl session).session]
      exact hu.right
    · apply bind_agrees_of_pure (ihl hc hu)
      intro code hcode
      rw [if_pos (by simpa [hcode, Outcome.status] using hfirst)]
  | or hl hr ihl ihr =>
    rename_i left right
    rw [executeCommand_or]
    rw [prescribed] at hu ⊢
    split_ifs at hu ⊢ with hfirst
    · apply bind_agrees_of_pure (ihl hc hu)
      intro code hcode
      have hzero : code = 0 := by simpa [hcode, Outcome.status] using hfirst
      rw [if_pos hzero, hzero]
    · have first := ihl hc hu.left
      have hsecond :=
        prescribed_concludes interpreter hr (prescribed interpreter left other).session
      obtain ⟨code, hcode⟩ := outcome_of_undisturbed (prescribed_concludes interpreter hl other)
        hsecond.ne_nil hu
      apply bind_agrees first hcode
      rw [if_neg (by simpa [hcode, Outcome.status] using hfirst)]
      apply ihr first.context
      rw [(executeCommand_orderly interpreter hl session).session]
      exact hu.right
  | sequence hne hl ih =>
    rw [executeCommand_sequence]
    rw [prescribed] at hu ⊢
    exact sequenceLoop_agrees interpreter hne hl (fun c hc _ _ => ih c hc) 0 hc hu
  | subshell _ ih =>
    rw [executeCommand_subshell]
    rw [prescribed] at hu ⊢
    have inner := ih hc hu
    refine ⟨inner.outcome, inner.executed, ?_⟩
    have hworld := congrArg Context.world inner.context
    have hcwd := congrArg Context.cwd hc
    have henv := congrArg Context.env hc
    simp only [inSubshell, hworld, hcwd, henv]

lemma execute_of_isList (h : cmd.IsList) (session : Session Env World) :
    (execute interpreter cmd session).outcome = (executeCommand interpreter cmd session).outcome ∧
      (execute interpreter cmd session).executed =
        (executeCommand interpreter cmd session).executed := by
  have hne : cmd.isEmpty = false := by cases h <;> rfl
  rw [execute, hne]
  cases ho : (executeCommand interpreter cmd session).outcome with
  | error e => simp [Run.bind, ho]
  | ok code => simp [Run.bind, ho, Run.pure]

/-- A line runs as the semantics prescribe exactly when in the prescribed run no command but the
last is unknown, and words are expanded only while the status of the command before is what `$?` was
when the line began. -/
theorem runsAsPrescribed_iff (h : cmd.IsList) (session : Session Env World) :
    RunsAsPrescribed interpreter cmd session ↔
      Undisturbed session.lastExit (prescribed interpreter cmd session).executed := by
  obtain ⟨houtcome, hexecuted⟩ := execute_of_isList interpreter h session
  constructor
  · intro hrun
    rw [← hrun.executed, hexecuted]
    exact (executeCommand_orderly interpreter h session).undisturbed
  · intro hu
    have agrees := executeCommand_agrees interpreter h rfl hu
    exact ⟨hexecuted.trans agrees.executed, houtcome.trans agrees.outcome⟩

end

/-- `true`, `false` and `echo`. -/
def threeCommands : Interpreter Unit Unit where
  simple argv _ _ context :=
    match argv.head? with
    | some name =>
      if name = .unquoted "true".toList ∨ name = .unquoted "echo".toList then (.ok 0, context)
      else if name = .unquoted "false".toList then (.ok 1, context)
      else (.error (.commandNotFound []), context)
    | none => (.ok 0, context)
  pipeline _ _ context := (.ok 0, context)
  background _ _ context := (.ok 0, context)

def emptySession : Session Unit Unit :=
  { cwd := "/workspace".toList, env := (), world := (), lastExit := 0 }

/-- `nosuch || echo` does not run `echo`, and in `false ; echo $?` the status shown is that of the
line before. -/
theorem not_runsAsPrescribed :
    ¬ RunsAsPrescribed threeCommands
        (.or (.simple [.unquoted "nosuch".toList] []) (.simple [.unquoted "echo".toList] []))
        emptySession ∧
      ¬ RunsAsPrescribed threeCommands
        (.sequence [.simple [.unquoted "false".toList] [],
          .simple [.unquoted "echo".toList, .unquoted "$?".toList] []]) emptySession := by
  constructor
  · intro h
    have hlength := congrArg List.length h.executed
    revert hlength
    decide +kernel
  · intro h
    have hshown := congrArg (List.map Execution.lastExit) h.executed
    revert hshown
    decide +kernel

/-- `true && echo` runs as prescribed. -/
theorem runsAsPrescribed_true_echo :
    RunsAsPrescribed threeCommands
      (.and (.simple [.unquoted "true".toList] []) (.simple [.unquoted "echo".toList] []))
      emptySession := by
  rw [runsAsPrescribed_iff threeCommands (.and (.simple ..) (.simple ..))]
  constructor
  · decide +kernel
  · intro e he
    have first : (prescribed threeCommands (.and (.simple [.unquoted "true".toList] [])
        (.simple [.unquoted "echo".toList] [])) emptySession).executed.dropLast.map
          Execution.outcome = [.ok 0] := by
      decide +kernel
    have := List.mem_map_of_mem (f := Execution.outcome) he
    rw [first, List.mem_singleton] at this
    exact ⟨0, this⟩

end AmlaSandbox.Shell
