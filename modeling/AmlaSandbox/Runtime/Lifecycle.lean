import AmlaSandbox.Runtime.Ledger

/-!
# The lifecycle of a command

Every call on a runtime makes moves on its ledger, from which the invariant of its history and the
lifecycle of its commands follow.
-/

namespace AmlaSandbox.Runtimes

open Host Scheduling

variable {E : Engine}

namespace Runtime

variable {rt : Runtime E} {history : History} {handle : CommandHandle}

/-! ### What leaves the ledger as it is -/

@[simp] lemma ledger_engine (engine : E.State) : { rt with engine }.ledger = rt.ledger := rfl

@[simp] lemma ledger_audit (entry : LogEntry) : (rt.audit entry).ledger = rt.ledger := rfl

@[simp] lemma ledger_now : rt.now.2.ledger = rt.ledger := rfl

@[simp] lemma ledger_completeSilently (id : HostOpId) :
    (rt.completeSilently id).ledger = rt.ledger := rfl

@[simp] lemma ledger_cancelTask (taskHandle : Option TaskHandle) :
    (rt.cancelTask taskHandle).ledger = rt.ledger := rfl

@[simp] lemma ledger_setCommand (cmd : CommandState) :
    (rt.setCommand handle cmd).ledger = rt.ledger.setCommand handle cmd := rfl

@[simp] lemma ledger_flushStream (stream : UInt8) (streamName : String) :
    (rt.flushStream handle stream streamName).2.ledger = rt.ledger := by
  simp only [flushStream]
  split_ifs <;> rfl

@[simp] lemma ledger_flushError (errorMsg : Option String) :
    (rt.flushError handle errorMsg).2.ledger = rt.ledger := by
  cases errorMsg <;> rfl

lemma ledger_flushOutputAndExit (cmd : CommandState) (exitCode : Int32) (errorMsg : Option String)
    (currentTimeNs : UInt64) :
    (rt.flushOutputAndExit cmd handle exitCode errorMsg currentTimeNs).2.ledger = rt.ledger := by
  simp [flushOutputAndExit]

@[simp] lemma ledger_completeResult (result : HostOpResult) :
    (rt.completeResult result).2.ledger = rt.ledger := by
  simp only [completeResult]
  split
  · rfl
  · rfl
  · split <;> rfl

/-! ### Exit reports -/

lemma flushStream_fst (stream : UInt8) (streamName : String) :
    (rt.flushStream handle stream streamName).1 =
      bufferedOutput E rt.id handle stream rt.engine := by
  simp only [flushStream, bufferedOutput]
  split_ifs <;> rfl

lemma flushStream_engine (stream : UInt8) (streamName : String) :
    (rt.flushStream handle stream streamName).2.engine =
      (E.takeBuffered handle stream rt.engine).2 := by
  simp only [flushStream]
  split_ifs <;> rfl

lemma flushStream_id (stream : UInt8) (streamName : String) :
    (rt.flushStream handle stream streamName).2.id = rt.id :=
  congrArg Ledger.id (ledger_flushStream stream streamName)

lemma flushError_fst (errorMsg : Option String) :
    (rt.flushError handle errorMsg).1 = errorOutput rt.id handle errorMsg := by
  cases errorMsg <;> rfl

lemma flushError_id (errorMsg : Option String) : (rt.flushError handle errorMsg).2.id = rt.id :=
  congrArg Ledger.id (ledger_flushError errorMsg)

lemma flushOutputAndExit_fst (cmd : CommandState) (exitCode : Int32) (errorMsg : Option String)
    (currentTimeNs : UInt64) :
    (rt.flushOutputAndExit cmd handle exitCode errorMsg currentTimeNs).1 =
      exitReport E rt.id handle rt.engine exitCode errorMsg
        (saturatingSub currentTimeNs cmd.startTimeNs) cmd.userTimeNs := by
  simp only [flushOutputAndExit, exitReport, flushStream_fst, flushError_fst, notification,
    flushError_id, flushStream_id, flushStream_engine]

end Runtime

section Exposing

variable {l : Ledger} {history : History} {handle : CommandHandle}

/-- Outputs of a command that may still run. -/
lemma moves_outputs {ops : List PendingHostOp} (howns : l.Owns handle)
    (hops : ∀ op ∈ ops, op.command = some handle ∧
      ∃ stream data, op.request = .output stream data) :
    Moves (l, history) (l, .expose ops history) := by
  induction ops generalizing history with
  | nil => exact .refl
  | cons op ops ih =>
    obtain ⟨⟨hcommand, stream, data, hrequest⟩, hrest⟩ := List.forall_mem_cons.mp hops
    rw [History.expose_cons]
    refine .head (.expose (by rw [hrequest]; rfl) (fun h hh => ?_) ?_) (ih hrest)
    · obtain rfl := Option.some.inj (hcommand.symm.trans hh)
      exact howns
    · rw [hrequest]
      intro hread
      cases hread

lemma bufferedOutput_output {id : RuntimeId} {stream : UInt8} {s : E.State} {op : PendingHostOp}
    (hop : op ∈ bufferedOutput E id handle stream s) :
    op.command = some handle ∧ ∃ stream data, op.request = .output stream data := by
  rw [bufferedOutput] at hop
  split_ifs at hop
  · cases hop
  · rw [List.mem_singleton.mp hop]
    exact ⟨rfl, stream, _, rfl⟩

lemma errorOutput_output {id : RuntimeId} {errorMsg : Option String} {op : PendingHostOp}
    (hop : op ∈ errorOutput id handle errorMsg) :
    op.command = some handle ∧ ∃ stream data, op.request = .output stream data := by
  obtain ⟨msg, _, rfl⟩ := List.mem_map.mp hop
  exact ⟨rfl, 2, _, rfl⟩

/-- The report of the exit of a live command, which becomes inactive. -/
lemma moves_exitReport {code : Int32} (id : RuntimeId) (s : E.State) (cmd : CommandState)
    (errorMsg : Option String) (elapsedNs userTimeNs : UInt64) (hlive : l.Live handle)
    (hidle : cmd.active = false) (htask : cmd.taskHandle = none)
    (hcode : cmd.cancelled → code = -1) :
    Moves (l, history) (l.setCommand handle cmd,
      .expose (exitReport E id handle s code errorMsg elapsedNs userTimeNs) history) := by
  obtain ⟨old, hlookup, hactive⟩ := hlive
  rw [exitReport, History.expose_append]
  refine .trans (moves_outputs ⟨old, hlookup, Or.inl hactive⟩ fun op hop => ?_)
    (.single (.exit rfl rfl ⟨old, hlookup, hactive⟩ hidle htask hcode))
  rcases List.mem_append.mp hop with hop | hop
  · rcases List.mem_append.mp hop with hop | hop
    · exact bufferedOutput_output hop
    · exact bufferedOutput_output hop
  · exact errorOutput_output hop

end Exposing

lemma Request.exists_of_isReadStdin {request : Request} (h : request.isReadStdin) :
    ∃ maxBytes, request = .readStdin maxBytes := by
  cases request with
  | readStdin maxBytes => exact ⟨maxBytes, rfl⟩
  | wakeAt | toolCall | vfsRead | output | commandExit => cases h

namespace Runtime

variable {rt : Runtime E} {history : History} {handle : CommandHandle}

/-! ### Collecting operations -/

lemma convertHostOp_isExit {kind : HostOpKind} {request : Request}
    (h : convertHostOp kind = some request) (hexit : ∀ code, kind ≠ .commandExit code) :
    request.isExit = false := by
  cases kind with
  | commandExit code => exact absurd rfl (hexit code)
  | wakeAt | fileRead | fileReadRange | custom | print | readStdin =>
    obtain rfl := Option.some.inj h
    rfl

lemma owns_of_ownerOf {root : TaskIdRepr} (h : rt.ownerOf root = some handle) :
    rt.ledger.Owns handle := by
  have hfound := List.find?_some h
  rw [decide_eq_true_eq, Option.bind_eq_some_iff] at hfound
  obtain ⟨task, htask, _⟩ := hfound
  obtain ⟨cmd, hlookup, htask⟩ := Option.bind_eq_some_iff.mp htask
  exact ⟨cmd, hlookup, Or.inr (by rw [htask]; rfl)⟩

/-- An operation of the scheduler that is not an exit. -/
lemma collectOp_spec (rt : Runtime E) (history : History) {req : HostOpRequest}
    (hexit : ∀ code, req.kind ≠ .commandExit code) :
    Moves (rt.ledger, history) ((rt.collectOp req).2.ledger, .expose (rt.collectOp req).1 history) ∧
      (∀ op ∈ (rt.collectOp req).1, op.request.isExit = false) ∧
      (rt.collectOp req).2.commands = rt.commands := by
  have howner : ∀ h, req.taskId.bind rt.ownerOf = some h → rt.ledger.Owns h := by
    intro h hh
    obtain ⟨root, _, hroot⟩ := Option.bind_eq_some_iff.mp hh
    exact owns_of_ownerOf hroot
  cases hrequest : convertHostOp req.kind with
  | none => simp [collectOp, hrequest, Relation.ReflTransGen.refl, completeSilently]
  | some request =>
    have hnoExit := convertHostOp_isExit hrequest hexit
    have hplain : (request.isReadStdin → req.taskId.bind rt.ownerOf = none) →
        Moves (rt.ledger, history) (rt.ledger, .expose
          [{ id := req.id, runtimeId := rt.id, command := req.taskId.bind rt.ownerOf, request }]
          history) :=
      fun hread => .single (.expose hnoExit howner hread)
    simp only [collectOp, hrequest]
    split
    · rename_i request maxBytes h hcommand
      split_ifs with hclosed
      · exact ⟨.refl, by simp, rfl⟩
      · refine ⟨.single (.exposeRead ⟨req.id, rt.id, _, .readStdin maxBytes⟩ h rfl hcommand
          (howner h hcommand) hclosed), ?_, rfl⟩
        simp [Request.isExit]
    · rename_i request hstdin
      refine ⟨hplain fun hread => ?_, by simpa using hnoExit, rfl⟩
      cases hcommand : req.taskId.bind rt.ownerOf with
      | none => rfl
      | some h =>
        obtain ⟨maxBytes, hreq⟩ := Request.exists_of_isReadStdin hread
        exact absurd hcommand (hstdin maxBytes h hreq)

lemma collectOps_spec (fuel : Nat) (rt : Runtime E) (history : History) :
    Moves (rt.ledger, history)
        ((collectOps fuel rt).2.ledger, .expose (collectOps fuel rt).1 history) ∧
      (∀ op ∈ (collectOps fuel rt).1, op.request.isExit = false) ∧
      (collectOps fuel rt).2.commands = rt.commands := by
  induction fuel generalizing rt history with
  | zero => exact ⟨.refl, by simp [collectOps], rfl⟩
  | succ fuel ih =>
    rw [collectOps]
    split
    · exact ⟨.refl, by simp, rfl⟩
    · rename_i req engine htake
      have hexit : ∀ code, req.kind ≠ .commandExit code :=
        E.noGuestExit rt.engine req (congrArg Prod.fst htake)
      obtain ⟨hmoves, hops, hcommands⟩ :=
        collectOp_spec { rt with engine } history hexit
      obtain ⟨hmoves', hops', hcommands'⟩ := ih ({ rt with engine }.collectOp req).2
        (.expose ({ rt with engine }.collectOp req).1 history)
      refine ⟨?_, ?_, hcommands'.trans hcommands⟩
      · rw [History.expose_append]
        exact hmoves.trans hmoves'
      · exact List.forall_mem_append.mpr ⟨hops, hops'⟩

lemma runScheduler_spec (steps : Nat) (rt : Runtime E) (history : History) :
    Moves (rt.ledger, history)
        ((runScheduler steps rt).2.ledger, .expose (runScheduler steps rt).1 history) ∧
      (∀ op ∈ (runScheduler steps rt).1, op.request.isExit = false) ∧
      (runScheduler steps rt).2.commands = rt.commands := by
  induction steps generalizing rt history with
  | zero => exact ⟨.refl, by simp [runScheduler], rfl⟩
  | succ steps ih =>
    obtain ⟨hmoves, hops, hcommands⟩ := collectOps_spec (E.queueLength (E.runStep rt.engine).2)
      { rt with engine := (E.runStep rt.engine).2 } history
    rw [ledger_engine] at hmoves
    simp only [runScheduler]
    split_ifs
    · obtain ⟨hmoves', hops', hcommands'⟩ := ih (collectOps (E.queueLength (E.runStep rt.engine).2)
          { rt with engine := (E.runStep rt.engine).2 }).2 (.expose (collectOps
            (E.queueLength (E.runStep rt.engine).2) { rt with engine := (E.runStep rt.engine).2 }).1
          history)
      refine ⟨?_, List.forall_mem_append.mpr ⟨hops, hops'⟩, hcommands'.trans hcommands⟩
      rw [History.expose_append]
      exact hmoves.trans hmoves'
    · exact ⟨hmoves, hops, hcommands⟩

/-! ### Stepping -/

lemma moves_startCommand (rt : Runtime E) (handle : CommandHandle) :
    Moves (rt.ledger, history) ((rt.startCommand handle).ledger, history) := by
  rw [startCommand]
  split
  · exact .refl
  · rename_i cmd hlookup
    split_ifs with hskip
    · exact .refl
    · have hactive : cmd.active = true := by
        cases hactive : cmd.active with
        | true => rfl
        | false => simp [hactive] at hskip
      refine .single (.update hlookup rfl rfl fun hidle => ?_)
      exact absurd (hactive.symm.trans hidle) (by decide)

lemma moves_accumulateTime (rt : Runtime E) (elapsedNs : UInt64) (handle : CommandHandle) :
    Moves (rt.ledger, history) ((rt.accumulateTime elapsedNs handle).ledger, history) := by
  rw [accumulateTime]
  split
  · exact .refl
  · rename_i cmd hlookup
    split_ifs with hactive
    · refine .single (.update hlookup rfl rfl fun hidle => ?_)
      exact absurd (hactive.symm.trans hidle) (by decide)
    · exact .refl

lemma moves_foldl (history : History) {f : Runtime E → CommandHandle → Runtime E}
    (hf : ∀ rt handle, Moves (rt.ledger, history) ((f rt handle).ledger, history))
    (handles : List CommandHandle) (rt : Runtime E) :
    Moves (rt.ledger, history) ((handles.foldl f rt).ledger, history) := by
  induction handles generalizing rt with
  | nil => exact .refl
  | cons handle rest ih => exact (hf rt handle).trans (ih (f rt handle))

/-- What `finishCommand` does: nothing but a query of the task, or a whole report. -/
lemma finishCommand_cases (rt : Runtime E) (stepEndNs : UInt64) (handle : CommandHandle) :
    ((rt.finishCommand stepEndNs handle).1 = [] ∧
        (rt.finishCommand stepEndNs handle).2.ledger = rt.ledger) ∨
      ∃ cmd taskHandle result engine, rt.commands.lookup handle = some cmd ∧ cmd.active ∧
        cmd.taskHandle = some taskHandle ∧
        E.tryGet taskHandle rt.engine = (some result, engine) ∧
        (rt.finishCommand stepEndNs handle).1 = exitReport E rt.id handle engine (exitOf result).1
          (exitOf result).2 (saturatingSub stepEndNs cmd.startTimeNs) cmd.userTimeNs ∧
        (rt.finishCommand stepEndNs handle).2.ledger = rt.ledger.setCommand handle
          { cmd with
            exitCode := some (exitOf result).1, taskHandle := none, execution := false } := by
  rw [finishCommand]
  split
  · exact Or.inl ⟨rfl, rfl⟩
  · rename_i cmd hlookup
    split_ifs with hactive
    · exact Or.inl ⟨rfl, rfl⟩
    · split
      · exact Or.inl ⟨rfl, rfl⟩
      · rename_i taskHandle htask
        split
        · exact Or.inl ⟨rfl, rfl⟩
        · rename_i result engine hget
          refine Or.inr ⟨cmd, taskHandle, result, engine, hlookup, by simpa using hactive, htask,
            hget, ?_, ?_⟩
          · exact flushOutputAndExit_fst _ _ _ _
          · exact ledger_flushOutputAndExit _ _ _ _

lemma moves_finishCommand (rt : Runtime E) (stepEndNs : UInt64) (handle : CommandHandle) :
    Moves (rt.ledger, history) ((rt.finishCommand stepEndNs handle).2.ledger,
      .expose (rt.finishCommand stepEndNs handle).1 history) := by
  rcases rt.finishCommand_cases stepEndNs handle with
    ⟨hops, hledger⟩ | ⟨cmd, _, result, _, hlookup, hactive, _, _, hops, hledger⟩
  · rw [hops, hledger]
    exact .refl
  · rw [hops, hledger]
    refine moves_exitReport _ _ _ _ _ _ ⟨cmd, hlookup, hactive⟩ rfl rfl fun hcancelled => ?_
    -- an active command is not cancelled
    simp only [CommandState.active, Bool.and_eq_true, Bool.not_eq_true'] at hactive
    exact absurd (hactive.2.symm.trans hcancelled) (by decide)

lemma moves_finishCommands (stepEndNs : UInt64) (handles : List CommandHandle) (rt : Runtime E)
    (history : History) :
    Moves (rt.ledger, history) ((finishCommands stepEndNs handles rt).2.ledger,
      .expose (finishCommands stepEndNs handles rt).1 history) := by
  induction handles generalizing rt history with
  | nil => exact .refl
  | cons handle rest ih =>
    simp only [finishCommands]
    rw [History.expose_append]
    exact (rt.moves_finishCommand stepEndNs handle).trans (ih _ _)

lemma moves_step (rt : Runtime E) (history : History) :
    Moves (rt.ledger, history) (rt.step.2.ledger, .expose rt.step.1.hostOps history) := by
  simp only [step]
  rw [History.expose_append]
  have hrun := (runScheduler_spec maxSteps (rt.handles.foldl startCommand rt).now.2 history).1
  rw [ledger_now] at hrun
  refine ((moves_foldl history moves_startCommand rt.handles rt).trans hrun).trans ?_
  exact (moves_foldl _ (fun rt => rt.moves_accumulateTime _) rt.handles (Runtime.now _).2).trans
    (moves_finishCommands _ _ _ _)

/-! ### The other calls -/

lemma lookup_foldl_erase (ids : List HostOpId) (ops : AList fun _ : HostOpId => CommandHandle)
    (id : HostOpId) :
    (ids.foldl (fun ops id => ops.erase id) ops).lookup id =
      if id ∈ ids then none else ops.lookup id := by
  induction ids generalizing ops with
  | nil => rfl
  | cons first rest ih =>
    rw [List.foldl_cons, ih]
    by_cases hrest : id ∈ rest
    · simp [hrest]
    · by_cases heq : id = first
      · subst heq
        simp [hrest]
      · simp [hrest, heq]

lemma lookup_forgetStdin {id : HostOpId} {h : CommandHandle} :
    (rt.forgetStdin handle).pendingStdinOps.lookup id = some h ↔
      rt.pendingStdinOps.lookup id = some h ∧ h ≠ handle := by
  simp only [forgetStdin, lookup_foldl_erase, List.mem_filter, decide_eq_true_eq]
  constructor
  · intro hlookup
    split_ifs at hlookup with hmem
    refine ⟨hlookup, ?_⟩
    rintro rfl
    exact hmem ⟨AList.mem_keys.mpr (AList.lookup_isSome.mp (by rw [hlookup]; rfl)), hlookup⟩
  · rintro ⟨hlookup, hne⟩
    rw [if_neg, hlookup]
    rintro ⟨_, hmine⟩
    exact hne (Option.some.inj (hlookup.symm.trans hmine))

/-- What `cancelCommand` does: nothing, or it cancels the task and makes a whole report. -/
lemma cancelCommand_cases (rt : Runtime E) (handle : CommandHandle) :
    ((rt.cancelCommand handle).1 = [] ∧ (rt.cancelCommand handle).2.ledger = rt.ledger) ∨
      ∃ cmd, rt.commands.lookup handle = some cmd ∧ cmd.active ∧
        (rt.cancelCommand handle).1 = exitReport E rt.id handle
          (rt.cancelTask cmd.taskHandle).now.2.engine (-1) none
          (saturatingSub (rt.cancelTask cmd.taskHandle).now.1 cmd.startTimeNs) cmd.userTimeNs ∧
        (rt.cancelCommand handle).2.ledger = ((rt.setCommand handle { cmd with
          cancelled := true, exitCode := some (-1), taskHandle := none,
          execution := false }).forgetStdin handle).ledger := by
  rw [cancelCommand]
  split
  · exact Or.inl ⟨rfl, rfl⟩
  · rename_i cmd hlookup
    split_ifs with hactive
    · exact Or.inl ⟨rfl, rfl⟩
    · refine Or.inr ⟨cmd, hlookup, by simpa using hactive, ?_, ?_⟩
      · exact flushOutputAndExit_fst _ _ _ _
      · exact ledger_flushOutputAndExit _ _ _ _

lemma moves_cancelCommand (rt : Runtime E) (handle : CommandHandle) (history : History) :
    Moves (rt.ledger, history) ((rt.cancelCommand handle).2.ledger,
      .expose (rt.cancelCommand handle).1 history) := by
  rcases rt.cancelCommand_cases handle with
    ⟨hops, hledger⟩ | ⟨cmd, hlookup, hactive, hops, hledger⟩
  · rw [hops, hledger]
    exact .refl
  · rw [hops, hledger]
    refine .trans (moves_exitReport rt.id (rt.cancelTask cmd.taskHandle).now.2.engine { cmd with
        cancelled := true, exitCode := some (-1), taskHandle := none, execution := false } none
      (saturatingSub (rt.cancelTask cmd.taskHandle).now.1 cmd.startTimeNs) cmd.userTimeNs
      ⟨cmd, hlookup, hactive⟩ rfl rfl fun _ => rfl) (.single ?_)
    refine .forget handle ?_ (fun h => ?_) fun id h => ?_
    · rw [Ledger.live_setCommand, if_pos rfl]
      exact Bool.false_ne_true
    · change h ∈ rt.stdinClosedCommands.filter (· ≠ handle) ↔ _
      rw [List.mem_filter, decide_eq_true_eq]
      exact Iff.rfl
    · exact lookup_forgetStdin

lemma moves_createCommand (rt : Runtime E) (command : Text) :
    Moves (rt.ledger, history) ((rt.createCommand command).2.ledger, history) := by
  simp only [createCommand]
  split_ifs
  · exact .refl
  · exact .single (.create rfl)

lemma moves_deleteCommand (rt : Runtime E) (handle : CommandHandle) :
    Moves (rt.ledger, history) ((rt.deleteCommand handle).ledger, history) :=
  .single (.delete handle)

lemma trackStdin_of_not_isStdinData {result : HostOpResult}
    (h : result.result.isStdinData = false) : rt.trackStdin result = rt := by
  rw [trackStdin]
  split
  · rename_i hresult
    rw [hresult] at h
    cases h
  · rename_i hresult
    rw [hresult] at h
    cases h
  · rfl

lemma lookup_erase_iff {ops : AList fun _ : HostOpId => CommandHandle} {id id' : HostOpId}
    {h : CommandHandle} :
    (ops.erase id').lookup id = some h ↔ ops.lookup id = some h ∧ id' ≠ id := by
  by_cases heq : id = id'
  · subst heq
    simp
  · simp [AList.lookup_erase_ne heq, Ne.symm heq]

lemma move_trackStdin (rt : Runtime E) {result : HostOpResult} (hmine : result.runtimeId = rt.id)
    (history : History) :
    Move (rt.ledger, history) ((rt.trackStdin result).ledger, .submitted result :: history) := by
  have hmentions : ∀ id, (Note.submitted result).Mentions rt.id id ↔
      result.id = id ∧ result.result.isStdinData := fun id => by simp [Note.Mentions, hmine]
  have hends : ∀ id, (Note.submitted result).EndsStdin rt.id id ↔
      result.id = id ∧ result.result.isEof := fun id => by simp [Note.EndsStdin, hmine]
  cases hdata : result.result with
  | stdinData data eof =>
    cases eof with
    | true =>
      cases hlookup : rt.pendingStdinOps.lookup result.id with
      | some handle =>
        simp only [trackStdin, hdata, hlookup]
        refine .submit (l := rt.ledger) (fun id h => ?_) fun h => ?_
        · rw [lookup_erase_iff]
          simp [ledger, hmentions, hdata, HostOpResponse.isStdinData]
        · simp only [hends, hdata, HostOpResponse.isEof, ledger, List.mem_cons, and_true]
          constructor
          · rintro (rfl | hmem)
            · exact Or.inr ⟨result.id, rfl, hlookup⟩
            · exact Or.inl hmem
          · rintro (hmem | ⟨id, rfl, hid⟩)
            · exact Or.inr hmem
            · exact Or.inl (Option.some.inj (hid.symm.trans hlookup))
      | none =>
        simp only [trackStdin, hdata, hlookup]
        refine .submit (l := rt.ledger) (fun id h => ?_) fun h => ?_
        · simp only [ledger, hmentions, hdata, HostOpResponse.isStdinData, and_true]
          refine ⟨fun hid => ⟨hid, ?_⟩, And.left⟩
          rintro rfl
          exact absurd (hlookup.symm.trans hid) (by simp)
        · simp only [ledger, hends, hdata, HostOpResponse.isEof, and_true]
          refine ⟨Or.inl, ?_⟩
          rintro (hmem | ⟨id, rfl, hid⟩)
          · exact hmem
          · exact absurd (hlookup.symm.trans hid) (by simp)
    | false =>
      simp only [trackStdin, hdata]
      refine .submit (l := rt.ledger) (fun id h => ?_) fun h => ?_
      · rw [lookup_erase_iff]
        simp [ledger, hmentions, hdata, HostOpResponse.isStdinData]
      · simp [ledger, hends, hdata, HostOpResponse.isEof]
  | wokeAt | toolResult | toolResultChunk | toolResultError | vfsData | outputAck | exitAck |
    delegateResult | error =>
    rw [trackStdin_of_not_isStdinData (by rw [hdata]; rfl)]
    refine .submit (l := rt.ledger) (fun id h => ?_) fun h => ?_
    · simp [ledger, hmentions, hdata, HostOpResponse.isStdinData]
    · simp [ledger, hends, hdata, HostOpResponse.isEof]

lemma move_submitForeign (rt : Runtime E) {result : HostOpResult}
    (hforeign : result.runtimeId ≠ rt.id) (history : History) :
    Move (rt.ledger, history) (rt.ledger, .submitted result :: history) := by
  refine .submit (l := rt.ledger) (fun id h => ?_) fun h => ?_
  · simp [Note.Mentions, ledger, hforeign]
  · simp [Note.EndsStdin, ledger, hforeign]

lemma moves_submitResults (results : List HostOpResult) (rt : Runtime E) (history : History) :
    Moves (rt.ledger, history)
      ((submitResults results rt).2.ledger, .submit results history) := by
  induction results generalizing rt history with
  | nil => exact .refl
  | cons result rest ih =>
    rw [History.submit_cons]
    simp only [submitResults, submitResult]
    split_ifs with hforeign
    · exact .head (rt.move_submitForeign hforeign history) (ih rt _)
    · have hrest := ih ((rt.trackStdin result).completeResult result).2
        (.submitted result :: history)
      rw [ledger_completeResult] at hrest
      exact .head (rt.move_trackStdin (not_not.mp hforeign) history) hrest

end Runtime

/-! ### Runs -/

namespace Run

variable {run : Run E}

lemma moves_apply (run : Run E) (event : Event) :
    Moves (run.runtime.ledger, run.history)
      ((run.apply event).runtime.ledger, (run.apply event).history) := by
  cases event with
  | createCommand command => exact run.runtime.moves_createCommand command
  | step => exact run.runtime.moves_step run.history
  | submitResults results => exact Runtime.moves_submitResults results run.runtime run.history
  | cancelCommand handle => exact run.runtime.moves_cancelCommand handle run.history
  | deleteCommand handle => exact run.runtime.moves_deleteCommand handle

lemma moves_exec (run : Run E) (events : List Event) :
    Moves (run.runtime.ledger, run.history)
      ((run.exec events).runtime.ledger, (run.exec events).history) := by
  induction events generalizing run with
  | nil => exact .refl
  | cons event rest ih => exact (run.moves_apply event).trans (ih (run.apply event))

end Run

/-! ### The reports of a step and of a cancellation -/

namespace Runtime

variable {rt started : Runtime E}

/-- The tasks of the commands are those of another table. -/
def TasksFrom (rt started : Runtime E) : Prop :=
  ∀ h cmd taskHandle, rt.commands.lookup h = some cmd → cmd.taskHandle = some taskHandle →
    ∃ cmd₀, started.commands.lookup h = some cmd₀ ∧ cmd₀.taskHandle = some taskHandle

lemma TasksFrom.setCommand (hfrom : rt.TasksFrom started) {rt' : Runtime E}
    {handle : CommandHandle} {cmd cmd' : CommandState}
    (hlookup : rt.commands.lookup handle = some cmd)
    (htask : cmd'.taskHandle = none ∨ cmd'.taskHandle = cmd.taskHandle)
    (hrt' : rt'.ledger = rt.ledger.setCommand handle cmd') : rt'.TasksFrom started := by
  intro h c taskHandle hc hhandle
  have hcommands : rt'.commands = (rt.ledger.setCommand handle cmd').commands :=
    congrArg Ledger.commands hrt'
  rw [hcommands] at hc
  rcases Ledger.lookup_setCommand hc with ⟨rfl, rfl⟩ | ⟨_, hc⟩
  · rcases htask with htask | htask
    · rw [htask] at hhandle
      cases hhandle
    · exact hfrom _ cmd taskHandle hlookup (htask ▸ hhandle)
  · exact hfrom h c taskHandle hc hhandle

lemma TasksFrom.accumulateTime (hfrom : rt.TasksFrom started) (elapsedNs : UInt64)
    (handle : CommandHandle) : (rt.accumulateTime elapsedNs handle).TasksFrom started := by
  rw [Runtime.accumulateTime]
  split
  · exact hfrom
  · rename_i cmd hlookup
    split_ifs
    · refine hfrom.setCommand hlookup ?_ (ledger_setCommand _)
      exact Or.inr rfl
    · exact hfrom

lemma TasksFrom.foldl_accumulateTime (hfrom : rt.TasksFrom started) (elapsedNs : UInt64)
    (handles : List CommandHandle) :
    (handles.foldl (Runtime.accumulateTime · elapsedNs) rt).TasksFrom started := by
  induction handles generalizing rt with
  | nil => exact hfrom
  | cons handle rest ih => exact ih (hfrom.accumulateTime elapsedNs handle)

lemma id_eq_of_moves {s s' : Ledger × History} (h : Moves s s') : s'.1.id = s.1.id := by
  induction h with
  | refl => rfl
  | tail _ hmove ih => cases hmove <;> exact ih

lemma id_foldl_accumulateTime (elapsedNs : UInt64) (handles : List CommandHandle) (rt : Runtime E) :
    (handles.foldl (accumulateTime · elapsedNs) rt).id = rt.id :=
  id_eq_of_moves (moves_foldl [] (fun rt => rt.moves_accumulateTime elapsedNs)
    handles rt)

/-- Each exit is reported in the state that the commands before it have left. -/
lemma reports_finishCommands {rt₀ begun : Runtime E} (stepEndNs : UInt64)
    (seen handles : List CommandHandle) (hhandles : rt₀.handles = seen ++ handles)
    (hbegun : ∀ before, rt₀.finishing before = (finishCommands stepEndNs before begun).2)
    (hrt : rt = rt₀.finishing seen)
    (hid : rt.id = rt₀.id) (hfrom : rt.TasksFrom (rt₀.handles.foldl startCommand rt₀)) :
    Reports E rt₀.id rt₀.Finished (finishCommands stepEndNs handles rt).1 := by
  induction handles generalizing rt seen with
  | nil => exact .nil
  | cons handle rest ih =>
    have hnext : (rt.finishCommand stepEndNs handle).2 = rt₀.finishing (seen ++ [handle]) := by
      rw [hrt, hbegun, hbegun, finishCommands_snd, finishCommands_snd, List.foldl_concat]
    have hrest : rt₀.handles = (seen ++ [handle]) ++ rest := by simpa using hhandles
    simp only [finishCommands]
    rcases rt.finishCommand_cases stepEndNs handle with
      ⟨hops, hledger⟩ | ⟨cmd, taskHandle, result, engine, hlookup, _, htask, hget, hops, hledger⟩
    · rw [hops, List.nil_append]
      refine ih _ hrest hnext ((congrArg Ledger.id hledger).trans hid) fun h c task hc => ?_
      have hcommands : (rt.finishCommand stepEndNs handle).2.commands = rt.commands :=
        congrArg Ledger.commands hledger
      rw [hcommands] at hc
      exact hfrom h c task hc
    · obtain ⟨cmd₀, hlookup₀, htask₀⟩ := hfrom handle cmd taskHandle hlookup htask
      rw [hops, hid]
      refine .report _ _ ⟨cmd₀, taskHandle, seen, rest, result, hhandles, hlookup₀, htask₀,
        hrt ▸ hget, rfl⟩ ?_
      exact ih _ hrest hnext ((congrArg Ledger.id hledger).trans hid)
        (hfrom.setCommand hlookup (Or.inl rfl) hledger)

lemma reports_step (rt : Runtime E) : Reports E rt.id rt.Finished rt.step.1.hostOps := by
  simp only [step]
  obtain ⟨hmoves, hops, hcommands⟩ :=
    runScheduler_spec maxSteps (rt.handles.foldl startCommand rt).now.2 []
  refine (Reports.of_noExit hops).append
    (reports_finishCommands _ [] rt.handles rfl (fun _ => rfl) rfl ?_ ?_)
  · have hstart := id_eq_of_moves (moves_foldl [] moves_startCommand rt.handles rt)
    have hrun := id_eq_of_moves hmoves
    exact (id_foldl_accumulateTime _ _ _).trans (hrun.trans hstart)
  · refine TasksFrom.foldl_accumulateTime (fun h c task hc htask => ?_) _ _
    exact ⟨c, hcommands ▸ hc, htask⟩

lemma reports_cancelCommand (rt : Runtime E) (handle : CommandHandle) :
    Reports E rt.id rt.Cancelled (rt.cancelCommand handle).1 := by
  rcases rt.cancelCommand_cases handle with ⟨hops, _⟩ | ⟨cmd, hlookup, hactive, hops, _⟩
  · rw [hops]
    exact .nil
  · rw [hops, ← List.append_nil (exitReport ..)]
    exact .report _ _ ⟨⟨cmd, hlookup, hactive, rfl⟩, rfl, rfl⟩ .nil

end Runtime

/-! ### The lifecycle -/

lemma Inv.start (id : RuntimeId) (engine : E.State) :
    Inv (Run.start id engine).runtime.ledger (Run.start id engine).history where
  bound h cmd hlookup := by simp [Run.start, Runtime.new, Runtime.ledger] at hlookup
  idle h cmd hlookup := by simp [Run.start, Runtime.new, Runtime.ledger] at hlookup
  seen := by simp [Run.start]
  exits := by simp [Run.start]
  exitLast := .nil
  minusOne := by simp [Run.start]
  asked id h hlookup := by simp [Run.start, Runtime.new, Runtime.ledger] at hlookup
  kept _ _ hasked := hasked.elim
  closed := by simp [Run.start, Runtime.new, Runtime.ledger]
  opened _ hanswered := hanswered.elim
  reads := by simp [Run.start]

lemma Lifecycle.of_inv {run : Run E} (hinv : Inv run.runtime.ledger run.history) :
    Lifecycle run where
  exitLast := hinv.exitLast
  reports := run.runtime.reports_step
  cancelReports := run.runtime.reports_cancelCommand
  cancelled handle cmd hlookup hcancelled := by
    refine ⟨?_, hinv.minusOne handle cmd hlookup hcancelled⟩
    rw [Runtime.commandStatus, if_pos hcancelled]
  staysCancelled handle cmd hlookup hcancelled events cmd' hlookup' := by
    refine (Ledger.StaysCancelled.of_moves (run.moves_exec events) ⟨?_, ?_⟩).2 cmd' hlookup'
    · exact hinv.bound handle cmd hlookup
    · intro c hc
      obtain rfl := Option.some.inj (hlookup.symm.trans hc)
      exact hcancelled
  stdinClosed := hinv.reads
  stdinOwn := hinv.closed

/-- Every run of calls on one runtime keeps to the lifecycle of its commands. -/
theorem lifecycle (E : Engine) (id : RuntimeId) (engine : E.State) (events : List Event) :
    Lifecycle ((Run.start id engine).exec events) :=
  .of_inv (Inv.of_moves ((Run.start id engine).moves_exec events) (.start id engine))

/-! ### A read that is answered twice -/

/-- Some answer to a read of the command's stdin says that stdin has ended, be it the first answer
or a later one. -/
def History.EverAnsweredEof (runtimeId : RuntimeId) (handle : CommandHandle) (history : History) :
    Prop :=
  ∃ newer note middle op older, history = newer ++ note :: (middle ++ .exposed op :: older) ∧
    note.EndsStdin runtimeId op.id ∧ (Note.exposed op).Asks op.id handle

/-- A command that reads stdin once more when its read is completed. The state counts what happened:
the first read, its completion, the second read. -/
def readTwiceEngine : Engine where
  State := Nat
  nowMonotonic n := (0, n)
  spawnShell _ _ n := (0, n)
  runStep n := (.blocked, n)
  queueLength _ := 1
  takeHostOp
    | 0 => (some ⟨⟨1⟩, .readStdin 4096, some ⟨0, 0⟩⟩, 1)
    | 2 => (some ⟨⟨2⟩, .readStdin 4096, some ⟨0, 0⟩⟩, 3)
    | n => (none, n)
  completeHostOp
    | ⟨1⟩, _, 1 => 2
    | _, _, n => n
  completeHostOpErr _ _ n := n
  appendChunk _ _ _ n := (none, n)
  idRepr _ _ := some ⟨0, 0⟩
  tryGet _ n := (none, n)
  cancel _ n := n
  hasReadyTasks _ := false
  takeBuffered _ _ n := ([], n)
  order handles := handles
  noGuestExit n req h code := by
    rcases n with _ | _ | _ | n <;> simp at h <;> subst h <;> simp

/-- The read gets data first, and then the end of stdin. -/
def answeredTwice : List HostOpResult :=
  [⟨⟨1⟩, 1, .stdinData [104] false⟩, ⟨⟨1⟩, 1, .stdinData [] true⟩]

/-- An end of stdin that comes after another answer to the read does not close stdin. -/
theorem not_stdinClosed_answeredTwice :
    ¬ ∀ (E : Engine) (id : RuntimeId) (engine : E.State) (events : List Event),
      ∀ newer op older handle,
        ((Run.start id engine).exec events).history = newer ++ .exposed op :: older →
          op.command = some handle → op.request.isReadStdin →
            ¬ History.EverAnsweredEof id handle older := by
  intro h
  refine h readTwiceEngine 1 (0 : Nat)
    [.createCommand "cat".toList, .step, .submitResults answeredTwice, .step]
    [] ⟨⟨2⟩, 1, some 1, .readStdin 4096⟩ _ 1 (by rfl) rfl rfl ?_
  exact ⟨[], .submitted ⟨⟨1⟩, 1, .stdinData [] true⟩, [.submitted ⟨⟨1⟩, 1, .stdinData [104] false⟩],
    ⟨⟨1⟩, 1, some 1, .readStdin 4096⟩, [], rfl, ⟨rfl, rfl, rfl⟩, ⟨rfl, rfl, rfl⟩⟩

end AmlaSandbox.Runtimes
