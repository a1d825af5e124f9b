import AmlaSandbox.Js.Ops
import AmlaSandbox.Library.Reachability
import AmlaSandbox.Text.Basic
import Mathlib.Data.Finset.Basic

/-!
# Promises and their operations

`node` runs a script whose promises stand for operations. It fulfils the operations in batches, one
after the other, and settles the promise of each before the next one begins. The script is
arbitrary: an event tells what it does in its turn, and what the operation came to.
-/

namespace AmlaSandbox.Js

open Json Library Library.JsText

/-! ### JavaScript -/

/-- What `JSON.stringify` makes of a payload: an exception, a text or `undefined`. -/
inductive Payload
  | throws
  | json (text : Option String)

structure ConsoleEntry where
  level : String
  message : String
deriving DecidableEq

/-- What a promise is settled with; a message is in code units. -/
inductive Outcome
  | resolved (value : Value)
  | rejected (message : List ℕ)

/-- What a script does that is seen from outside. -/
inductive Action
  | create (payload : Payload)
  | log (args : Option (List Value))

/-- `_pendingOps` and `_nextOpId` of JavaScript, and the state that its callbacks fill. What was
created, settled and logged so far is not kept by the code. -/
structure Runtime where
  nextOpId : ℕ := 1
  pendingOps : Finset String := ∅
  queue : List Op := []
  consoleOutput : List ConsoleEntry := []
  created : List (String × Payload) := []
  settled : List (String × Outcome) := []
  logged : List ConsoleEntry := []

/-- `String(n)` -/
def opId (n : ℕ) : String := toString n

lemma opId_injective : Function.Injective opId := fun _ _ h => toString_nat_injective h

/-- `__native_log` -/
def nativeLog (args : Option (List Value)) : Option ConsoleEntry := do
  let args ← args
  let level ← args[0]?.bind Value.asStr
  let message ← args[1]?.bind Value.asStr
  return { level, message }

section

variable (parse : String → Option Value)

/-- How the registration under an id ends. -/
def Payload.register (payload : Payload) (id : String) : Registration :=
  match payload with
  | .throws => .thrown
  | .json text => .ofResult (registerOp parse (some [.string id, text.elim .null .string]))

namespace Runtime

/-- `_createPendingOp` -/
def createPendingOp (rt : Runtime) (payload : Payload) : Runtime :=
  let id := opId rt.nextOpId
  let rt := { rt with
    nextOpId := rt.nextOpId + 1
    pendingOps := insert id rt.pendingOps
    created := rt.created ++ [(id, payload)] }
  match payload.register parse id with
  | .accepted op => { rt with queue := rt.queue ++ [op] }
  | .refused message => { rt with
      pendingOps := rt.pendingOps.erase id
      settled := rt.settled ++ [(id, .rejected message)] }
  | .lost | .thrown => rt

def log (rt : Runtime) (args : Option (List Value)) : Runtime :=
  match nativeLog args with
  | some entry => { rt with
      consoleOutput := rt.consoleOutput ++ [entry]
      logged := rt.logged ++ [entry] }
  | none => rt

def perform (rt : Runtime) : Action → Runtime
  | .create payload => rt.createPendingOp parse payload
  | .log args => rt.log args

def execute (rt : Runtime) (actions : List Action) : Runtime := actions.foldl (perform parse) rt

/-- `_resolve` and `_reject` -/
def settle (rt : Runtime) (id : String) (outcome : Outcome) : Runtime :=
  if id ∈ rt.pendingOps then { rt with
    pendingOps := rt.pendingOps.erase id
    settled := rt.settled ++ [(id, outcome)] }
  else rt

/-- `_resolve` or `_reject` with an exception in its middle. -/
def forget (rt : Runtime) (id : String) : Runtime :=
  { rt with pendingOps := rt.pendingOps.erase id }

/-- `take_console_output` -/
def muted (rt : Runtime) : Runtime := { rt with consoleOutput := [] }

/-- `take_pending_ops` -/
def unqueued (rt : Runtime) : Runtime := { rt with queue := [] }

@[simp] lemma consoleOutput_unqueued (rt : Runtime) :
    rt.unqueued.consoleOutput = rt.consoleOutput := rfl

@[simp] lemma queue_unqueued (rt : Runtime) : rt.unqueued.queue = [] := rfl

@[simp] lemma consoleOutput_muted (rt : Runtime) : rt.muted.consoleOutput = [] := rfl

end Runtime

end

/-! ### The loop -/

/-- A line that `node` writes: console output, the result for `-p`, or what went wrong. -/
inductive Line
  | console (entry : ConsoleEntry)
  | result (text : String)
  | report (text : String)
deriving DecidableEq

def Line.text : Line → String
  | .console entry => entry.message ++ "\n"
  | .result text | .report text => text ++ "\n"

/-- Whether the line goes to the standard error stream. -/
def Line.isError : Line → Bool
  | .console entry => entry.level = "error" || entry.level = "warn"
  | .result _ => false
  | .report _ => true

def Line.entry : Line → Option ConsoleEntry
  | .console entry => some entry
  | _ => none

@[simp] lemma Line.entry_console (entry : ConsoleEntry) : (Line.console entry).entry = entry := rfl

@[simp] lemma Line.entry_comp_console : Line.entry ∘ Line.console = some := rfl

@[simp] lemma Line.filterMap_report (text : String) :
    [Line.report text].filterMap Line.entry = [] := rfl

/-- A turn of the script, with the error of the engine that ended it. -/
structure Turn where
  actions : List Action
  error : Option String := none

/-- How the promise of an operation gets its outcome. -/
inductive Delivery
  /-- It is settled, which starts a turn of the script. -/
  | settled (turn : Turn)
  /-- An exception when its entry is gone already. -/
  | thrown (error : String)
  /-- The engine does not come to look for it. -/
  | failed (error : String)

def Delivery.error : Delivery → Option String
  | .settled turn => turn.error
  | .thrown error | .failed error => some error

/-- An operation that `process_op` ran, with what it returned. -/
structure Handled where
  op : Op
  result : Except String Value
  delivery : Delivery

inductive Phase
  | loading
  | loaded
  | looping
  | failed
  | ended
  | aborted
deriving DecidableEq

/-- `outbox` holds the lines that are to be written before anything else happens. What was dropped
with the prelude, and what was handled, is not kept by the code. -/
structure Loop where
  runtime : Runtime := {}
  phase : Phase := .loading
  pendingOps : List Op := []
  hadOpError : Bool := false
  outbox : List Line := []
  written : List Line := []
  dropped : List Op := []
  unheard : List ConsoleEntry := []
  handled : List Handled := []

/-- What was written to the standard error stream, or to the standard output. -/
def Loop.stream (s : Loop) (isError : Bool) : String :=
  String.join ((s.written.filter (·.isError = isError)).map Line.text)

/-- The exit code of a loop that returns one. -/
def Loop.exitCode (s : Loop) : Option ℕ :=
  if s.outbox = [] then
    match s.phase with
    | .failed => some 1
    | .ended => some (if s.hadOpError then 1 else 0)
    | _ => none
  else none

inductive Event
  /-- The prelude is there and runs. -/
  | prelude (turn : Turn)
  /-- The script runs; with `-p` its result is printed. -/
  | execute (turn : Turn) (printed : Option String)
  /-- `process_op` returns. -/
  | process (result : Except String Value) (delivery : Delivery)
  /-- The batch is over. -/
  | takePendingOps
  /-- A line is written, or the stream does not take it. -/
  | write (accepted : Bool)

/-- The text of a `JsError`, all of which are runtime errors. -/
def jsError (error : String) : String := "Runtime error: " ++ error

def Handled.outcome (h : Handled) : Outcome :=
  match h.result with
  | .ok value => .resolved value
  | .error error => .rejected (units error.toList)

/-- What is told about the engine, when it fails over the promise. -/
def Handled.report (h : Handled) : Option Line :=
  h.delivery.error.map fun error => .report <|
    match h.result with
    | .ok _ => "node: failed to resolve promise: " ++ jsError error
    | .error _ => "node: failed to reject promise: " ++ jsError error

lemma Handled.exists_report (h : Handled) {error : String}
    (herror : h.delivery.error = some error) :
    ∃ line, h.report = some line := ⟨_, by rw [Handled.report, herror, Option.map_some]⟩

variable (parse : String → Option Value)

/-- Hand an outcome to the promise of its operation. -/
def Runtime.deliver (rt : Runtime) (h : Handled) : Runtime :=
  match h.delivery with
  | .settled turn => (rt.settle h.op.id h.outcome).execute parse turn.actions
  | .thrown _ => rt.forget h.op.id
  | .failed _ => rt

namespace Loop

/-- The result of the prelude is not used, so that what it did is lost unless it failed. -/
def prelude (s : Loop) (turn : Turn) : Loop :=
  let rt := s.runtime.execute parse turn.actions
  match turn.error with
  | none => { s with
      phase := .loaded
      runtime := rt.unqueued.muted
      dropped := rt.queue
      unheard := rt.consoleOutput }
  | some error => { s with
      phase := .loaded
      runtime := rt
      outbox := [.report ("node: failed to load prelude: " ++ jsError error)] }

def execute (s : Loop) (turn : Turn) (printed : Option String) : Loop :=
  let rt := s.runtime.execute parse turn.actions
  match turn.error with
  | none => { s with
      phase := .looping
      runtime := rt.unqueued.muted
      pendingOps := rt.queue
      outbox := rt.consoleOutput.map .console ++ (printed.map .result).toList }
  | some error => { s with
      phase := .failed
      runtime := rt
      outbox := [.report ("node: " ++ jsError error)] }

/-- One operation of the batch. -/
def process (s : Loop) (h : Handled) (rest : List Op) : Loop :=
  let rt := s.runtime.deliver parse h
  { s with
    runtime := rt.muted
    pendingOps := rest
    hadOpError := s.hadOpError || !h.result.isOk
    outbox := h.report.toList ++ rt.consoleOutput.map .console
    handled := s.handled ++ [h] }

def takePendingOps (s : Loop) : Loop :=
  { s with
    phase := if s.runtime.queue = [] then .ended else s.phase
    runtime := s.runtime.unqueued
    pendingOps := s.runtime.queue }

/-- What stands in the outbox is written first; a stream that does not take it ends the command. -/
def step (s : Loop) : Event → Option Loop
  | .write accepted =>
    match s.phase, s.outbox with
    | .aborted, _ | _, [] => none
    | _, line :: rest =>
      if accepted then some { s with outbox := rest, written := s.written ++ [line] }
      else some { s with phase := .aborted }
  | .prelude turn =>
    if s.outbox = [] ∧ s.phase = .loading then some (s.prelude parse turn) else none
  | .execute turn printed =>
    if s.outbox = [] ∧ (s.phase = .loading ∨ s.phase = .loaded) then
      some (s.execute parse turn printed)
    else none
  | .process result delivery =>
    match s.pendingOps with
    | [] => none
    | op :: rest =>
      if s.outbox = [] ∧ s.phase = .looping then
        some (s.process parse { op, result, delivery } rest)
      else none
  | .takePendingOps =>
    if s.outbox = [] ∧ s.phase = .looping ∧ s.pendingOps = [] then some s.takePendingOps else none

/-- The loop gets here from its start. -/
def Reachable (s : Loop) : Prop :=
  Reach (fun s e s' => s.step parse e = some s') (fun _ _ => True) {} s

end Loop

/-! ### What becomes of a promise -/

def Registration.op : Registration → Option Op
  | .accepted op => some op
  | _ => none

/-- The operations that are accepted, in the order of their creation. -/
def accepted (created : List (String × Payload)) : List Op :=
  created.filterMap fun entry => (entry.2.register parse entry.1).op

/-- The promise is rejected when it is made, as its operation is refused. -/
def Refused (created : List (String × Payload)) (id : String) (outcome : Outcome) : Prop :=
  ∃ payload message, (id, payload) ∈ created ∧
    payload.register parse id = .refused message ∧ outcome = .rejected message

def Handled.Settles (h : Handled) : Prop := ∃ turn, h.delivery = .settled turn

/-- The entry of the promise stays where it is. -/
def Handled.Keeps (h : Handled) : Prop := ∃ error, h.delivery = .failed error

/-- The promise gets what came of its operation. -/
def Delivered (handled : List Handled) (id : String) (outcome : Outcome) : Prop :=
  ∃ h ∈ handled, h.op.id = id ∧ h.Settles ∧ outcome = h.outcome

/-- There is an entry for the promise. -/
def HasEntry (created : List (String × Payload)) (handled : List Handled) (id : String) : Prop :=
  (∃ payload, (id, payload) ∈ created ∧ ∀ message, payload.register parse id ≠ .refused message) ∧
    ∀ h ∈ handled, h.op.id = id → h.Keeps

/-- The operation is the next one of those that were taken. -/
structure IsNext (taken : List Op) (handled : List Handled) (h : Handled) : Prop where
  mem : h.op ∈ taken
  new : ∀ other ∈ handled, other.op.id ≠ h.op.id

variable {parse} {created : List (String × Payload)} {payload : Payload} {id : String} {op : Op}
  {outcome : Outcome} {handled : List Handled}

lemma id_of_registerOp {args : List Value}
    (h : registerOp parse (some (.string id :: args)) = .ok op) : op.id = id := by
  simp only [registerOp, bind_eq_ok, okOr_eq_ok, pure, Except.pure, Except.ok.injEq] at h
  obtain ⟨list, hlist, first, hfirst, -, -, -, -, -, -, -, -, rfl⟩ := h
  cases hlist
  exact (Option.some.inj hfirst).symm

lemma Payload.id_of_register (h : payload.register parse id = .accepted op) : op.id = id := by
  cases payload with
  | throws => cases h
  | json text =>
    simp only [Payload.register] at h
    cases hop : registerOp parse (some [.string id, text.elim .null .string]) with
    | ok op' =>
      rw [hop] at h
      cases h
      exact id_of_registerOp hop
    | error msg =>
      rw [hop, Registration.ofResult] at h
      split_ifs at h
      split at h <;> cases h

lemma Registration.op_eq_some {r : Registration} : r.op = some op ↔ r = .accepted op := by
  cases r <;> simp [Registration.op]

lemma mem_accepted :
    op ∈ accepted parse created ↔
      ∃ payload, (op.id, payload) ∈ created ∧ payload.register parse op.id = .accepted op := by
  simp only [accepted, List.mem_filterMap, Registration.op_eq_some, Prod.exists]
  constructor
  · rintro ⟨id, payload, hmem, hop⟩
    obtain rfl := Payload.id_of_register hop
    exact ⟨payload, hmem, hop⟩
  · rintro ⟨payload, hmem, hop⟩
    exact ⟨op.id, payload, hmem, hop⟩

/-- No id is given to two operations. -/
lemma nodup_accepted (h : (created.map Prod.fst).Nodup) :
    ((accepted parse created).map Op.id).Nodup := by
  induction created with
  | nil => simp [accepted]
  | cons entry rest ih =>
    rw [List.map_cons, List.nodup_cons] at h
    have hrest := ih h.2
    rw [accepted, List.filterMap_cons]
    split
    · exact hrest
    · next op hop =>
      refine List.nodup_cons.mpr ⟨fun hmem => h.1 ?_, hrest⟩
      obtain ⟨other, hother, hid⟩ := List.mem_map.mp hmem
      obtain ⟨payload, hpayload, -⟩ := mem_accepted.mp hother
      rw [← Payload.id_of_register (Registration.op_eq_some.mp hop), ← hid]
      exact List.mem_map.mpr ⟨_, hpayload, rfl⟩

section

variable {new : String}

lemma accepted_append : accepted parse (created ++ [(new, payload)]) =
    accepted parse created ++ (payload.register parse new).op.toList := by
  rw [accepted, List.filterMap_append]
  cases h : (payload.register parse new).op <;> simp [accepted, h]

lemma refused_append : Refused parse (created ++ [(new, payload)]) id outcome ↔
    Refused parse created id outcome ∨ id = new ∧ ∃ message,
      payload.register parse new = .refused message ∧ outcome = .rejected message := by
  simp only [Refused, List.mem_append, List.mem_singleton, Prod.mk.injEq]
  constructor
  · rintro ⟨p, message, hold | ⟨rfl, rfl⟩, hr, ho⟩
    · exact .inl ⟨p, message, hold, hr, ho⟩
    · exact .inr ⟨rfl, message, hr, ho⟩
  · rintro (⟨p, message, hold, hr, ho⟩ | ⟨rfl, message, hr, ho⟩)
    · exact ⟨p, message, .inl hold, hr, ho⟩
    · exact ⟨payload, message, .inr ⟨rfl, rfl⟩, hr, ho⟩

lemma hasEntry_append (hnew : ∀ h ∈ handled, h.op.id ≠ new) :
    HasEntry parse (created ++ [(new, payload)]) handled id ↔
      HasEntry parse created handled id ∨
        id = new ∧ ∀ message, payload.register parse new ≠ .refused message := by
  simp only [HasEntry, List.mem_append, List.mem_singleton, Prod.mk.injEq]
  constructor
  · rintro ⟨⟨p, hold | ⟨rfl, rfl⟩, hr⟩, hkeeps⟩
    · exact .inl ⟨⟨p, hold, hr⟩, hkeeps⟩
    · exact .inr ⟨rfl, hr⟩
  · rintro (⟨⟨p, hold, hr⟩, hkeeps⟩ | ⟨rfl, hr⟩)
    · exact ⟨⟨p, .inl hold, hr⟩, hkeeps⟩
    · exact ⟨⟨payload, .inr ⟨rfl, rfl⟩, hr⟩, fun h hmem hid => absurd hid (hnew h hmem)⟩

end

/-- What holds of a runtime whose first operations were `taken` from it and some of them `handled`,
and whose first messages were `heard`. -/
structure Runtime.Holds (parse : String → Option Value) (taken : List Op) (handled : List Handled)
    (heard : List ConsoleEntry) (rt : Runtime) : Prop where
  fresh : ∀ entry ∈ rt.created, ∃ n < rt.nextOpId, entry.1 = opId n
  ids : (rt.created.map Prod.fst).Nodup
  order : taken ++ rt.queue = accepted parse rt.created
  known : ∀ h ∈ handled, h.op ∈ taken
  once : (rt.settled.map Prod.fst).Nodup
  settled : ∀ id outcome, (id, outcome) ∈ rt.settled ↔
    Refused parse rt.created id outcome ∨ Delivered handled id outcome
  entries : ∀ id, id ∈ rt.pendingOps ↔ HasEntry parse rt.created handled id
  console : heard ++ rt.consoleOutput = rt.logged

namespace Runtime.Holds

variable {rt : Runtime} {taken : List Op} {heard : List ConsoleEntry}

lemma exists_created (hs : rt.Holds parse taken handled heard) (hop : op ∈ taken ++ rt.queue) :
    ∃ payload, (op.id, payload) ∈ rt.created ∧ payload.register parse op.id = .accepted op := by
  rw [hs.order] at hop
  exact mem_accepted.mp hop

lemma not_mem_created (hs : rt.Holds parse taken handled heard) :
    ∀ payload, (opId rt.nextOpId, payload) ∉ rt.created := by
  intro payload hmem
  obtain ⟨n, hn, hid⟩ := hs.fresh _ hmem
  have := opId_injective hid
  omega

lemma ne_of_handled (hs : rt.Holds parse taken handled heard) {h : Handled} (hmem : h ∈ handled) :
    h.op.id ≠ opId rt.nextOpId := by
  intro hid
  obtain ⟨payload, hcreated, -⟩ :=
    hs.exists_created (List.mem_append_left _ (hs.known h hmem))
  exact hs.not_mem_created payload (hid ▸ hcreated)

lemma exists_of_settled (hs : rt.Holds parse taken handled heard)
    (hmem : (id, outcome) ∈ rt.settled) : ∃ payload, (id, payload) ∈ rt.created := by
  rcases (hs.settled id outcome).mp hmem with ⟨payload, -, hcreated, -⟩ | ⟨h, hh, rfl, -⟩
  · exact ⟨payload, hcreated⟩
  · obtain ⟨payload, hcreated, -⟩ :=
      hs.exists_created (List.mem_append_left _ (hs.known h hh))
    exact ⟨payload, hcreated⟩

lemma log (hs : rt.Holds parse taken handled heard) (args : Option (List Value)) :
    (rt.log args).Holds parse taken handled heard := by
  rw [Runtime.log]
  split
  · exact { hs with console := by rw [← hs.console, List.append_assoc] }
  · exact hs

/-- The id of a promise that is created is new. -/
lemma ids_append (hs : rt.Holds parse taken handled heard) (payload : Payload) :
    (∀ entry ∈ rt.created ++ [(opId rt.nextOpId, payload)],
      ∃ n < rt.nextOpId + 1, entry.1 = opId n) ∧
      ((rt.created ++ [(opId rt.nextOpId, payload)]).map Prod.fst).Nodup := by
  constructor
  · intro entry hentry
    rcases List.mem_append.mp hentry with hold | hlast
    · obtain ⟨n, hn, hid⟩ := hs.fresh entry hold
      exact ⟨n, by omega, hid⟩
    · obtain rfl := List.mem_singleton.mp hlast
      exact ⟨rt.nextOpId, by omega, rfl⟩
  · rw [List.map_append, List.map_singleton, ← List.concat_eq_append, List.nodup_concat]
    refine ⟨fun hmem => ?_, hs.ids⟩
    obtain ⟨⟨id, p⟩, hentry, rfl : id = opId rt.nextOpId⟩ := List.mem_map.mp hmem
    exact hs.not_mem_created p hentry

lemma not_mem_pendingOps (hs : rt.Holds parse taken handled heard) :
    opId rt.nextOpId ∉ rt.pendingOps := by
  rw [hs.entries]
  rintro ⟨⟨payload, hcreated, -⟩, -⟩
  exact hs.not_mem_created payload hcreated

lemma of_opened {rt' : Runtime} (hs : rt.Holds parse taken handled heard) (payload : Payload)
    (hr : ∀ message, payload.register parse (opId rt.nextOpId) ≠ .refused message)
    (hrt : rt' = { rt with
      nextOpId := rt.nextOpId + 1
      pendingOps := insert (opId rt.nextOpId) rt.pendingOps
      created := rt.created ++ [(opId rt.nextOpId, payload)]
      queue := rt.queue ++ (payload.register parse (opId rt.nextOpId)).op.toList }) :
    rt'.Holds parse taken handled heard := by
  subst hrt
  obtain ⟨hfresh, hids⟩ := hs.ids_append payload
  exact {
    fresh := hfresh
    ids := hids
    order := by rw [accepted_append, ← List.append_assoc, hs.order]
    known := hs.known
    once := hs.once
    settled := by
      intro id outcome
      rw [hs.settled, refused_append]
      simp [hr]
    entries := by
      intro id
      rw [Finset.mem_insert, hs.entries, hasEntry_append fun h hmem => hs.ne_of_handled hmem,
        or_comm]
      simp [hr]
    console := hs.console }

lemma of_refused {rt' : Runtime} (hs : rt.Holds parse taken handled heard) {payload : Payload}
    {message : List ℕ} (hr : payload.register parse (opId rt.nextOpId) = .refused message)
    (hrt : rt' = { rt with
      nextOpId := rt.nextOpId + 1
      pendingOps := (insert (opId rt.nextOpId) rt.pendingOps).erase (opId rt.nextOpId)
      created := rt.created ++ [(opId rt.nextOpId, payload)]
      settled := rt.settled ++ [(opId rt.nextOpId, .rejected message)] }) :
    rt'.Holds parse taken handled heard := by
  subst hrt
  obtain ⟨hfresh, hids⟩ := hs.ids_append payload
  exact {
    fresh := hfresh
    ids := hids
    order := by simp [accepted_append, hr, Registration.op, hs.order]
    known := hs.known
    once := by
      rw [List.map_append, List.map_singleton, ← List.concat_eq_append, List.nodup_concat]
      refine ⟨fun hmem => ?_, hs.once⟩
      obtain ⟨⟨id, outcome⟩, hsettled, rfl : id = opId rt.nextOpId⟩ := List.mem_map.mp hmem
      obtain ⟨p, hp⟩ := hs.exists_of_settled hsettled
      exact hs.not_mem_created p hp
    settled := by
      intro id outcome
      rw [List.mem_append, hs.settled, refused_append]
      simp only [hr, List.mem_singleton, Prod.mk.injEq, Registration.refused.injEq,
        exists_eq_left']
      tauto
    entries := by
      intro id
      rw [Finset.erase_insert hs.not_mem_pendingOps, hs.entries,
        hasEntry_append fun h hmem => hs.ne_of_handled hmem]
      simp [hr]
    console := hs.console }

lemma createPendingOp (hs : rt.Holds parse taken handled heard) (payload : Payload) :
    (rt.createPendingOp parse payload).Holds parse taken handled heard := by
  cases hr : payload.register parse (opId rt.nextOpId) with
  | accepted op =>
    exact hs.of_opened payload (by simp [hr])
      (by simp [Runtime.createPendingOp, hr, Registration.op])
  | refused message => exact hs.of_refused hr (by simp [Runtime.createPendingOp, hr])
  | lost =>
    exact hs.of_opened payload (by simp [hr])
      (by simp [Runtime.createPendingOp, hr, Registration.op])
  | thrown =>
    exact hs.of_opened payload (by simp [hr])
      (by simp [Runtime.createPendingOp, hr, Registration.op])

lemma execute (hs : rt.Holds parse taken handled heard) (actions : List Action) :
    (rt.execute parse actions).Holds parse taken handled heard := by
  induction actions generalizing rt with
  | nil => exact hs
  | cons action actions ih =>
    have hperform : (rt.perform parse action).Holds parse taken handled heard := by
      cases action with
      | create payload => exact hs.createPendingOp payload
      | log args => exact hs.log args
    exact ih hperform

/-! An operation that is handled. -/

section

variable {h : Handled}

lemma delivered_append : Delivered (handled ++ [h]) id outcome ↔
    Delivered handled id outcome ∨ h.op.id = id ∧ h.Settles ∧ outcome = h.outcome := by
  simp [Delivered, or_and_right, exists_or]

lemma hasEntry_handled : HasEntry parse created (handled ++ [h]) id ↔
    HasEntry parse created handled id ∧ (h.op.id = id → h.Keeps) := by
  simp only [HasEntry, List.mem_append, List.mem_singleton, or_imp, forall_and, forall_eq,
    and_assoc]

variable (hnext : IsNext taken handled h)
include hnext

lemma known_append (hs : rt.Holds parse taken handled heard) :
    ∀ other ∈ handled ++ [h], other.op ∈ taken := by
  simp only [List.mem_append, List.mem_singleton, or_imp, forall_and, forall_eq]
  exact ⟨hs.known, hnext.mem⟩

lemma not_refused (hs : rt.Holds parse taken handled heard) :
    ∃ payload, (h.op.id, payload) ∈ rt.created ∧ payload.register parse h.op.id = .accepted h.op ∧
      ∀ outcome, ¬ Refused parse rt.created h.op.id outcome := by
  obtain ⟨payload, hcreated, hr⟩ := hs.exists_created (List.mem_append_left _ hnext.mem)
  refine ⟨payload, hcreated, hr, ?_⟩
  rintro outcome ⟨other, message, hother, hmessage, -⟩
  have heq := List.inj_on_of_nodup_map hs.ids hcreated hother rfl
  cases heq
  rw [hr] at hmessage
  cases hmessage

lemma mem_pendingOps (hs : rt.Holds parse taken handled heard) : h.op.id ∈ rt.pendingOps := by
  obtain ⟨payload, hcreated, hr, -⟩ := hs.not_refused hnext
  refine (hs.entries _).mpr ⟨⟨payload, hcreated, fun message => by simp [hr]⟩, ?_⟩
  exact fun other hmem hid => absurd hid (hnext.new other hmem)

lemma settle (hs : rt.Holds parse taken handled heard) (hsettles : h.Settles) :
    (rt.settle h.op.id h.outcome).Holds parse taken (handled ++ [h]) heard := by
  have hkeeps : ¬ h.Keeps := by
    rintro ⟨error, herror⟩
    obtain ⟨turn, hturn⟩ := hsettles
    rw [herror] at hturn
    cases hturn
  rw [Runtime.settle, if_pos (hs.mem_pendingOps hnext)]
  exact {
    fresh := hs.fresh
    ids := hs.ids
    order := hs.order
    known := hs.known_append hnext
    once := by
      rw [List.map_append, List.map_singleton, ← List.concat_eq_append, List.nodup_concat]
      refine ⟨fun hmem => ?_, hs.once⟩
      obtain ⟨⟨id, outcome⟩, hsettled, rfl : id = h.op.id⟩ := List.mem_map.mp hmem
      rcases (hs.settled _ _).mp hsettled with hrefused | ⟨other, hother, hid, -⟩
      · obtain ⟨payload, -, -, hnot⟩ := hs.not_refused hnext
        exact hnot outcome hrefused
      · exact hnext.new other hother hid
    settled := by
      intro id outcome
      rw [List.mem_append, hs.settled, delivered_append, or_assoc]
      simp only [hsettles, true_and, List.mem_singleton, Prod.mk.injEq, eq_comm]
    entries := by
      intro id
      rw [Finset.mem_erase, hs.entries, hasEntry_handled]
      simp only [hkeeps, imp_false, ne_eq, and_comm, eq_comm]
    console := hs.console }

/-- An operation whose promise is not settled. -/
lemma of_unsettled {entries : Finset String} (hs : rt.Holds parse taken handled heard)
    (hsettles : ¬ h.Settles)
    (hentries : ∀ id, id ∈ entries ↔ id ∈ rt.pendingOps ∧ (h.op.id = id → h.Keeps)) :
    { rt with pendingOps := entries }.Holds parse taken (handled ++ [h]) heard := {
  fresh := hs.fresh
  ids := hs.ids
  order := hs.order
  known := hs.known_append hnext
  once := hs.once
  settled := by
    intro id outcome
    rw [hs.settled, delivered_append]
    simp [hsettles]
  entries := by
    intro id
    rw [hentries, hs.entries, hasEntry_handled]
  console := hs.console }

lemma deliver (hs : rt.Holds parse taken handled heard) :
    (rt.deliver parse h).Holds parse taken (handled ++ [h]) heard := by
  cases hdelivery : h.delivery with
  | settled turn =>
    simp only [Runtime.deliver, hdelivery]
    exact (hs.settle hnext ⟨turn, hdelivery⟩).execute turn.actions
  | thrown error =>
    simp only [Runtime.deliver, hdelivery]
    refine hs.of_unsettled hnext (by simp [Handled.Settles, hdelivery]) fun id => ?_
    rw [Finset.mem_erase]
    simp only [Handled.Keeps, hdelivery, reduceCtorEq, exists_false, imp_false, ne_eq, and_comm,
      eq_comm]
  | failed error =>
    simp only [Runtime.deliver, hdelivery]
    refine hs.of_unsettled hnext (by simp [Handled.Settles, hdelivery]) fun id => ?_
    simp [Handled.Keeps, hdelivery]

end

lemma unqueued (hs : rt.Holds parse taken handled heard) :
    rt.unqueued.Holds parse (taken ++ rt.queue) handled heard :=
  { hs with
    order := by rw [queue_unqueued, List.append_nil]; exact hs.order
    known := fun h hmem => List.mem_append_left _ (hs.known h hmem) }

lemma muted (hs : rt.Holds parse taken handled heard) :
    rt.muted.Holds parse taken handled (heard ++ rt.consoleOutput) :=
  { hs with console := by rw [consoleOutput_muted, List.append_nil]; exact hs.console }

end Runtime.Holds

/-! ### Runs -/

namespace Loop

/-- The operations that were taken from the runtime. -/
def taken (s : Loop) : List Op := s.dropped ++ s.handled.map Handled.op ++ s.pendingOps

/-- The console output that was taken from the runtime. -/
def heard (s : Loop) : List ConsoleEntry :=
  s.unheard ++ (s.written ++ s.outbox).filterMap Line.entry

structure Inv (parse : String → Option Value) (s : Loop) : Prop where
  runtime : s.runtime.Holds parse s.taken s.handled s.heard
  initial : s.phase = .loading → s = {}
  idle : s.phase = .loaded → s.handled = [] ∧ s.pendingOps = []
  errors : s.hadOpError = s.handled.any fun h => !h.result.isOk
  reports : ∀ h ∈ s.handled, ∀ line, h.report = some line → line ∈ s.written ++ s.outbox
  silent : s.phase = .looping ∨ s.phase = .ended → s.runtime.consoleOutput = []
  drained : s.phase = .ended → s.outbox = [] ∧ s.pendingOps = [] ∧ s.runtime.queue = []

variable {s s' : Loop}

lemma inv_initial : Inv parse {} where
  runtime := {
    fresh := by simp
    ids := by simp
    order := rfl
    known := by simp
    once := by simp
    settled := by simp [Refused, Delivered]
    entries := by simp [HasEntry]
    console := rfl }
  initial _ := rfl
  idle _ := ⟨rfl, rfl⟩
  errors := rfl
  reports := by simp
  silent _ := rfl
  drained := by simp

namespace Inv

lemma write (hs : s.Inv parse) {line : Line} {rest : List Line}
    (houtbox : s.outbox = line :: rest) :
    Inv parse { s with outbox := rest, written := s.written ++ [line] } := by
  have hlines : s.written ++ [line] ++ rest = s.written ++ s.outbox := by
    rw [houtbox, List.append_assoc, List.singleton_append]
  have hloading : s.phase ≠ .loading := by
    intro hphase
    rw [hs.initial hphase] at houtbox
    cases houtbox
  have hended : s.phase ≠ .ended := by
    intro hphase
    rw [(hs.drained hphase).1] at houtbox
    cases houtbox
  exact { hs with
    runtime := by
      have := hs.runtime
      simpa only [taken, heard, hlines] using this
    initial := fun hphase => absurd hphase hloading
    reports := by simpa only [hlines] using hs.reports
    drained := fun hphase => absurd hphase hended }

lemma abort (hs : s.Inv parse) : Inv parse { s with phase := .aborted } := { hs with
  initial := by simp
  idle := by simp
  silent := by simp
  drained := by simp }

lemma prelude (hs : s.Inv parse) (hphase : s.phase = .loading) (turn : Turn) :
    Inv parse (s.prelude parse turn) := by
  obtain rfl := hs.initial hphase
  have hrt := hs.runtime.execute turn.actions
  unfold Loop.prelude
  split
  · exact {
      runtime := by simpa [taken, heard] using hrt.unqueued.muted
      initial := by simp
      idle := by simp
      errors := rfl
      reports := by simp
      silent := by simp
      drained := by simp }
  · exact {
      runtime := by simpa [taken, heard] using hrt
      initial := by simp
      idle := by simp
      errors := rfl
      reports := by simp
      silent := by simp
      drained := by simp }

lemma execute (hs : s.Inv parse) (houtbox : s.outbox = [])
    (hphase : s.phase = .loading ∨ s.phase = .loaded) (turn : Turn) (printed : Option String) :
    Inv parse (s.execute parse turn printed) := by
  obtain ⟨hhandled, hpending⟩ : s.handled = [] ∧ s.pendingOps = [] := by
    rcases hphase with hloading | hloaded
    · rw [hs.initial hloading]
      exact ⟨rfl, rfl⟩
    · exact hs.idle hloaded
  have hrt := hs.runtime.execute turn.actions
  have herrors := hs.errors
  unfold Loop.execute
  split
  · exact {
      runtime := by
        have hheard : (printed.map Line.result).toList.filterMap Line.entry = [] := by
          cases printed <;> rfl
        have := hrt.unqueued.muted
        simpa [taken, heard, houtbox, hhandled, hpending, hheard] using this
      initial := by simp
      idle := by simp
      errors := herrors
      reports := by simp [hhandled]
      silent := by simp [Runtime.muted]
      drained := by simp }
  · exact {
      runtime := by
        simpa [taken, heard, houtbox, hhandled, hpending] using hrt
      initial := by simp
      idle := by simp
      errors := herrors
      reports := by simp [hhandled]
      silent := by simp
      drained := by simp }

/-- The ids of the operations that were taken are all different. -/
lemma isNext (hs : s.Inv parse) {h : Handled} {rest : List Op}
    (hpending : s.pendingOps = h.op :: rest) : IsNext s.taken s.handled h := by
  have htaken : s.taken = s.dropped ++ s.handled.map Handled.op ++ h.op :: rest := by
    rw [taken, hpending]
  have hnodup : ((accepted parse s.runtime.created).map Op.id).Nodup :=
    nodup_accepted hs.runtime.ids
  rw [← hs.runtime.order, htaken] at hnodup
  refine ⟨by rw [htaken]; simp, fun other hother hid => ?_⟩
  simp only [List.map_append, List.map_cons, List.append_assoc, List.cons_append,
    List.nodup_append, List.mem_append, List.mem_cons] at hnodup
  exact hnodup.2.1.2.2 other.op.id (List.mem_map.mpr ⟨_, List.mem_map_of_mem hother, rfl⟩) h.op.id
    (.inl rfl) hid

lemma process (hs : s.Inv parse) {h : Handled} {rest : List Op} (houtbox : s.outbox = [])
    (hphase : s.phase = .looping) (hpending : s.pendingOps = h.op :: rest) :
    Inv parse (s.process parse h rest) := by
  have hrt := (hs.runtime.deliver (hs.isNext hpending)).muted
  have hreport : h.report.toList.filterMap Line.entry = [] := by
    unfold Handled.report
    cases h.delivery.error <;> rfl
  exact {
    runtime := by
      simpa [taken, heard, houtbox, hpending, hreport, Loop.process] using hrt
    initial := by simp [Loop.process, hphase]
    idle := by simp [Loop.process, hphase]
    errors := by simp [Loop.process, hs.errors]
    reports := by
      intro other hother line hline
      simp only [Loop.process, List.mem_append, List.mem_singleton] at hother ⊢
      rcases hother with hold | rfl
      · have := hs.reports other hold line hline
        rw [houtbox, List.append_nil] at this
        exact .inl this
      · exact .inr (.inl (by simp [hline]))
    silent := fun _ => rfl
    drained := by simp [Loop.process, hphase] }

lemma takePendingOps (hs : s.Inv parse) (houtbox : s.outbox = [])
    (hphase : s.phase = .looping) (hpending : s.pendingOps = []) :
    Inv parse s.takePendingOps := by
  have hrt := hs.runtime.unqueued
  have hsilent := hs.silent (.inl hphase)
  exact {
    runtime := by simpa [taken, heard, houtbox, hpending, Loop.takePendingOps] using hrt
    initial := by
      simp only [Loop.takePendingOps, hphase]
      split_ifs <;> simp
    idle := by
      simp only [Loop.takePendingOps, hphase]
      split_ifs <;> simp
    errors := hs.errors
    reports := hs.reports
    silent := fun _ => hsilent
    drained := by
      intro hended
      simp only [Loop.takePendingOps, hphase] at hended
      split_ifs at hended with hqueue
      exact ⟨houtbox, hqueue, rfl⟩ }

lemma step (hs : s.Inv parse) {e : Event} (hstep : s.step parse e = some s') : s'.Inv parse := by
  cases e with
  | prelude turn =>
    simp only [Loop.step] at hstep
    split_ifs at hstep with hguard
    obtain rfl := Option.some.inj hstep
    exact hs.prelude hguard.2 turn
  | execute turn printed =>
    simp only [Loop.step] at hstep
    split_ifs at hstep with hguard
    obtain rfl := Option.some.inj hstep
    exact hs.execute hguard.1 hguard.2 turn printed
  | process result delivery =>
    simp only [Loop.step] at hstep
    split at hstep
    · cases hstep
    next op rest hpending =>
      split_ifs at hstep with hguard
      obtain rfl := Option.some.inj hstep
      exact hs.process hguard.1 hguard.2 hpending
  | takePendingOps =>
    simp only [Loop.step] at hstep
    split_ifs at hstep with hguard
    obtain rfl := Option.some.inj hstep
    exact hs.takePendingOps hguard.1 hguard.2.1 hguard.2.2
  | write accepted =>
    simp only [Loop.step] at hstep
    split at hstep
    · cases hstep
    · cases hstep
    next line rest houtbox hne =>
      split_ifs at hstep
      · obtain rfl := Option.some.inj hstep
        exact hs.write houtbox
      · obtain rfl := Option.some.inj hstep
        exact hs.abort

end Inv

lemma inv_of_reachable (h : Reachable parse s) : s.Inv parse :=
  Reach.invariant (I := fun s => s.Inv parse) h inv_initial fun _ _ _ hs _ hstep => hs.step hstep

/-! ### The result -/

/-- The promise of this id is never settled: its creation failed in a way that nobody is told, its
operation went with the prelude, or the engine failed over it, which was reported. -/
def IsStuck (parse : String → Option Value) (s : Loop) (id : String) (payload : Payload) : Prop :=
  payload.register parse id = .lost ∨ payload.register parse id = .thrown ∨
    id ∈ s.dropped.map Op.id ∨
      ∃ h ∈ s.handled, h.op.id = id ∧ ∃ line ∈ s.written, h.report = some line

/-- What `node` does for a script. -/
structure Serves (parse : String → Option Value) (s : Loop) : Prop where
  ids : (s.runtime.created.map Prod.fst).Nodup
  /-- The operations are lost with the prelude, handled, or wait, in the order of creation. -/
  order : s.dropped ++ s.handled.map Handled.op ++ s.pendingOps ++ s.runtime.queue =
    accepted parse s.runtime.created
  /-- No promise is settled twice. -/
  once : (s.runtime.settled.map Prod.fst).Nodup
  settled : ∀ id outcome, (id, outcome) ∈ s.runtime.settled ↔
    Refused parse s.runtime.created id outcome ∨ Delivered s.handled id outcome
  /-- The messages are written in the order of logging, each to the stream of its level. -/
  output : s.unheard ++ (s.written ++ s.outbox).filterMap Line.entry ++ s.runtime.consoleOutput =
    s.runtime.logged
  complete : s.phase = .ended → s.unheard ++ s.written.filterMap Line.entry = s.runtime.logged ∧
    ∀ id payload, (id, payload) ∈ s.runtime.created →
      (∃ outcome, (id, outcome) ∈ s.runtime.settled) ∨ s.IsStuck parse id payload
  exit : s.exitCode = some 0 ↔
    s.phase = .ended ∧ ∀ h ∈ s.handled, ∃ value, h.result = .ok value

namespace Inv

/-- An operation that was handled has its promise settled, or the failure is reported. -/
lemma settled_or_reported (hs : s.Inv parse) {h : Handled} (hmem : h ∈ s.handled) :
    (∃ outcome, (h.op.id, outcome) ∈ s.runtime.settled) ∨
      ∃ line ∈ s.written ++ s.outbox, h.report = some line := by
  cases hdelivery : h.delivery with
  | settled turn =>
    exact .inl ⟨h.outcome, (hs.runtime.settled _ _).mpr
      (.inr ⟨h, hmem, rfl, ⟨turn, hdelivery⟩, rfl⟩)⟩
  | thrown error =>
    obtain ⟨line, hline⟩ := h.exists_report (by rw [hdelivery]; rfl)
    exact .inr ⟨line, hs.reports h hmem line hline, hline⟩
  | failed error =>
    obtain ⟨line, hline⟩ := h.exists_report (by rw [hdelivery]; rfl)
    exact .inr ⟨line, hs.reports h hmem line hline, hline⟩

lemma complete (hs : s.Inv parse) (hended : s.phase = .ended) {payload : Payload}
    (hcreated : (id, payload) ∈ s.runtime.created) :
    (∃ outcome, (id, outcome) ∈ s.runtime.settled) ∨ s.IsStuck parse id payload := by
  obtain ⟨houtbox, hpending, hqueue⟩ := hs.drained hended
  cases hr : payload.register parse id with
  | accepted op =>
    obtain rfl := Payload.id_of_register hr
    have hop : op ∈ accepted parse s.runtime.created := mem_accepted.mpr ⟨payload, hcreated, hr⟩
    rw [← hs.runtime.order, taken, hpending, hqueue, List.append_nil, List.append_nil,
      List.mem_append] at hop
    rcases hop with hdropped | hhandled
    · exact .inr (.inr (.inr (.inl (List.mem_map_of_mem hdropped))))
    · obtain ⟨h, hmem, rfl⟩ := List.mem_map.mp hhandled
      rcases hs.settled_or_reported hmem with hsettled | ⟨line, hline, hreport⟩
      · exact .inl hsettled
      · rw [houtbox, List.append_nil] at hline
        exact .inr (.inr (.inr (.inr ⟨h, hmem, rfl, line, hline, hreport⟩)))
  | refused message =>
    exact .inl ⟨_, (hs.runtime.settled _ _).mpr (.inl ⟨payload, message, hcreated, hr, rfl⟩)⟩
  | lost => exact .inr (.inl hr)
  | thrown => exact .inr (.inr (.inl hr))

lemma exitCode_eq_zero_iff (hs : s.Inv parse) : s.exitCode = some 0 ↔
    s.phase = .ended ∧ ∀ h ∈ s.handled, ∃ value, h.result = .ok value := by
  have hresults : s.hadOpError = false ↔ ∀ h ∈ s.handled, ∃ value, h.result = .ok value := by
    rw [hs.errors, List.any_eq_false]
    refine forall₂_congr fun h _ => ?_
    cases h.result <;> simp [Except.isOk, Except.toBool]
  rw [← hresults]
  cases hphase : s.phase with
  | ended =>
    rw [exitCode, if_pos (hs.drained hphase).1, hphase]
    cases s.hadOpError <;> simp
  | _ => simp [exitCode, hphase]

end Inv

/-- Whatever a script does and whatever its operations come to, each promise is settled at most
once, with what became of its own operation, and the loop does not end before the last of them. -/
theorem serves_of_reachable (h : Reachable parse s) : s.Serves parse := by
  have hs := inv_of_reachable h
  exact {
    ids := hs.runtime.ids
    order := hs.runtime.order
    once := hs.runtime.once
    settled := hs.runtime.settled
    output := hs.runtime.console
    complete := by
      intro hended
      refine ⟨?_, fun id payload hcreated => hs.complete hended hcreated⟩
      have := hs.runtime.console
      rwa [heard, (hs.drained hended).1, hs.silent (.inr hended), List.append_nil,
        List.append_nil] at this
    exit := hs.exitCode_eq_zero_iff }

/-! A script after a prelude with a sleep of its own. It sleeps, asks for an operation that does not
exist, and for a file; what follows the sleep asks for a command. -/

def sleepText : String := "\x7b\"type\":\"sleep\",\"delay_ms\":5\x7d"
def napText : String := "\x7b\"type\":\"nap\"\x7d"
def readText : String := "\x7b\"type\":\"fs_read\",\"path\":\"/f\",\"options\":\x7b\x7d\x7d"
def shellText : String := "\x7b\"type\":\"shell\",\"command\":\"ls\"\x7d"

def parseSample (text : String) : Option Value :=
  if text = sleepText then
    some (.object [("delay_ms", .number (.posInt 5)), ("type", .string "sleep")])
  else if text = napText then some (.object [("type", .string "nap")])
  else if text = readText then
    some (.object [("options", .object []), ("path", .string "/f"), ("type", .string "fs_read")])
  else if text = shellText then
    some (.object [("command", .string "ls"), ("type", .string "shell")])
  else none

def logArgs (level message : String) : Option (List Value) := some [.string level, .string message]

def sampleRun : List Event := [
  .prelude ⟨[.create (.json sleepText), .log (logArgs "log" "ready")], none⟩,
  .execute ⟨[.create (.json sleepText), .create (.json napText), .log (logArgs "log" "a"),
    .create (.json readText), .log (logArgs "warn" "b"), .create .throws], none⟩ none,
  .write true,
  .write true,
  .process (.ok .null) (.settled ⟨[.create (.json shellText), .log (logArgs "info" "c")], none⟩),
  .write true,
  .process (.error "ENOENT: not found") (.failed "out of memory"),
  .write true,
  .takePendingOps,
  .process (.ok .null) (.settled ⟨[], none⟩),
  .takePendingOps]

theorem serves_sampleRun : ∃ s : Loop, sampleRun.foldlM (step parseSample) {} = some s ∧
    s.exitCode = some 1 ∧ s.stream false = "a\nc\n" ∧ s.Serves parseSample := by
  obtain ⟨s, hs⟩ : ∃ s, sampleRun.foldlM (step parseSample) {} = some s := ⟨_, rfl⟩
  refine ⟨s, hs, ?_, ?_, serves_of_reachable (reach_foldlM (by decide) hs)⟩
  · obtain rfl := Option.some.inj hs
    rfl
  · obtain rfl := Option.some.inj hs
    rfl

end Loop

end AmlaSandbox.Js
