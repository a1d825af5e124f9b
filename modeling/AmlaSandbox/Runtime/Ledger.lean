import AmlaSandbox.Runtime.History
import Mathlib.Logic.Relation

/-!
# The ledger of a runtime

What a runtime exposes is decided by its command table and by what it tracks about stdin. `Move`
says what one transition can do to these and to the history. Every move keeps the invariant that
ties the two together: a command whose exit was reported has no task, and what is tracked about
stdin is what the history says.
-/

namespace AmlaSandbox.Runtimes

open Host Scheduling

variable {E : Engine}

/-- The part of a runtime that decides what is exposed. -/
structure Ledger where
  id : RuntimeId
  commands : AList fun _ : CommandHandle => CommandState
  nextHandle : CommandHandle
  stdinClosed : List CommandHandle
  pendingStdin : AList fun _ : HostOpId => CommandHandle

def Runtime.ledger (rt : Runtime E) : Ledger :=
  ⟨rt.id, rt.commands, rt.nextHandle, rt.stdinClosedCommands, rt.pendingStdinOps⟩

namespace Ledger

variable (l : Ledger)

/-- The command is in the table and has not reported an exit. -/
def Live (handle : CommandHandle) : Prop :=
  ∃ cmd, l.commands.lookup handle = some cmd ∧ cmd.active

/-- The command may still run: it has not reported an exit, or it has a task. -/
def Owns (handle : CommandHandle) : Prop :=
  ∃ cmd, l.commands.lookup handle = some cmd ∧ (cmd.active ∨ cmd.taskHandle.isSome)

def setCommand (handle : CommandHandle) (cmd : CommandState) : Ledger :=
  { l with commands := l.commands.insert handle cmd }

variable {l} {handle h : CommandHandle} {cmd c : CommandState}

lemma live_setCommand :
    (l.setCommand handle cmd).Live h ↔ if h = handle then cmd.active = true else l.Live h := by
  by_cases heq : h = handle
  · subst heq
    simp [Live, setCommand]
  · simp [Live, setCommand, heq]

lemma lookup_setCommand (hc : (l.setCommand handle cmd).commands.lookup h = some c) :
    (h = handle ∧ c = cmd) ∨ (h ≠ handle ∧ l.commands.lookup h = some c) := by
  by_cases heq : h = handle
  · subst heq
    rw [setCommand, AList.lookup_insert] at hc
    exact Or.inl ⟨rfl, (Option.some.inj hc).symm⟩
  · rw [setCommand, AList.lookup_insert_ne heq] at hc
    exact Or.inr ⟨heq, hc⟩

lemma lookup_erase (hc : (l.commands.erase handle).lookup h = some c) :
    l.commands.lookup h = some c := by
  by_cases heq : h = handle
  · subst heq
    rw [AList.lookup_erase] at hc
    cases hc
  · rwa [AList.lookup_erase_ne heq] at hc

end Ledger

/-- What ties a history to the table and to what is tracked about stdin. -/
structure Inv (l : Ledger) (history : History) : Prop where
  bound : ∀ h cmd, l.commands.lookup h = some cmd → h < l.nextHandle
  idle : ∀ h cmd, l.commands.lookup h = some cmd → cmd.active = false → cmd.taskHandle = none
  seen : ∀ note ∈ history, ∀ h, note.command = some h → h < l.nextHandle
  exits : ∀ note ∈ history, ∀ h, note.exitOf = some h → ¬ l.Live h
  exitLast : history.Pairwise fun later earlier =>
    ∀ h, earlier.exitOf = some h → later.command ≠ some h
  minusOne : ∀ h cmd, l.commands.lookup h = some cmd → cmd.cancelled →
    ∀ op, Note.exposed op ∈ history → op.command = some h →
      ∀ code elapsedNs userTimeNs, op.request = .commandExit code elapsedNs userTimeNs → code = -1
  asked : ∀ id h, l.pendingStdin.lookup id = some h → history.Asked l.id id h
  kept : ∀ id h, history.Asked l.id id h → l.Live h → l.pendingStdin.lookup id = some h
  closed : ∀ h ∈ l.stdinClosed, history.AnsweredEof l.id h
  opened : ∀ h, history.AnsweredEof l.id h → l.Live h → h ∈ l.stdinClosed
  reads : ∀ newer op older h, history = newer ++ .exposed op :: older → op.command = some h →
    op.request.isReadStdin → ¬ History.AnsweredEof l.id h older

namespace Note

variable {note : Note} {h : CommandHandle}

lemma command_of_exitOf (hexit : note.exitOf = some h) : note.command = some h := by
  cases note with
  | exposed op =>
    simp only [exitOf] at hexit
    split_ifs at hexit
    exact hexit
  | submitted result => cases hexit

lemma command_of_asks {id : HostOpId} (hasks : note.Asks id h) : note.command = some h := by
  cases note with
  | exposed op => exact hasks.2.2
  | submitted result => exact hasks.elim

end Note

namespace History

variable {history : History} {id : RuntimeId} {opId : HostOpId} {h : CommandHandle}

lemma Asked.exists_command (hasked : history.Asked id opId h) :
    ∃ note ∈ history, note.command = some h := by
  induction history with
  | nil => exact hasked.elim
  | cons note earlier ih =>
    rcases hasked with hasks | ⟨_, hearlier⟩
    · exact ⟨note, List.mem_cons_self, Note.command_of_asks hasks⟩
    · obtain ⟨old, hold, hcommand⟩ := ih hearlier
      exact ⟨old, List.mem_cons_of_mem _ hold, hcommand⟩

lemma AnsweredEof.exists_command (hanswered : history.AnsweredEof id h) :
    ∃ note ∈ history, note.command = some h := by
  induction history with
  | nil => exact hanswered.elim
  | cons note earlier ih =>
    rcases hanswered with hearlier | ⟨_, _, hasked⟩
    · obtain ⟨old, hold, hcommand⟩ := ih hearlier
      exact ⟨old, List.mem_cons_of_mem _ hold, hcommand⟩
    · obtain ⟨old, hold, hcommand⟩ := hasked.exists_command
      exact ⟨old, List.mem_cons_of_mem _ hold, hcommand⟩

lemma asked_exposed {op : PendingHostOp} (hread : op.request.isReadStdin → op.command = none) :
    Asked id opId h (.exposed op :: history) ↔ history.Asked id opId h := by
  have hasks : ¬ (Note.exposed op).Asks opId h := by
    rintro ⟨hstdin, _, hcommand⟩
    rw [hread hstdin] at hcommand
    cases hcommand
  have hmentions : ¬ (Note.exposed op).Mentions id opId := by
    rintro ⟨hstdin, _, hcommand⟩
    rw [hread hstdin] at hcommand
    cases hcommand
  simp [Asked, hasks, hmentions]

lemma asked_read {op : PendingHostOp} {handle : CommandHandle} (hread : op.request.isReadStdin)
    (hcommand : op.command = some handle) :
    Asked id opId h (.exposed op :: history) ↔
      (op.id = opId ∧ handle = h) ∨ (op.id ≠ opId ∧ history.Asked id opId h) := by
  simp [Asked, Note.Asks, Note.Mentions, hread, hcommand]

lemma answeredEof_exposed {op : PendingHostOp} :
    AnsweredEof id h (.exposed op :: history) ↔ history.AnsweredEof id h := by
  simp [AnsweredEof, Note.EndsStdin]

end History

namespace Inv

variable {l : Ledger} {history : History} {op : PendingHostOp} {handle : CommandHandle}

/-! ### Exposing an operation -/

lemma reads_cons (hinv : Inv l history) (note : Note)
    (hnote : ∀ op h, note = .exposed op → op.command = some h → op.request.isReadStdin →
      ¬ history.AnsweredEof l.id h) :
    ∀ newer op older h, note :: history = newer ++ .exposed op :: older → op.command = some h →
      op.request.isReadStdin → ¬ History.AnsweredEof l.id h older := by
  intro newer op older h heq hcommand hread
  cases newer with
  | nil =>
    obtain ⟨rfl, rfl⟩ := List.cons.inj heq
    exact hnote op h rfl hcommand hread
  | cons first newer => exact hinv.reads newer op older h (List.cons.inj heq).2 hcommand hread

lemma exitLast_cons (hinv : Inv l history) {note : Note}
    (hlive : ∀ h, note.command = some h → l.Live h) :
    (note :: history).Pairwise fun later earlier =>
      ∀ h, earlier.exitOf = some h → later.command ≠ some h := by
  refine List.pairwise_cons.mpr ⟨fun earlier hmem h hexit hcommand => ?_, hinv.exitLast⟩
  exact hinv.exits earlier hmem h hexit (hlive h hcommand)

lemma seen_cons (hinv : Inv l history) {note : Note}
    (hlive : ∀ h, note.command = some h → l.Live h) :
    ∀ note' ∈ note :: history, ∀ h, note'.command = some h → h < l.nextHandle := by
  refine List.forall_mem_cons.mpr ⟨fun h hcommand => ?_, hinv.seen⟩
  obtain ⟨cmd, hlookup, _⟩ := hlive h hcommand
  exact hinv.bound h cmd hlookup

lemma exits_cons (hinv : Inv l history) (hexit : op.request.isExit = false) :
    ∀ note ∈ Note.exposed op :: history, ∀ h, note.exitOf = some h → ¬ l.Live h := by
  refine List.forall_mem_cons.mpr ⟨fun h hexitOf => ?_, hinv.exits⟩
  rw [Note.exitOf, hexit] at hexitOf
  cases hexitOf

lemma minusOne_cons (hinv : Inv l history) (hexit : op.request.isExit = false) :
    ∀ h cmd, l.commands.lookup h = some cmd → cmd.cancelled →
      ∀ op', Note.exposed op' ∈ Note.exposed op :: history → op'.command = some h →
        ∀ code elapsedNs userTimeNs,
          op'.request = .commandExit code elapsedNs userTimeNs → code = -1 := by
  intro h cmd hlookup hcancelled op' hmem hcommand code elapsedNs userTimeNs hrequest
  rcases List.mem_cons.mp hmem with heq | hmem
  · cases heq
    rw [hrequest] at hexit
    cases hexit
  · exact hinv.minusOne h cmd hlookup hcancelled op' hmem hcommand code _ _ hrequest

/-- An operation other than an exit and an attributed read of stdin. -/
lemma expose (hinv : Inv l history) (hexit : op.request.isExit = false)
    (hlive : ∀ h, op.command = some h → l.Live h)
    (hread : op.request.isReadStdin → op.command = none) : Inv l (.exposed op :: history) where
  bound := hinv.bound
  idle := hinv.idle
  seen := hinv.seen_cons hlive
  exits := hinv.exits_cons hexit
  exitLast := hinv.exitLast_cons hlive
  minusOne := hinv.minusOne_cons hexit
  asked id h hlookup := (History.asked_exposed hread).mpr (hinv.asked id h hlookup)
  kept id h hasked := hinv.kept id h ((History.asked_exposed hread).mp hasked)
  closed h hclosed := History.answeredEof_exposed.mpr (hinv.closed h hclosed)
  opened h hanswered := hinv.opened h (History.answeredEof_exposed.mp hanswered)
  reads := by
    refine hinv.reads_cons _ fun op' h heq hcommand hstdin => ?_
    cases heq
    rw [hread hstdin] at hcommand
    cases hcommand

/-- A read of the stdin of a live command that is not closed. -/
lemma exposeRead (hinv : Inv l history) (hread : op.request.isReadStdin)
    (hcommand : op.command = some handle) (hlive : l.Live handle)
    (hopen : handle ∉ l.stdinClosed) :
    Inv { l with pendingStdin := l.pendingStdin.insert op.id handle }
      (.exposed op :: history) where
  bound := hinv.bound
  idle := hinv.idle
  seen := by
    refine hinv.seen_cons fun h hnote => ?_
    obtain rfl := Option.some.inj (hcommand.symm.trans hnote)
    exact hlive
  exits := by
    have hexit : op.request.isExit = false := by
      cases hrequest : op.request <;> simp_all [Request.isReadStdin, Request.isExit]
    exact hinv.exits_cons hexit
  exitLast := by
    refine hinv.exitLast_cons fun h hnote => ?_
    obtain rfl := Option.some.inj (hcommand.symm.trans hnote)
    exact hlive
  minusOne := by
    have hexit : op.request.isExit = false := by
      cases hrequest : op.request <;> simp_all [Request.isReadStdin, Request.isExit]
    exact hinv.minusOne_cons hexit
  asked id h hlookup := by
    rw [History.asked_read hread hcommand]
    by_cases hid : id = op.id
    · subst hid
      rw [AList.lookup_insert] at hlookup
      exact Or.inl ⟨rfl, Option.some.inj hlookup⟩
    · rw [AList.lookup_insert_ne hid] at hlookup
      exact Or.inr ⟨Ne.symm hid, hinv.asked id h hlookup⟩
  kept id h hasked hliveh := by
    rw [History.asked_read hread hcommand] at hasked
    rcases hasked with ⟨rfl, rfl⟩ | ⟨hid, hasked⟩
    · exact AList.lookup_insert _
    · rw [AList.lookup_insert_ne (Ne.symm hid)]
      exact hinv.kept id h hasked hliveh
  closed h hclosed := History.answeredEof_exposed.mpr (hinv.closed h hclosed)
  opened h hanswered := hinv.opened h (History.answeredEof_exposed.mp hanswered)
  reads := by
    refine hinv.reads_cons _ fun op' h heq hcommand' _ hanswered => ?_
    cases heq
    obtain rfl := Option.some.inj (hcommand.symm.trans hcommand')
    exact hopen (hinv.opened _ hanswered hlive)

/-- The exit of a live command, which becomes inactive. -/
lemma exposeExit (hinv : Inv l history) {cmd : CommandState} {code : Int32}
    {elapsedNs userTimeNs : Option UInt64}
    (hrequest : op.request = .commandExit code elapsedNs userTimeNs)
    (hcommand : op.command = some handle) (hlive : l.Live handle) (hidle : cmd.active = false)
    (htask : cmd.taskHandle = none) (hcode : cmd.cancelled → code = -1) :
    Inv (l.setCommand handle cmd) (.exposed op :: history) := by
  have hread : op.request.isReadStdin → op.command = none := by simp [hrequest, Request.isReadStdin]
  have hnote : ∀ h, (Note.exposed op).command = some h → l.Live h := by
    intro h hop
    obtain rfl := Option.some.inj (hcommand.symm.trans hop)
    exact hlive
  have hdead : ∀ h, (l.setCommand handle cmd).Live h → h ≠ handle ∧ l.Live h := by
    intro h hh
    rw [Ledger.live_setCommand, hidle] at hh
    by_cases heq : h = handle
    · rw [if_pos heq] at hh
      cases hh
    · rw [if_neg heq] at hh
      exact ⟨heq, hh⟩
  obtain ⟨old, hold, _⟩ := hlive
  exact {
    bound := by
      intro h c hc
      rcases Ledger.lookup_setCommand hc with ⟨rfl, _⟩ | ⟨_, hc⟩
      · exact hinv.bound _ old hold
      · exact hinv.bound h c hc
    idle := by
      intro h c hc hinactive
      rcases Ledger.lookup_setCommand hc with ⟨_, rfl⟩ | ⟨_, hc⟩
      · exact htask
      · exact hinv.idle h c hc hinactive
    seen := hinv.seen_cons hnote
    exits := by
      refine List.forall_mem_cons.mpr ⟨fun h hexit hh => ?_, fun note hmem h hexit hh => ?_⟩
      · have hop := Note.command_of_exitOf hexit
        obtain rfl := Option.some.inj (hcommand.symm.trans hop)
        exact (hdead _ hh).1 rfl
      · exact hinv.exits note hmem h hexit (hdead h hh).2
    exitLast := hinv.exitLast_cons hnote
    minusOne := by
      intro h c hc hcancelled op' hmem hop' code' e u hreq
      rcases List.mem_cons.mp hmem with heq | hmem
      · cases heq
        obtain rfl := Option.some.inj (hcommand.symm.trans hop')
        rw [hrequest] at hreq
        cases hreq
        rcases Ledger.lookup_setCommand hc with ⟨_, rfl⟩ | ⟨hne, _⟩
        · exact hcode hcancelled
        · exact absurd rfl hne
      · rcases Ledger.lookup_setCommand hc with ⟨rfl, rfl⟩ | ⟨_, hc⟩
        · refine absurd ⟨old, hold, ‹_›⟩ (hinv.exits _ hmem _ ?_)
          rw [Note.exitOf, hreq, Request.isExit, if_pos rfl, hop']
        · exact hinv.minusOne h c hc hcancelled op' hmem hop' code' e u hreq
    asked := fun id h hid => (History.asked_exposed hread).mpr (hinv.asked id h hid)
    kept := fun id h hasked hh =>
      hinv.kept id h ((History.asked_exposed hread).mp hasked) (hdead h hh).2
    closed := fun h hclosed => History.answeredEof_exposed.mpr (hinv.closed h hclosed)
    opened := fun h hanswered hh =>
      hinv.opened h (History.answeredEof_exposed.mp hanswered) (hdead h hh).2
    reads := by
      refine hinv.reads_cons _ fun op' h heq hop' hstdin => ?_
      cases heq
      rw [hread hstdin] at hop'
      cases hop' }

/-! ### Changes of the table -/

/-- Changes that bring no old command back to life and forget stdin only of dead ones. -/
lemma transfer (hinv : Inv l history) {l' : Ledger} (hid : l'.id = l.id)
    (hnext : l.nextHandle ≤ l'.nextHandle)
    (hbound : ∀ h cmd, l'.commands.lookup h = some cmd → h < l'.nextHandle)
    (hidle : ∀ h cmd, l'.commands.lookup h = some cmd → cmd.active = false → cmd.taskHandle = none)
    (hlive : ∀ h < l.nextHandle, l'.Live h → l.Live h)
    (hcancelled : ∀ h < l.nextHandle, ∀ cmd', l'.commands.lookup h = some cmd' → cmd'.cancelled →
      ∃ cmd, l.commands.lookup h = some cmd ∧ cmd.cancelled)
    (hasked : ∀ id h, l'.pendingStdin.lookup id = some h → l.pendingStdin.lookup id = some h)
    (hkept : ∀ id h, l.pendingStdin.lookup id = some h → l'.Live h →
      l'.pendingStdin.lookup id = some h)
    (hclosed : ∀ h ∈ l'.stdinClosed, h ∈ l.stdinClosed)
    (hopened : ∀ h ∈ l.stdinClosed, l'.Live h → h ∈ l'.stdinClosed) : Inv l' history where
  bound := hbound
  idle := hidle
  seen note hmem h hcommand := (hinv.seen note hmem h hcommand).trans_le hnext
  exits note hmem h hexit hh :=
    hinv.exits note hmem h hexit
      (hlive h (hinv.seen note hmem h (Note.command_of_exitOf hexit)) hh)
  exitLast := hinv.exitLast
  minusOne h cmd' hlookup hc op hmem hcommand := by
    obtain ⟨cmd, hold, hcmd⟩ := hcancelled h (hinv.seen _ hmem h hcommand) cmd' hlookup hc
    exact hinv.minusOne h cmd hold hcmd op hmem hcommand
  asked id h hlookup := hid ▸ hinv.asked id h (hasked id h hlookup)
  kept id h ha hh := by
    rw [hid] at ha
    obtain ⟨note, hmem, hcommand⟩ := ha.exists_command
    exact hkept id h (hinv.kept id h ha (hlive h (hinv.seen note hmem h hcommand) hh)) hh
  closed h hh := hid ▸ hinv.closed h (hclosed h hh)
  opened h ha hh := by
    rw [hid] at ha
    obtain ⟨note, hmem, hcommand⟩ := ha.exists_command
    exact hopened h (hinv.opened h ha (hlive h (hinv.seen note hmem h hcommand) hh)) hh
  reads := hid ▸ hinv.reads

/-- A command changes, but neither whether it is active nor whether it was cancelled. -/
lemma update (hinv : Inv l history) {cmd cmd' : CommandState}
    (hlookup : l.commands.lookup handle = some cmd) (hactive : cmd'.active = cmd.active)
    (hcancelled : cmd'.cancelled = cmd.cancelled)
    (hidle : cmd'.active = false → cmd'.taskHandle = none) :
    Inv (l.setCommand handle cmd') history := by
  refine hinv.transfer rfl le_rfl (fun h c hc => ?_) (fun h c hc hinactive => ?_)
    (fun h _ hh => ?_) (fun h _ c hc hcan => ?_) (fun _ _ hid => hid) (fun _ _ hid _ => hid)
    (fun _ hh => hh) (fun _ hh _ => hh)
  · rcases Ledger.lookup_setCommand hc with ⟨rfl, _⟩ | ⟨_, hc⟩
    · exact hinv.bound _ cmd hlookup
    · exact hinv.bound h c hc
  · rcases Ledger.lookup_setCommand hc with ⟨_, rfl⟩ | ⟨_, hc⟩
    · exact hidle hinactive
    · exact hinv.idle h c hc hinactive
  · obtain ⟨c, hc, hc'⟩ := hh
    rcases Ledger.lookup_setCommand hc with ⟨rfl, rfl⟩ | ⟨_, hc⟩
    · exact ⟨cmd, hlookup, hactive ▸ hc'⟩
    · exact ⟨c, hc, hc'⟩
  · rcases Ledger.lookup_setCommand hc with ⟨rfl, rfl⟩ | ⟨_, hc⟩
    · exact ⟨cmd, hlookup, hcancelled ▸ hcan⟩
    · exact ⟨c, hc, hcan⟩

/-- A new command under the next handle. -/
lemma create (hinv : Inv l history) {cmd : CommandState} (htask : cmd.taskHandle = none) :
    Inv ({ l with nextHandle := l.nextHandle + 1 }.setCommand l.nextHandle cmd) history := by
  refine hinv.transfer rfl (Nat.le_succ _) (fun h c hc => ?_) (fun h c hc hinactive => ?_)
    (fun h hlt hh => ?_) (fun h hlt c hc hcan => ?_) (fun _ _ hid => hid) (fun _ _ hid _ => hid)
    (fun _ hh => hh) (fun _ hh _ => hh)
  · rcases Ledger.lookup_setCommand hc with ⟨rfl, _⟩ | ⟨_, hc⟩
    · exact Nat.lt_succ_self _
    · exact Nat.lt_succ_of_lt (hinv.bound h c hc)
  · rcases Ledger.lookup_setCommand hc with ⟨_, rfl⟩ | ⟨_, hc⟩
    · exact htask
    · exact hinv.idle h c hc hinactive
  · obtain ⟨c, hc, hc'⟩ := hh
    rcases Ledger.lookup_setCommand hc with ⟨rfl, _⟩ | ⟨_, hc⟩
    · exact absurd hlt (lt_irrefl _)
    · exact ⟨c, hc, hc'⟩
  · rcases Ledger.lookup_setCommand hc with ⟨rfl, _⟩ | ⟨_, hc⟩
    · exact absurd hlt (lt_irrefl _)
    · exact ⟨c, hc, hcan⟩

lemma delete (hinv : Inv l history) (handle : CommandHandle) :
    Inv { l with commands := l.commands.erase handle } history := by
  refine hinv.transfer rfl le_rfl (fun h c hc => hinv.bound h c (Ledger.lookup_erase hc))
    (fun h c hc => hinv.idle h c (Ledger.lookup_erase hc)) (fun h _ hh => ?_)
    (fun h _ c hc hcan => ⟨c, Ledger.lookup_erase hc, hcan⟩) (fun _ _ hid => hid)
    (fun _ _ hid _ => hid)
    (fun _ hh => hh) (fun _ hh _ => hh)
  obtain ⟨c, hc, hc'⟩ := hh
  exact ⟨c, Ledger.lookup_erase hc, hc'⟩

/-- The stdin of a command that is not live is forgotten. -/
lemma forget (hinv : Inv l history) (hdead : ¬ l.Live handle) {closed : List CommandHandle}
    {pending : AList fun _ : HostOpId => CommandHandle}
    (hclosed : ∀ h, h ∈ closed ↔ h ∈ l.stdinClosed ∧ h ≠ handle)
    (hpending : ∀ id h, pending.lookup id = some h ↔
      l.pendingStdin.lookup id = some h ∧ h ≠ handle) :
    Inv { l with stdinClosed := closed, pendingStdin := pending } history := by
  refine hinv.transfer rfl le_rfl hinv.bound hinv.idle (fun _ _ hh => hh)
    (fun _ _ c hc hcan => ⟨c, hc, hcan⟩) (fun id h hid => ((hpending id h).mp hid).1)
    (fun id h hid hh => ?_) (fun h hh => ((hclosed h).mp hh).1) (fun h hmem hh => ?_)
  · refine (hpending id h).mpr ⟨hid, ?_⟩
    rintro rfl
    exact hdead hh
  · refine (hclosed h).mpr ⟨hmem, ?_⟩
    rintro rfl
    exact hdead hh

/-! ### Results of the host -/

/-- A result of the host, whose stdin data answers the pending read and may close the stdin. -/
lemma submit (hinv : Inv l history) {result : HostOpResult} {closed : List CommandHandle}
    {pending : AList fun _ : HostOpId => CommandHandle}
    (hpending : ∀ id h, pending.lookup id = some h ↔
      l.pendingStdin.lookup id = some h ∧ ¬ (Note.submitted result).Mentions l.id id)
    (hclosed : ∀ h, h ∈ closed ↔ h ∈ l.stdinClosed ∨
      ∃ id, (Note.submitted result).EndsStdin l.id id ∧ l.pendingStdin.lookup id = some h) :
    Inv { l with stdinClosed := closed, pendingStdin := pending }
      (.submitted result :: history) where
  bound := hinv.bound
  idle := hinv.idle
  seen := by
    refine List.forall_mem_cons.mpr ⟨fun h hcommand => ?_, hinv.seen⟩
    cases hcommand
  exits := by
    refine List.forall_mem_cons.mpr ⟨fun h hexit => ?_, hinv.exits⟩
    cases hexit
  exitLast := by
    refine List.pairwise_cons.mpr ⟨fun earlier _ h _ hcommand => ?_, hinv.exitLast⟩
    cases hcommand
  minusOne h cmd hlookup hcancelled op hmem := by
    rcases List.mem_cons.mp hmem with heq | hmem
    · cases heq
    · exact hinv.minusOne h cmd hlookup hcancelled op hmem
  asked id h hlookup := by
    obtain ⟨hold, hmentions⟩ := (hpending id h).mp hlookup
    exact Or.inr ⟨hmentions, hinv.asked id h hold⟩
  kept id h hasked hlive := by
    rcases hasked with hasks | ⟨hmentions, hasked⟩
    · exact hasks.elim
    · exact (hpending id h).mpr ⟨hinv.kept id h hasked hlive, hmentions⟩
  closed h hmem := by
    rcases (hclosed h).mp hmem with hmem | ⟨id, hends, hlookup⟩
    · exact Or.inl (hinv.closed h hmem)
    · exact Or.inr ⟨id, hends, hinv.asked id h hlookup⟩
  opened h hanswered hlive := by
    rcases hanswered with hanswered | ⟨id, hends, hasked⟩
    · exact (hclosed h).mpr (Or.inl (hinv.opened h hanswered hlive))
    · exact (hclosed h).mpr (Or.inr ⟨id, hends, hinv.kept id h hasked hlive⟩)
  reads := by
    refine hinv.reads_cons _ fun op h heq => ?_
    cases heq

end Inv

/-! ### Moves -/

/-- What one transition can do to a ledger and to the history. -/
inductive Move : Ledger × History → Ledger × History → Prop
  | expose {l : Ledger} {history : History} {op : PendingHostOp} :
    op.request.isExit = false → (∀ h, op.command = some h → l.Owns h) →
      (op.request.isReadStdin → op.command = none) →
      Move (l, history) (l, .exposed op :: history)
  | exposeRead {l : Ledger} {history : History} (op : PendingHostOp) (handle : CommandHandle) :
    op.request.isReadStdin → op.command = some handle → l.Owns handle →
      handle ∉ l.stdinClosed →
      Move (l, history)
        ({ l with pendingStdin := l.pendingStdin.insert op.id handle }, .exposed op :: history)
  | exit {l : Ledger} {history : History} {op : PendingHostOp} {handle : CommandHandle}
    {cmd : CommandState} {code : Int32} {elapsedNs userTimeNs : Option UInt64} :
    op.request = .commandExit code elapsedNs userTimeNs → op.command = some handle →
      l.Live handle → cmd.active = false → cmd.taskHandle = none →
      (cmd.cancelled → code = -1) →
      Move (l, history) (l.setCommand handle cmd, .exposed op :: history)
  | update {l : Ledger} {history : History} {handle : CommandHandle} {cmd cmd' : CommandState} :
    l.commands.lookup handle = some cmd → cmd'.active = cmd.active →
      cmd'.cancelled = cmd.cancelled → (cmd'.active = false → cmd'.taskHandle = none) →
      Move (l, history) (l.setCommand handle cmd', history)
  | create {l : Ledger} {history : History} {cmd : CommandState} : cmd.taskHandle = none →
      Move (l, history)
        ({ l with nextHandle := l.nextHandle + 1 }.setCommand l.nextHandle cmd, history)
  | delete {l : Ledger} {history : History} (handle : CommandHandle) :
      Move (l, history) ({ l with commands := l.commands.erase handle }, history)
  | forget {l : Ledger} {history : History} (handle : CommandHandle)
    {closed : List CommandHandle} {pending : AList fun _ : HostOpId => CommandHandle} :
    ¬ l.Live handle → (∀ h, h ∈ closed ↔ h ∈ l.stdinClosed ∧ h ≠ handle) →
      (∀ id h, pending.lookup id = some h ↔ l.pendingStdin.lookup id = some h ∧ h ≠ handle) →
      Move (l, history) ({ l with stdinClosed := closed, pendingStdin := pending }, history)
  | submit {l : Ledger} {history : History} {result : HostOpResult}
    {closed : List CommandHandle} {pending : AList fun _ : HostOpId => CommandHandle} :
    (∀ id h, pending.lookup id = some h ↔
        l.pendingStdin.lookup id = some h ∧ ¬ (Note.submitted result).Mentions l.id id) →
      (∀ h, h ∈ closed ↔ h ∈ l.stdinClosed ∨
        ∃ id, (Note.submitted result).EndsStdin l.id id ∧ l.pendingStdin.lookup id = some h) →
      Move (l, history)
        ({ l with stdinClosed := closed, pendingStdin := pending }, .submitted result :: history)

/-- Any number of moves. -/
abbrev Moves : Ledger × History → Ledger × History → Prop := Relation.ReflTransGen Move

variable {l : Ledger} {history : History} {s s' : Ledger × History}

lemma Inv.live_of_owns (hinv : Inv l history) {handle : CommandHandle} (h : l.Owns handle) :
    l.Live handle := by
  obtain ⟨cmd, hlookup, htask⟩ := h
  refine ⟨cmd, hlookup, ?_⟩
  by_contra hidle
  rw [Bool.not_eq_true] at hidle
  rcases htask with hactive | htask
  · rw [hidle] at hactive
    cases hactive
  · rw [hinv.idle handle cmd hlookup hidle] at htask
    cases htask

lemma Inv.of_move (h : Move s s') (hinv : Inv s.1 s.2) : Inv s'.1 s'.2 := by
  cases h with
  | expose hexit howner hread =>
    exact hinv.expose hexit (fun h hcommand => hinv.live_of_owns (howner h hcommand)) hread
  | exposeRead op handle hread hcommand howner hopen =>
    exact hinv.exposeRead hread hcommand (hinv.live_of_owns howner) hopen
  | exit hrequest hcommand hlive hidle htask hcode =>
    exact hinv.exposeExit hrequest hcommand hlive hidle htask hcode
  | update hlookup hactive hcancelled hidle => exact hinv.update hlookup hactive hcancelled hidle
  | create htask => exact hinv.create htask
  | delete handle => exact hinv.delete handle
  | forget handle hdead hclosed hpending => exact hinv.forget hdead hclosed hpending
  | submit hpending hclosed => exact hinv.submit hpending hclosed

theorem Inv.of_moves (h : Moves s s') (hinv : Inv s.1 s.2) : Inv s'.1 s'.2 := by
  induction h with
  | refl => exact hinv
  | tail _ hmove ih => exact ih.of_move hmove

/-- The command was created, and is cancelled if it is still in the table. -/
def Ledger.StaysCancelled (l : Ledger) (handle : CommandHandle) : Prop :=
  handle < l.nextHandle ∧ ∀ cmd, l.commands.lookup handle = some cmd → cmd.cancelled

lemma Ledger.StaysCancelled.of_move {handle : CommandHandle} (h : Move s s')
    (hcan : s.1.StaysCancelled handle) : s'.1.StaysCancelled handle := by
  obtain ⟨hlt, hcmd⟩ := hcan
  cases h with
  | expose _ _ _ => exact ⟨hlt, hcmd⟩
  | exposeRead _ _ _ _ _ _ => exact ⟨hlt, hcmd⟩
  | forget _ _ _ _ => exact ⟨hlt, hcmd⟩
  | submit _ _ => exact ⟨hlt, hcmd⟩
  | delete _ => exact ⟨hlt, fun c hc => hcmd c (Ledger.lookup_erase hc)⟩
  | exit _ _ hlive _ _ _ =>
    -- a live command is not cancelled
    obtain ⟨old, hold, hactive⟩ := hlive
    refine ⟨hlt, fun c hc => ?_⟩
    rcases Ledger.lookup_setCommand hc with ⟨rfl, _⟩ | ⟨_, hc⟩
    · simp [CommandState.active, hcmd old hold] at hactive
    · exact hcmd c hc
  | update hlookup _ hcancelled _ =>
    refine ⟨hlt, fun c hc => ?_⟩
    rcases Ledger.lookup_setCommand hc with ⟨rfl, rfl⟩ | ⟨_, hc⟩
    · rw [hcancelled]
      exact hcmd _ hlookup
    · exact hcmd c hc
  | create _ =>
    refine ⟨Nat.lt_succ_of_lt hlt, fun c hc => ?_⟩
    rcases Ledger.lookup_setCommand hc with ⟨rfl, _⟩ | ⟨_, hc⟩
    · exact absurd hlt (lt_irrefl _)
    · exact hcmd c hc

lemma Ledger.StaysCancelled.of_moves {handle : CommandHandle} (h : Moves s s')
    (hcan : s.1.StaysCancelled handle) : s'.1.StaysCancelled handle := by
  induction h with
  | refl => exact hcan
  | tail _ hmove ih => exact ih.of_move hmove

end AmlaSandbox.Runtimes
