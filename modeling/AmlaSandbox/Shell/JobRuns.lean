import AmlaSandbox.Shell.Jobs

/-!
# Jobs and their tasks

The job table beside the scheduler that runs the tasks, in every order of their steps. The invariant
says that no job that is running has lost a result it still needs; updating the states keeps it, and
leaves a job running only while one of its tasks is.
-/

namespace AmlaSandbox.Shell.Jobs

open Library Scheduling

/-! ### Runs -/

/-- The code that calls the scheduler is the host or a future that is polled; the loop of a `run`
calls nothing else. -/
def calls (m : Machine) : Bool :=
  match m.stack with
  | .run _ _ :: _ => false
  | _ => true

/-- The shell and the scheduler. The jobs that were `added`, the jobs that left the table with their
exit codes, those that were killed, and the first result of each handle are not kept by the code. -/
structure System where
  machine : Machine := {}
  table : JobTable := {}
  added : List Job := []
  reported : List (Nat × Int32) := []
  killed : List Nat := []
  outcomes : TaskHandle → Option TaskResult := fun _ => none

/-- A step of the scheduler, or a call of the job table. -/
inductive Event
  | scheduler (e : Scheduling.Event)
  | add (command : String) (handles : List TaskHandle)
  | updateJobStates
  | reap
  | fg (id : Nat)
  | fgTurn (id : Nat)
  | wait (ids : List Nat) (lastCode : Int32)
  | kill (id : Nat)

namespace System

variable (sys : System)

/-- The machine moves on. -/
def onward (m : Machine) : System :=
  { sys with
    machine := m
    outcomes := fun handle => (sys.outcomes handle).or (m.sched.resultOf handle) }

/-- A call of the table has changed it and the scheduler. -/
def called (table : JobTable) (s : Scheduler) : System :=
  ({ sys with table }).onward { sys.machine with sched := s }

def call (sys' : System) : Option System := if calls sys.machine then some sys' else none

def report (codes : List (Nat × Int32)) : System := { sys with reported := sys.reported ++ codes }

def step : Event → Option System
  | .scheduler e => (sys.machine.step e).map fun (m, _) => sys.onward m
  | .add command handles =>
    let (id, table) := sys.table.add command handles
    sys.call { sys with
      table
      added := sys.added ++ [{ id, command, handles, state := .running }] }
  | .updateJobStates =>
    let (table, s) := sys.table.updateJobStates sys.machine.sched
    sys.call (sys.called table s)
  | .reap =>
    let (completed, table, s) := sys.table.reap sys.machine.sched
    sys.call ((sys.called table s).report completed)
  | .fg id =>
    let (code, table) := sys.table.fg id
    sys.call (({ sys with table }).report (code.map (id, ·)).toList)
  | .fgTurn id =>
    let (code, table, s) := sys.table.fgTurn id sys.machine.sched
    let found := (sys.table.get id).isSome
    sys.call ((sys.called table s).report (if found then (code.map (id, ·)).toList else []))
  | .wait ids lastCode =>
    let (_, _, updated, _) := sys.table.waitLoop sys.machine.sched true lastCode ids
    let (allDone, _, table, s) := sys.table.wait ids lastCode sys.machine.sched
    let codes := (updated.iter.filter (·.id ∈ ids)).filterMap Job.finished?
    sys.call ((sys.called table s).report (if allDone then codes else []))
  | .kill id =>
    let (killed, table, s) := sys.table.kill id sys.machine.sched
    sys.call { sys.called table s with
      killed := if killed then sys.killed ++ [id] else sys.killed }

/-- A job owns the handles of its tasks: nobody else asks them, no other job has them, and no result
was taken from them before. -/
def Owns : Event → Prop
  | .scheduler e => ∀ job ∈ sys.table.iter, ∀ handle ∈ job.handles, ¬ Machine.Asks e handle
  | .add _ handles => ∀ handle ∈ handles,
      (sys.machine.Active handle ∨ (sys.machine.sched.resultOf handle).isSome) ∧
      ∀ job ∈ sys.table.iter, handle ∉ job.handles
  | _ => True

/-- The states of all runs from an empty table. -/
abbrev Reachable (sys : System) : Prop :=
  Reach (fun sys e sys' => sys.step e = some sys') Owns {} sys

end System

/-- All tasks have ended, and the exit code is that of the last one. -/
def Exits (outcomes : TaskHandle → Option TaskResult) (handles : List TaskHandle) (code : Int32) :
    Prop :=
  (∀ handle ∈ handles, (outcomes handle).isSome) ∧
    code = (handles.getLast?.bind outcomes).elim 0 exitCode

/-! ### What every run keeps -/

lemma step_of_calls {m : Machine} {e : Scheduling.Event} {x : Machine × Option Output}
    (hcalls : calls m) (h : m.step e = m.call x) : m.step e = some x := by
  rw [h, Machine.call]
  split
  · next hstack =>
    simp only [calls] at hcalls
    rw [hstack] at hcalls
    cases hcalls
  · rfl

/-- Taking a result ends no task. -/
lemma active_tryGet {m : Machine} {handle : TaskHandle} (k : TaskHandle) :
    Machine.Active { m with sched := (m.sched.tryGet handle).2 } k ↔ m.Active k := by
  have hhandled : Handled m.sched (m.sched.tryGet handle).2 := handled_tryGet
  simp only [Machine.active_iff_holds, Scheduler.Holds, hhandled.queue, hhandled.task?_eq]

namespace System

variable {sys sys' : System} {id : Nat} {table : JobTable} {job : Job} {code : Int32}

/-- The invariant of job control. -/
structure Controlled (sys : System) : Prop where
  machine : Machine.Reachable Machine.anyEvent sys.machine
  recorded : ∀ k r, sys.machine.sched.resultOf k = some r → sys.outcomes k = some r
  ended : ∀ k, (sys.outcomes k).isSome →
    k < sys.machine.sched.completions.length ∧ ¬ sys.machine.Active k
  numbered : (sys.table.ids ++ sys.reported.map Prod.fst ++ sys.killed).Perm
    (List.range' 1 sys.table.nextId)
  added : sys.added.map Job.id = List.range' 1 sys.table.nextId
  known : ∀ job ∈ sys.table.iter, { job with state := .running } ∈ sys.added
  disjoint : ∀ job ∈ sys.table.iter, ∀ other ∈ sys.table.iter, ∀ handle ∈ job.handles,
    handle ∈ other.handles → job.id = other.id
  waits : ∀ job ∈ sys.table.iter, job.state = .running → ∀ handle ∈ job.handles,
    sys.machine.Active handle ∨ (sys.machine.sched.resultOf handle).isSome
  done : ∀ job ∈ sys.table.iter, ∀ code, job.state = .done code →
    Exits sys.outcomes job.handles code
  exits : ∀ id code, (id, code) ∈ sys.reported →
    ∃ job ∈ sys.added, job.id = id ∧ Exits sys.outcomes job.handles code

lemma step_kill : sys.step (.kill id) =
    sys.call { sys.called (sys.table.remove id).2
        ((sys.table.get id).elim sys.machine.sched (·.kill sys.machine.sched)) with
      killed := if (sys.table.remove id).1.isSome then sys.killed ++ [id] else sys.killed } := rfl

lemma call_eq_some {result : System} (h : sys.call result = some sys') : result = sys' := by
  rw [call] at h
  split_ifs at h
  exact Option.some.inj h

namespace Controlled

lemma nodup (h : sys.Controlled) : sys.table.ids.Nodup := by
  have hall := h.numbered.nodup_iff.mpr List.nodup_range'
  exact (List.nodup_append.mp (List.nodup_append.mp hall).1).1

lemma valid (h : sys.Controlled) : sys.machine.Valid := Machine.valid_of_reachable h.machine

/-- A job of the table is marked done. -/
lemma setDone (h : sys.Controlled) (hnext : table.nextId = sys.table.nextId)
    (hiter : table.iter = sys.table.iter.map fun job =>
      if job.id = id then { job with state := .done code } else job)
    (hexits : ∀ job ∈ sys.table.iter, job.id = id → Exits sys.outcomes job.handles code) :
    Controlled { sys with table } := by
  have hmem : ∀ job ∈ table.iter, ∃ old ∈ sys.table.iter, job.id = old.id ∧
      job.handles = old.handles ∧ { job with state := .running } = { old with state := .running } ∧
      (old.id = id ∧ job.state = .done code ∨ old.id ≠ id ∧ job = old) := by
    intro job hjob
    rw [hiter, List.mem_map] at hjob
    obtain ⟨old, hold, rfl⟩ := hjob
    split_ifs with hid
    · exact ⟨old, hold, rfl, rfl, rfl, .inl ⟨hid, rfl⟩⟩
    · exact ⟨old, hold, rfl, rfl, rfl, .inr ⟨hid, rfl⟩⟩
  have hids : table.ids = sys.table.ids := by
    rw [JobTable.ids, hiter, List.map_map]
    apply List.map_congr_left
    intro job _
    simp only [Function.comp_apply]
    split_ifs <;> rfl
  refine ⟨h.machine, h.recorded, h.ended, ?_, hnext.symm ▸ h.added, ?_, ?_, ?_, ?_, h.exits⟩
  · simp only [hids, hnext]
    exact h.numbered
  · intro job hjob
    obtain ⟨old, hold, _, _, hsame, _⟩ := hmem job hjob
    exact hsame ▸ h.known old hold
  · intro job hjob other hother handle hhandle hhandle'
    obtain ⟨old, hold, hid, hhandles, _⟩ := hmem job hjob
    obtain ⟨old', hold', hid', hhandles', _⟩ := hmem other hother
    rw [hid, hid']
    exact h.disjoint old hold old' hold' handle (hhandles ▸ hhandle) (hhandles' ▸ hhandle')
  · intro job hjob hrunning
    obtain ⟨old, hold, _, _, _, ⟨_, hdone⟩ | ⟨_, rfl⟩⟩ := hmem job hjob
    · rw [hrunning] at hdone
      cases hdone
    · exact h.waits job hold hrunning
  · intro job hjob code' hdone'
    obtain ⟨old, hold, _, hhandles, _, ⟨hid, hdone⟩ | ⟨_, rfl⟩⟩ := hmem job hjob
    · obtain rfl := JobState.done.inj (hdone.symm.trans hdone')
      exact hhandles ▸ hexits old hold hid
    · exact h.done job hold code' hdone'

lemma of_iter (h : sys.Controlled) (hnext : table.nextId = sys.table.nextId)
    (hiter : table.iter = sys.table.iter) : Controlled { sys with table } where
  machine := h.machine
  recorded := h.recorded
  ended := h.ended
  numbered := by
    simp only [JobTable.ids, hiter, hnext]
    exact h.numbered
  added := hnext.symm ▸ h.added
  known job hjob := h.known job (hiter ▸ hjob)
  disjoint job hjob other hother := h.disjoint job (hiter ▸ hjob) other (hiter ▸ hother)
  waits job hjob := h.waits job (hiter ▸ hjob)
  done job hjob := h.done job (hiter ▸ hjob)
  exits := h.exits

/-- The tasks of a complete job have ended. -/
lemma exits_of_isComplete (h : sys.Controlled)
    (hcomplete : job.isComplete sys.machine.sched)
    (hcode : code = (job.handles.getLast?.bind sys.machine.sched.resultOf).elim 0 exitCode) :
    Exits sys.outcomes job.handles code := by
  have houtcome : ∀ handle ∈ job.handles,
      sys.outcomes handle = sys.machine.sched.resultOf handle := by
    intro handle hhandle
    obtain ⟨r, hr⟩ := Option.isSome_iff_exists.mp (List.all_eq_true.mp hcomplete handle hhandle)
    rw [h.recorded handle r hr, hr]
  refine ⟨fun handle hhandle => ?_, ?_⟩
  · rw [houtcome handle hhandle]
    exact List.all_eq_true.mp hcomplete handle hhandle
  · rw [hcode]
    cases hlast : job.handles.getLast? with
    | none => rfl
    | some handle =>
      rw [Option.bind_some, Option.bind_some, houtcome handle (List.mem_of_getLast? hlast)]

/-- A handle gives its result away that no running job needs. -/
lemma tryGet {handle : TaskHandle} (h : sys.Controlled) (hcalls : calls sys.machine)
    (hfree : ∀ job ∈ sys.table.iter, job.state = .running → handle ∉ job.handles) :
    Controlled { sys with
      machine := { sys.machine with sched := (sys.machine.sched.tryGet handle).2 } } := by
  have hstep := step_of_calls (e := .tryGet handle) hcalls rfl
  have hresult : ∀ k r, (sys.machine.sched.tryGet handle).2.resultOf k = some r →
      sys.machine.sched.resultOf k = some r := by
    intro k r hr
    by_cases hk : k = handle
    · rw [hk, Scheduler.resultOf_tryGet] at hr
      cases hr
    · rwa [Scheduler.resultOf, Scheduler.slot?_tryGet_of_ne hk] at hr
  refine ⟨h.machine.tail trivial ⟨_, hstep⟩, fun k r hr => h.recorded k r (hresult k r hr), ?_,
    h.numbered, h.added, h.known, h.disjoint, ?_, h.done, h.exits⟩
  · intro k hk
    obtain ⟨hlt, hinactive⟩ := h.ended k hk
    refine ⟨?_, (active_tryGet k).not.mpr hinactive⟩
    rwa [(handled_tryGet (s := sys.machine.sched) (k := handle)).completions]
  · intro job hjob hrunning k hk
    apply (h.waits job hjob hrunning k hk).imp (active_tryGet k).mpr
    intro hsome
    have hne : k ≠ handle := fun heq => hfree job hjob hrunning (heq ▸ hk)
    rwa [Scheduler.resultOf, Scheduler.slot?_tryGet_of_ne hne]

end Controlled

/-! ### Updates of the states -/

/-- The table and the scheduler inside a call. -/
def set (sys : System) (table : JobTable) (s : Scheduler) : System :=
  { sys with table, machine := { sys.machine with sched := s } }

/-- Some task of the job is still active. -/
def Busy (sys : System) (job : Job) : Prop := ∃ handle ∈ job.handles, sys.machine.Active handle

/-- A job with the id that is still running is busy. -/
def UpToDate (sys : System) (id : Nat) : Prop :=
  ∀ job ∈ sys.table.iter, job.id = id → job.state = .running → sys.Busy job

/-- Some jobs of the table have become done; no task has become active or ended. -/
structure Refreshed (sys sys' : System) : Prop where
  controlled : sys'.Controlled
  eq_set : sys' = sys.set sys'.table sys'.machine.sched
  ids : sys'.table.ids = sys.table.ids
  active : ∀ k, sys'.machine.Active k ↔ sys.machine.Active k
  running : ∀ job ∈ sys'.table.iter, job.state = .running → job ∈ sys.table.iter

namespace Refreshed

variable {sys'' : System}

lemma refl (h : sys.Controlled) : Refreshed sys sys :=
  ⟨h, rfl, rfl, fun _ => .rfl, fun _ hjob _ => hjob⟩

lemma trans (h : Refreshed sys sys') (h' : Refreshed sys' sys'') : Refreshed sys sys'' where
  controlled := h'.controlled
  eq_set := by
    rw [h'.eq_set, h.eq_set]
    rfl
  ids := h'.ids.trans h.ids
  active k := (h'.active k).trans (h.active k)
  running job hjob hrunning := h.running job (h'.running job hjob hrunning) hrunning

lemma calls (h : Refreshed sys sys') (hcalls : calls sys.machine) : Jobs.calls sys'.machine := by
  rw [h.eq_set]
  exact hcalls

lemma upToDate (h : Refreshed sys sys') (hid : sys.UpToDate id) : sys'.UpToDate id := by
  intro job hjob hjobId hrunning
  obtain ⟨handle, hhandle, hactive⟩ := hid job (h.running job hjob hrunning) hjobId hrunning
  exact ⟨handle, hhandle, (h.active handle).mpr hactive⟩

end Refreshed

/-- The jobs of the table with one of them replaced. -/
lemma mem_updateJob (hnodup : sys.table.ids.Nodup) {s : Scheduler} (hjob : job ∈ sys.table.iter)
    (hid : job.id = id) :
    (sys.table.updateJob id s).1.iter =
        sys.table.iter.map (fun other => if other.id = id then (job.updateState s).1 else other) ∧
      (sys.table.updateJob id s).2 = (job.updateState s).2 := by
  rw [JobTable.iter_updateJob s hnodup, JobTable.updateJob_snd hnodup,
    (JobTable.get_eq_some hnodup).mpr ⟨hjob, hid⟩]
  refine ⟨List.map_congr_left fun other hother => ?_, rfl⟩
  split_ifs with hother'
  · rw [List.inj_on_of_nodup_map hnodup hother hjob (hother'.trans hid.symm)]
  · rfl

/-- The jobs of the table once the job with the id is marked done. -/
lemma refreshed_setDone {table : JobTable} {s : Scheduler}
    (hcontrolled : (sys.set table s).Controlled)
    (hactive : ∀ k, (sys.set table s).machine.Active k ↔ sys.machine.Active k)
    (hiter : table.iter = sys.table.iter.map fun job =>
      if job.id = id then { job with state := .done code } else job) :
    Refreshed sys (sys.set table s) ∧ (sys.set table s).UpToDate id := by
  have hmem : ∀ job ∈ table.iter, job.state = .running → job ∈ sys.table.iter ∧ job.id ≠ id := by
    intro job hjob hrunning
    rw [hiter, List.mem_map] at hjob
    obtain ⟨old, hold, rfl⟩ := hjob
    by_cases hid : old.id = id
    · rw [if_pos hid] at hrunning
      cases hrunning
    · rw [if_neg hid]
      exact ⟨hold, hid⟩
  refine ⟨⟨hcontrolled, rfl, ?_, hactive, fun job hjob hrunning => (hmem job hjob hrunning).1⟩,
    fun job hjob hid hrunning => absurd hid (hmem job hjob hrunning).2⟩
  simp only [set, JobTable.ids]
  rw [hiter, List.map_map]
  apply List.map_congr_left
  intro job _
  simp only [Function.comp_apply]
  split_ifs <;> rfl

theorem refreshed_updateJob (h : sys.Controlled) (hcalls : calls sys.machine) (id : Nat) :
    Refreshed sys (sys.set (sys.table.updateJob id sys.machine.sched).1
        (sys.table.updateJob id sys.machine.sched).2) ∧
      UpToDate (sys.set (sys.table.updateJob id sys.machine.sched).1
        (sys.table.updateJob id sys.machine.sched).2) id := by
  have hnext : (sys.table.updateJob id sys.machine.sched).1.nextId = sys.table.nextId := rfl
  cases hget : sys.table.get id with
  | none =>
    have hnot : ∀ job ∈ sys.table.iter, job.id ≠ id := by
      intro job hjob
      simpa using List.find?_eq_none.mp hget job hjob
    have hiter : (sys.table.updateJob id sys.machine.sched).1.iter =
        sys.table.iter.map fun job =>
          if job.id = id then { job with state := .done 0 } else job := by
      rw [JobTable.iter_updateJob _ h.nodup]
      apply List.map_congr_left
      intro job hjob
      rw [if_neg (hnot job hjob), if_neg (hnot job hjob)]
    rw [JobTable.updateJob_snd h.nodup, hget, Option.elim_none]
    exact refreshed_setDone
      (h.setDone hnext hiter fun job hjob hid => absurd hid (hnot job hjob)) (fun _ => .rfl) hiter
  | some job =>
    obtain ⟨hjob, hid⟩ := (JobTable.get_eq_some h.nodup).mp hget
    obtain ⟨hiter, hs⟩ := mem_updateJob h.nodup (s := sys.machine.sched) hjob hid
    have hsame : ∀ other ∈ sys.table.iter, other.id = id → other = job := fun other hother hid' =>
      List.inj_on_of_nodup_map h.nodup hother hjob (hid'.trans hid.symm)
    rw [hs]
    generalize (sys.table.updateJob id sys.machine.sched).1 = table at hnext hiter ⊢
    have hupdated := updated_updateState sys.machine.sched job
    generalize job.updateState sys.machine.sched = updated at hiter hupdated ⊢
    have hdone : ∀ code, updated.1 = { job with state := .done code } →
        table.iter = sys.table.iter.map fun other =>
          if other.id = id then { other with state := .done code } else other := by
      intro code hcode
      rw [hiter, hcode]
      apply List.map_congr_left
      intro other hother
      split_ifs with hid'
      · rw [hsame other hother hid']
      · rfl
    cases hupdated with
    | unchanged hincomplete =>
      have hkept : table.iter = sys.table.iter := by
        rw [hiter]
        refine (List.map_congr_left fun other hother => ?_).trans (List.map_id _)
        split_ifs with hid'
        · exact (hsame other hother hid').symm
        · rfl
      refine ⟨⟨h.of_iter hnext hkept, rfl, ?_, fun _ => .rfl, ?_⟩, ?_⟩
      · simp only [set, JobTable.ids, hkept]
      · exact fun other hother _ => hkept ▸ hother
      · intro other hother hid' hrunning
        have hold : other ∈ sys.table.iter := hkept ▸ hother
        obtain rfl := hsame other hold hid'
        obtain ⟨handle, hhandle, hnone⟩ : ∃ handle ∈ other.handles,
            ¬ (sys.machine.sched.resultOf handle).isSome := by
          simpa [Job.isComplete] using hincomplete
        exact ⟨handle, hhandle, (h.waits other hold hrunning handle hhandle).resolve_right hnone⟩
    | @last handle result hcomplete hlast hresult =>
      have hiter' := hdone _ rfl
      have hexits : ∀ other ∈ sys.table.iter, other.id = id →
          Exits sys.outcomes other.handles (exitCode result) := by
        intro other hother hid'
        rw [hsame other hother hid']
        exact h.exits_of_isComplete hcomplete (by rw [hlast, Option.bind_some, hresult]; rfl)
      have hfree : ∀ other ∈ table.iter, other.state = .running → handle ∉ other.handles := by
        intro other hother hrunning hhandle
        rw [hiter', List.mem_map] at hother
        obtain ⟨old, hold, rfl⟩ := hother
        by_cases hid' : old.id = id
        · rw [if_pos hid'] at hrunning
          cases hrunning
        · rw [if_neg hid'] at hhandle
          exact hid' ((h.disjoint old hold job hjob handle hhandle
            (List.mem_of_getLast? hlast)).trans hid)
      have hset := (h.setDone hnext hiter' hexits).tryGet hcalls hfree
      exact refreshed_setDone hset active_tryGet hiter'
    | empty hcomplete hempty =>
      have hexits : ∀ other ∈ sys.table.iter, other.id = id →
          Exits sys.outcomes other.handles 0 := by
        intro other hother hid'
        rw [hsame other hother hid']
        exact h.exits_of_isComplete hcomplete (by rw [hempty]; rfl)
      exact refreshed_setDone (h.setDone hnext (hdone _ rfl) hexits) (fun _ => .rfl) (hdone _ rfl)

/-- The loop of `update_job_states`. -/
lemma refreshed_foldl (h : sys.Controlled) (hcalls : calls sys.machine) (ids : List Nat) :
    let (table, s) := ids.foldl (fun (table, s) id => table.updateJob id s)
      (sys.table, sys.machine.sched)
    Refreshed sys (sys.set table s) ∧ ∀ id ∈ ids, (sys.set table s).UpToDate id := by
  induction ids generalizing sys with
  | nil => exact ⟨.refl h, fun id hid => absurd hid List.not_mem_nil⟩
  | cons id ids ih =>
    obtain ⟨hfirst, hid⟩ := refreshed_updateJob h hcalls id
    obtain ⟨hrest, hids⟩ := ih hfirst.controlled (hfirst.calls hcalls)
    refine ⟨hfirst.trans hrest, fun id' hid' => ?_⟩
    rcases List.mem_cons.mp hid' with rfl | hid'
    · exact hrest.upToDate hid
    · exact hids id' hid'

/-- All jobs are up to date once their states are updated. -/
theorem refreshed_updateJobStates (h : sys.Controlled) (hcalls : calls sys.machine) :
    let (table, s) := sys.table.updateJobStates sys.machine.sched
    Refreshed sys (sys.set table s) ∧ ∀ id ∈ table.ids, (sys.set table s).UpToDate id := by
  obtain ⟨hrefreshed, hids⟩ := refreshed_foldl h hcalls sys.table.ids
  exact ⟨hrefreshed, fun id hid => hids id (hrefreshed.ids ▸ hid)⟩

/-- The loop of `wait`: the jobs are all done if the loop says so, and otherwise a task of some of
them is active. -/
theorem refreshed_waitLoop (h : sys.Controlled) (hcalls : calls sys.machine) {ids : List Nat}
    {allDone allDone' : Bool} {lastCode lastCode' : Int32} {table : JobTable} {s : Scheduler}
    (hout : sys.table.waitLoop sys.machine.sched allDone lastCode ids =
      (allDone', lastCode', table, s)) :
    Refreshed sys (sys.set table s) ∧
      (allDone' → allDone ∧ ∀ job ∈ table.iter, job.id ∈ ids → job.state ≠ .running) ∧
      (allDone → allDone' ∨ ∃ job ∈ sys.table.iter,
        job.state = .running ∧ job.id ∈ ids ∧ (sys.set table s).Busy job) := by
  induction ids generalizing sys allDone lastCode with
  | nil =>
    obtain ⟨rfl, rfl, rfl, rfl⟩ : _ ∧ _ ∧ _ ∧ _ := by simpa [JobTable.waitLoop] using hout
    exact ⟨.refl h, fun hdone => ⟨hdone, fun _ _ hid => absurd hid List.not_mem_nil⟩, .inl⟩
  | cons id ids ih =>
    have hupdate := refreshed_updateJob h hcalls id
    rw [JobTable.waitLoop] at hout
    generalize sys.table.updateJob id sys.machine.sched = updated at hupdate hout
    obtain ⟨table₁, s₁⟩ := updated
    obtain ⟨hfirst, hid⟩ := hupdate
    have hnodup : table₁.ids.Nodup := hfirst.controlled.nodup
    -- the rest of the loop, from the table where the first id is up to date
    have hrest : ∀ allDone₁ lastCode₁, table₁.waitLoop s₁ allDone₁ lastCode₁ ids =
        (allDone', lastCode', table, s) → Refreshed (sys.set table₁ s₁) (sys.set table s) ∧
        (allDone' → allDone₁ ∧ ∀ job ∈ table.iter, job.id ∈ ids → job.state ≠ .running) ∧
        (allDone₁ → allDone' ∨ ∃ job ∈ table₁.iter,
          job.state = .running ∧ job.id ∈ ids ∧ (sys.set table s).Busy job) :=
      fun allDone₁ lastCode₁ hloop => ih hfirst.controlled (hfirst.calls hcalls) hloop
    have hnot : ∀ allDone₁ lastCode₁, table₁.waitLoop s₁ allDone₁ lastCode₁ ids =
        (allDone', lastCode', table, s) → (allDone₁ = allDone) →
        (∀ job ∈ table₁.iter, job.id = id → job.state ≠ .running) →
        Refreshed sys (sys.set table s) ∧
        (allDone' → allDone ∧ ∀ job ∈ table.iter, job.id ∈ id :: ids → job.state ≠ .running) ∧
        (allDone → allDone' ∨ ∃ job ∈ sys.table.iter,
          job.state = .running ∧ job.id ∈ id :: ids ∧ (sys.set table s).Busy job) := by
      rintro _ lastCode₁ hloop rfl hfinished
      obtain ⟨hrefreshed, hdone, hbusy⟩ := hrest _ lastCode₁ hloop
      refine ⟨hfirst.trans hrefreshed, fun hall => ⟨(hdone hall).1, ?_⟩, fun hall => ?_⟩
      · intro job hjob hjobId hrunning
        rcases List.mem_cons.mp hjobId with hjobId | hjobId
        · exact hfinished job (hrefreshed.running job hjob hrunning) hjobId hrunning
        · exact (hdone hall).2 job hjob hjobId hrunning
      · apply (hbusy hall).imp_right
        rintro ⟨job, hjob, hrunning, hjobId, hjobBusy⟩
        exact ⟨job, hfirst.running job hjob hrunning, hrunning, List.mem_cons_of_mem id hjobId,
          hjobBusy⟩
    dsimp only at hout
    split at hout
    · next hstate =>
      refine hnot _ _ hout rfl fun job hjob hjobId hrunning => ?_
      rw [JobTable.state_of_get hnodup hjob hjobId, hrunning] at hstate
      cases hstate
    · next hstate =>
      obtain ⟨job, hget, hrunning⟩ := Option.map_eq_some_iff.mp hstate
      obtain ⟨hjob, hjobId⟩ := (JobTable.get_eq_some hnodup).mp hget
      obtain ⟨handle, hhandle, hactive⟩ := hid job hjob hjobId hrunning
      obtain ⟨hrefreshed, hdone, _⟩ := hrest _ _ hout
      refine ⟨hfirst.trans hrefreshed, fun hall => absurd (hdone hall).1 Bool.false_ne_true,
        fun _ => .inr ⟨job, hfirst.running job hjob hrunning, hrunning, ?_, handle, hhandle, ?_⟩⟩
      · exact hjobId ▸ List.mem_cons_self
      · exact (hrefreshed.active handle).mpr hactive
    · next hstate =>
      refine hnot _ _ hout rfl fun job hjob hjobId => ?_
      rw [JobTable.state_of_get hnodup hjob hjobId] at hstate
      cases hstate

end System

end AmlaSandbox.Shell.Jobs
