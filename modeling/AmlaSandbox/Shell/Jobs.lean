import AmlaSandbox.Scheduler.Settled

/-!
# Job control

Background jobs are numbered and kept in a table whose empty slots are reused. The shell asks the
handles of a job whether its tasks have finished, takes the result of the last one as the exit code
of the job, and cancels the tasks of a job that is killed.
-/

namespace AmlaSandbox.Shell.Jobs

open Library Scheduling

/-- The number of a spawn, which stands for the handle of its task. -/
abbrev TaskHandle := Nat

inductive JobState
  | running
  | done (code : Int32)
deriving DecidableEq

/-- A background job. -/
structure Job where
  id : Nat
  command : String
  handles : List TaskHandle
  state : JobState
deriving DecidableEq

/-- The exit code of a result; an error counts as 1. -/
def exitCode : TaskResult → Int32
  | .ok exit => exit.code
  | .error _ => 1

namespace Job

variable (self : Job) (s : Scheduler)

/-- The results of all tasks are there. -/
def isComplete : Bool := self.handles.all fun handle => (s.resultOf handle).isSome

/-- Take the exit code of a complete job from its last task. -/
def updateState : Job × Scheduler :=
  if self.isComplete s then
    match self.handles.getLast? with
    | some handle =>
      match s.tryGet handle with
      | (some result, s) => ({ self with state := .done (exitCode result) }, s)
      | (none, s) => (self, s)
    | none => ({ self with state := .done 0 }, s)
  else (self, s)

end Job

/-- `TaskHandle::cancel`: a task whose spawn is still queued has no id yet, and is left alone. -/
def cancelHandle (s : Scheduler) (handle : TaskHandle) : Scheduler :=
  match s.taskId? handle with
  | some id => (s.cancelTask id).1
  | none => s

/-- Cancel all tasks of a job. -/
def Job.kill (self : Job) (s : Scheduler) : Scheduler := self.handles.foldl cancelHandle s

/-! ### The table -/

/-- Put a job into the first empty slot, or into a new one. -/
def putSlot (job : Job) : List (Option Job) → List (Option Job)
  | [] => [some job]
  | none :: slots => some job :: slots
  | some other :: slots => some other :: putSlot job slots

/-- Empty the first slot whose job has the id. -/
def takeSlot (id : Nat) : List (Option Job) → Option Job × List (Option Job)
  | [] => (none, [])
  | slot :: slots =>
    if slot.any (·.id = id) then (slot, none :: slots)
    else
      let (taken, slots) := takeSlot id slots
      (taken, slot :: slots)

/-- Update the state of the first job with the id. -/
def updateSlot (id : Nat) (s : Scheduler) : List (Option Job) → List (Option Job) × Scheduler
  | [] => ([], s)
  | none :: slots =>
    let (slots, s) := updateSlot id s slots
    (none :: slots, s)
  | some job :: slots =>
    if job.id = id then
      let (job, s) := job.updateState s
      (some job :: slots, s)
    else
      let (slots, s) := updateSlot id s slots
      (some job :: slots, s)

/-- Update the states of all jobs, slot by slot. -/
def updateSlots (s : Scheduler) : List (Option Job) → List (Option Job) × Scheduler
  | [] => ([], s)
  | none :: slots =>
    let (slots, s) := updateSlots s slots
    (none :: slots, s)
  | some job :: slots =>
    let (job, s) := job.updateState s
    let (slots, s) := updateSlots s slots
    (some job :: slots, s)

structure JobTable where
  jobs : List (Option Job) := []
  nextId : Nat := 0
deriving DecidableEq

/-- The exit code of a job that is done, with its id. -/
def Job.finished? (self : Job) : Option (Nat × Int32) :=
  match self.state with
  | .done code => some (self.id, code)
  | .running => none

namespace JobTable

variable (self : JobTable)

/-- The active jobs, in the order of their slots. -/
def iter : List Job := self.jobs.reduceOption

/-- Add a job; its id is one more than the last one given. -/
def add (command : String) (handles : List TaskHandle) : Nat × JobTable :=
  let id := self.nextId + 1
  (id, ⟨putSlot { id, command, handles, state := .running } self.jobs, id⟩)

def get (id : Nat) : Option Job := self.iter.find? (·.id = id)

def remove (id : Nat) : Option Job × JobTable :=
  let (job, jobs) := takeSlot id self.jobs
  (job, { self with jobs })

/-- `get_mut` and `update_state` -/
def updateJob (id : Nat) (s : Scheduler) : JobTable × Scheduler :=
  let (jobs, s) := updateSlot id s self.jobs
  ({ self with jobs }, s)

/-- Cancel the tasks of a job, then remove it; the flag says whether the job existed. -/
def kill (id : Nat) (s : Scheduler) : Bool × JobTable × Scheduler :=
  let s := (self.get id).elim s (·.kill s)
  let (job, table) := self.remove id
  (job.isSome, table, s)

/-- Update all states and remove the jobs that are done, which are returned with their codes. -/
def reap (s : Scheduler) : List (Nat × Int32) × JobTable × Scheduler :=
  let (jobs, s) := updateSlots s self.jobs
  let completed := jobs.reduceOption.filterMap Job.finished?
  (completed, completed.foldl (fun table (id, _) => (table.remove id).2) { self with jobs }, s)

/-! ### The builtins -/

/-- `update_job_states` -/
def updateJobStates (s : Scheduler) : JobTable × Scheduler :=
  (self.iter.map Job.id).foldl (fun (table, s) id => table.updateJob id s) (self, s)

/-- The first look of `fg` at a job: one that is done already is removed. -/
def fg (id : Nat) : Option Int32 × JobTable :=
  match (self.get id).map Job.state with
  | some (.done code) => (some code, (self.remove id).2)
  | _ => (none, self)

/-- One turn of the loop of `fg`, which ends with an exit code. -/
def fgTurn (id : Nat) (s : Scheduler) : Option Int32 × JobTable × Scheduler :=
  if (self.get id).isSome then
    let (table, s) := self.updateJob id s
    match (table.get id).map Job.state with
    | some (.done code) => (some code, (table.remove id).2, s)
    | _ => (none, table, s)
  else (some 0, self, s)

/-- The loop of `wait` over the ids: whether all of the jobs are done, and the last exit code. -/
def waitLoop (self : JobTable) (s : Scheduler) (allDone : Bool) (lastCode : Int32) :
    List Nat → Bool × Int32 × JobTable × Scheduler
  | [] => (allDone, lastCode, self, s)
  | id :: ids =>
    let (table, s) := self.updateJob id s
    match (table.get id).map Job.state with
    | some (.done code) => waitLoop table s allDone code ids
    | some .running => waitLoop table s false lastCode ids
    | none => waitLoop table s allDone lastCode ids

/-- One turn of `wait`: once all of the jobs are done they are removed. -/
def wait (ids : List Nat) (lastCode : Int32) (s : Scheduler) :
    Bool × Int32 × JobTable × Scheduler :=
  let (allDone, lastCode, table, s) := self.waitLoop s true lastCode ids
  if allDone then (true, lastCode, ids.foldl (fun table id => (table.remove id).2) table, s)
  else (false, lastCode, table, s)

end JobTable

/-! ### Slots -/

section

variable {job : Job} {id : Nat} {slots : List (Option Job)}

lemma reduceOption_putSlot : (putSlot job slots).reduceOption.Perm (job :: slots.reduceOption) := by
  induction slots with
  | nil => exact .refl _
  | cons slot slots ih =>
    cases slot with
    | none => exact .refl _
    | some other => exact (ih.cons other).trans (.swap job other _)

lemma reduceOption_takeSlot (hnodup : (slots.reduceOption.map (·.id)).Nodup) :
    (takeSlot id slots).1 = slots.reduceOption.find? (·.id = id) ∧
      (takeSlot id slots).2.reduceOption = slots.reduceOption.filter (·.id ≠ id) := by
  induction slots with
  | nil => exact ⟨rfl, rfl⟩
  | cons slot slots ih =>
    cases slot with
    | none => simpa [takeSlot] using ih hnodup
    | some other =>
      rw [List.reduceOption_cons_of_some, List.map_cons, List.nodup_cons] at hnodup
      by_cases hid : other.id = id
      · have hrest : ∀ job ∈ slots.reduceOption, job.id ≠ id := by
          rintro job hjob rfl
          exact hnodup.1 (List.mem_map.mpr ⟨job, hjob, hid.symm⟩)
        refine ⟨by simp [takeSlot, hid], ?_⟩
        simp only [takeSlot, Option.any_some, hid, decide_true, if_true,
          List.reduceOption_cons_of_none, List.reduceOption_cons_of_some]
        rw [List.filter_cons_of_neg (by simp [hid])]
        exact (List.filter_eq_self.mpr fun job hjob => by simpa using hrest job hjob).symm
      · obtain ⟨htaken, hslots⟩ := ih hnodup.2
        simp [takeSlot, hid, htaken, hslots]

/-- Only a job with the id is updated, wherever it is. -/
lemma reduceOption_updateSlot (s : Scheduler) (hnodup : (slots.reduceOption.map (·.id)).Nodup) :
    (updateSlot id s slots).1.reduceOption =
      slots.reduceOption.map (fun job => if job.id = id then (job.updateState s).1 else job) ∧
    (updateSlot id s slots).2 =
      (slots.reduceOption.find? (·.id = id)).elim s fun job => (job.updateState s).2 := by
  induction slots with
  | nil => exact ⟨rfl, rfl⟩
  | cons slot slots ih =>
    cases slot with
    | none => simpa [updateSlot] using ih hnodup
    | some other =>
      rw [List.reduceOption_cons_of_some, List.map_cons, List.nodup_cons] at hnodup
      by_cases hid : other.id = id
      · have hrest : ∀ job ∈ slots.reduceOption, job.id ≠ id := by
          rintro job hjob rfl
          exact hnodup.1 (List.mem_map.mpr ⟨job, hjob, hid.symm⟩)
        simp only [updateSlot, hid, if_true, List.reduceOption_cons_of_some, List.map_cons,
          List.find?_cons_of_pos, decide_true, Option.elim_some, and_true]
        congr 1
        exact (List.map_id'' (fun _ => rfl) _).symm.trans
          (List.map_congr_left fun job hjob => (if_neg (hrest job hjob)).symm)
      · obtain ⟨hslots, hs⟩ := ih hnodup.2
        simp [updateSlot, hid, hslots, hs]

lemma foldl_updateSlot_cons (job : Job) (s : Scheduler) (ids : List Nat) (hids : job.id ∉ ids) :
    ids.foldl (fun (slots, s) id => updateSlot id s slots) (some job :: slots, s) =
      let (slots, s) := ids.foldl (fun (slots, s) id => updateSlot id s slots) (slots, s)
      (some job :: slots, s) := by
  induction ids generalizing slots s with
  | nil => rfl
  | cons id ids ih =>
    have hne := List.ne_of_not_mem_cons hids
    simp only [List.foldl_cons, updateSlot, if_neg hne]
    exact ih _ (List.not_mem_of_not_mem_cons hids)

lemma foldl_updateSlot_none (s : Scheduler) (ids : List Nat) :
    ids.foldl (fun (slots, s) id => updateSlot id s slots) (none :: slots, s) =
      let (slots, s) := ids.foldl (fun (slots, s) id => updateSlot id s slots) (slots, s)
      (none :: slots, s) := by
  induction ids generalizing slots s with
  | nil => rfl
  | cons id ids ih => exact ih _

lemma id_updateState (s : Scheduler) : (job.updateState s).1.id = job.id := by
  simp only [Job.updateState]
  split_ifs
  · split
    · split <;> rfl
    · rfl
  · rfl

/-- The pass over the slots updates one id after the other. -/
lemma updateSlots_eq (s : Scheduler) (hnodup : (slots.reduceOption.map (·.id)).Nodup) :
    updateSlots s slots = (slots.reduceOption.map (·.id)).foldl
      (fun (slots, s) id => updateSlot id s slots) (slots, s) := by
  induction slots generalizing s with
  | nil => rfl
  | cons slot slots ih =>
    cases slot with
    | none =>
      rw [List.reduceOption_cons_of_none] at hnodup ⊢
      rw [foldl_updateSlot_none, ← ih s hnodup, updateSlots]
    | some job =>
      rw [List.reduceOption_cons_of_some, List.map_cons, List.nodup_cons] at hnodup
      rw [List.reduceOption_cons_of_some, List.map_cons, List.foldl_cons]
      simp only [updateSlot, if_true]
      rw [foldl_updateSlot_cons _ _ _ (by rw [id_updateState]; exact hnodup.1),
        ← ih _ hnodup.2, updateSlots]

end

/-! ### One job -/

/-- The state of a job stays, or its tasks have all ended and it is done with the code of the last
one, whose result is taken. -/
inductive Updated (s : Scheduler) (job : Job) : Job × Scheduler → Prop
  | unchanged : (¬ job.isComplete s) → Updated s job (job, s)
  | last {handle : TaskHandle} {result : TaskResult} : job.isComplete s →
    job.handles.getLast? = some handle → s.resultOf handle = some result →
    Updated s job ({ job with state := .done (exitCode result) }, (s.tryGet handle).2)
  | empty : job.isComplete s → job.handles = [] →
    Updated s job ({ job with state := .done 0 }, s)

lemma updated_updateState (s : Scheduler) (job : Job) : Updated s job (job.updateState s) := by
  rw [Job.updateState]
  split_ifs with hcomplete
  · split
    · next handle hlast =>
      have hsome : (s.resultOf handle).isSome :=
        List.all_eq_true.mp hcomplete handle (List.mem_of_getLast? hlast)
      obtain ⟨result, hresult⟩ := Option.isSome_iff_exists.mp hsome
      have hget : s.tryGet handle = (some result, (s.tryGet handle).2) :=
        Prod.ext (Scheduler.tryGet_fst.trans hresult) rfl
      rw [hget]
      exact .last hcomplete hlast hresult
    · next hlast => exact .empty hcomplete (List.getLast?_eq_none_iff.mp hlast)
  · exact .unchanged hcomplete

lemma finished?_eq_some {job : Job} {x : Nat × Int32} (h : job.finished? = some x) :
    x.1 = job.id ∧ job.state = .done x.2 := by
  simp only [Job.finished?] at h
  split at h
  · next hstate =>
    obtain rfl := Option.some.inj h
    exact ⟨rfl, hstate⟩
  · cases h

/-! ### Operations of the table -/

namespace JobTable

variable {table : JobTable} {id : Nat} {s : Scheduler} {job : Job}

def ids (table : JobTable) : List Nat := table.iter.map Job.id

lemma iter_add (table : JobTable) (command : String) (handles : List TaskHandle) :
    (table.add command handles).2.iter.Perm
      ({ id := table.nextId + 1, command, handles, state := .running } :: table.iter) :=
  reduceOption_putSlot

lemma get_eq_some (hnodup : table.ids.Nodup) :
    table.get id = some job ↔ job ∈ table.iter ∧ job.id = id := by
  constructor
  · intro h
    exact ⟨List.mem_of_find?_eq_some h, by simpa using List.find?_some h⟩
  · rintro ⟨hjob, rfl⟩
    cases hget : table.get job.id with
    | none => simpa using List.find?_eq_none.mp hget job hjob
    | some other =>
      have hother := List.mem_of_find?_eq_some hget
      have hid : other.id = job.id := by simpa using List.find?_some hget
      exact congrArg some (List.inj_on_of_nodup_map hnodup hother hjob hid)

lemma state_of_get (hnodup : table.ids.Nodup) (hjob : job ∈ table.iter) (hid : job.id = id) :
    (table.get id).map Job.state = some job.state := by
  rw [(get_eq_some hnodup).mpr ⟨hjob, hid⟩, Option.map_some]

lemma iter_remove (hnodup : table.ids.Nodup) :
    (table.remove id).2.iter = table.iter.filter (·.id ≠ id) :=
  (reduceOption_takeSlot hnodup).2

lemma remove_fst (hnodup : table.ids.Nodup) : (table.remove id).1 = table.get id :=
  (reduceOption_takeSlot hnodup).1

lemma iter_updateJob (s : Scheduler) (hnodup : table.ids.Nodup) :
    (table.updateJob id s).1.iter =
      table.iter.map fun job => if job.id = id then (job.updateState s).1 else job :=
  (reduceOption_updateSlot s hnodup).1

lemma updateJob_snd (hnodup : table.ids.Nodup) :
    (table.updateJob id s).2 = (table.get id).elim s fun job => (job.updateState s).2 :=
  (reduceOption_updateSlot s hnodup).2

lemma fg_cases (table : JobTable) (id : Nat) :
    (∃ code, (table.get id).map Job.state = some (.done code) ∧
      table.fg id = (some code, (table.remove id).2)) ∨ table.fg id = (none, table) := by
  rw [fg]
  split
  · next code hstate => exact .inl ⟨code, hstate, rfl⟩
  · exact .inr rfl

lemma fgTurn_cases (table : JobTable) (id : Nat) (s : Scheduler) :
    (table.get id = none ∧ table.fgTurn id s = (some 0, table, s)) ∨
    ∃ job updated s', table.get id = some job ∧ table.updateJob id s = (updated, s') ∧
      ((∃ code, (updated.get id).map Job.state = some (.done code) ∧
          table.fgTurn id s = (some code, (updated.remove id).2, s')) ∨
        (∀ code, (updated.get id).map Job.state ≠ some (.done code)) ∧
          table.fgTurn id s = (none, updated, s')) := by
  rw [fgTurn]
  cases hget : table.get id with
  | none => exact .inl ⟨rfl, rfl⟩
  | some job =>
    refine .inr ⟨job, (table.updateJob id s).1, (table.updateJob id s).2, rfl, rfl, ?_⟩
    rw [Option.isSome_some, if_pos rfl]
    dsimp only
    split
    · next code hstate => exact .inl ⟨code, hstate, rfl⟩
    · next hstate => exact .inr ⟨hstate, rfl⟩

lemma iter_foldl_remove (hnodup : table.ids.Nodup) (ids : List Nat) :
    (ids.foldl (fun table id => (table.remove id).2) table).iter =
        table.iter.filter (·.id ∉ ids) ∧
      (ids.foldl (fun table id => (table.remove id).2) table).nextId = table.nextId := by
  induction ids generalizing table with
  | nil => simp
  | cons id ids ih =>
    have hsub : (table.remove id).2.ids.Nodup := by
      rw [JobTable.ids, iter_remove hnodup]
      exact hnodup.sublist (List.filter_sublist.map _)
    obtain ⟨hiter, hnext⟩ := ih hsub
    refine ⟨?_, hnext⟩
    rw [List.foldl_cons, hiter, iter_remove hnodup, List.filter_filter]
    apply List.filter_congr
    intro job _
    simp [not_or, Bool.and_comm]

/-- `reap` updates one job after the other, as `update_job_states` does. -/
lemma updateSlots_eq_updateJobStates (hnodup : table.ids.Nodup) :
    (⟨(updateSlots s table.jobs).1, table.nextId⟩, (updateSlots s table.jobs).2) =
      table.updateJobStates s := by
  have hfold : ∀ (ids : List Nat) (slots : List (Option Job)) (s : Scheduler),
      ids.foldl (fun (table, s) id => updateJob table id s) (⟨slots, table.nextId⟩, s) =
        let (slots, s) := ids.foldl (fun (slots, s) id => updateSlot id s slots) (slots, s)
        (⟨slots, table.nextId⟩, s) := by
    intro ids
    induction ids with
    | nil => exact fun _ _ => rfl
    | cons id ids ih => exact fun slots s => ih _ _
  rw [updateSlots_eq s hnodup]
  exact (hfold table.ids table.jobs s).symm

lemma reap_eq (hnodup : table.ids.Nodup) :
    table.reap s =
      let (updated, s) := table.updateJobStates s
      let completed := updated.iter.filterMap Job.finished?
      (completed, (completed.map Prod.fst).foldl (fun table id => (table.remove id).2) updated,
        s) := by
  rw [← updateSlots_eq_updateJobStates hnodup]
  dsimp only
  rw [List.foldl_map]
  rfl

end JobTable

/-! ### The cancellation of a job -/

/-- Cancelling takes no result. -/
lemma resultOf_cancelHandle {s : Scheduler} {k handle : TaskHandle} {r : TaskResult}
    (hr : s.resultOf k = some r) : (cancelHandle s handle).resultOf k = some r := by
  obtain ⟨slot, hslot, hresult⟩ := Scheduler.resultOf_eq_some.mp hr
  have hmark : ∀ s' : Scheduler, s'.slot? k = (s.slot? k).map TaskSlot.cancel →
      s'.resultOf k = some r := by
    intro s' hs'
    rw [Scheduler.resultOf, hs', hslot, Option.map_some, Option.bind_some, TaskSlot.cancel, hresult,
      Option.some_or]
  rw [cancelHandle]
  split
  · next id _ =>
    cases ht : s.lookup id with
    | none => rwa [Scheduler.cancelTask_of_lookup_eq_none ht]
    | some task =>
      rcases (Scheduler.cancelTask_ended ht).slot k with hsame | ⟨_, _, _, _, _, hs' | ⟨_, hs'⟩⟩
      · rwa [Scheduler.resultOf, hsame]
      · exact hmark _ hs'
      · exact hmark _ hs'
  · exact hr

lemma resultOf_foldl_cancelHandle {s : Scheduler} {k : TaskHandle} {r : TaskResult}
    (hr : s.resultOf k = some r) (handles : List TaskHandle) :
    (handles.foldl cancelHandle s).resultOf k = some r := by
  induction handles generalizing s with
  | nil => exact hr
  | cons handle handles ih => exact ih (resultOf_cancelHandle hr)

/-- What is below a task stays below it, unless it is below the one that ends. -/
lemma below_of_ended {mark : TaskSlot → TaskSlot} {s s' : Scheduler} {root top id : TaskId}
    (h : s.Ended mark root s') (hbelow : s.Below top id) (hnot : ¬ s.Below root id) :
    s'.Below top id := by
  induction hbelow with
  | refl => exact .refl
  | @tail a b _ hab ih =>
    have hroot : ¬ s.Below root a := fun ha => hnot (ha.tail hab)
    apply (ih hroot).tail
    obtain ⟨t, ht, hb⟩ := hab
    obtain ⟨htask, hkey⟩ := Scheduler.lookup_eq_some.mp ht
    obtain ⟨children, hentry, hkept⟩ := h.survivor a.slot t htask (hkey ▸ hroot)
    refine ⟨{ t with children }, Scheduler.lookup_eq_some.mpr ⟨hentry, ?_⟩, hkept b hb ?_⟩
    · rw [h.keyAt]
      exact hkey
    · rintro rfl
      exact hnot .refl

lemma keeps_cancelHandle (s : Scheduler) (handle : TaskHandle) :
    s.Keeps (cancelHandle s handle) := by
  rw [cancelHandle]
  split
  · exact Scheduler.resolves_cancelTask.toKeeps
  · exact .refl s

lemma keeps_foldl_cancelHandle (handles : List TaskHandle) (s : Scheduler) :
    s.Keeps (handles.foldl cancelHandle s) := by
  induction handles generalizing s with
  | nil => exact .refl s
  | cons handle handles ih => exact (keeps_cancelHandle s handle).trans (ih _)

/-- Cancelling a task removes what is below it. -/
lemma lookup_cancelTask {s : Scheduler} {root id : TaskId} (hbelow : s.Below root id) :
    (s.cancelTask root).1.lookup id = none := by
  cases ht : s.lookup root with
  | none =>
    rw [Scheduler.cancelTask_of_lookup_eq_none ht]
    rcases Relation.ReflTransGen.cases_head hbelow with rfl | ⟨child, ⟨t, ht', _⟩, _⟩
    · exact ht
    · rw [ht] at ht'
      cases ht'
  | some t => exact (Scheduler.cancelTask_ended ht).removed id hbelow

lemma lookup_foldl_cancelHandle (handles : List TaskHandle) (s : Scheduler) {handle : TaskHandle}
    {root id : TaskId} (hhandle : handle ∈ handles) (hroot : s.taskId? handle = some root)
    (hbelow : s.Below root id) : (handles.foldl cancelHandle s).lookup id = none := by
  induction handles generalizing s with
  | nil => cases hhandle
  | cons first rest ih =>
    have hkeeps := keeps_foldl_cancelHandle rest (cancelHandle s first)
    rcases List.mem_cons.mp hhandle with rfl | hrest
    · apply hkeeps.lookup_eq_none
      rw [cancelHandle, hroot]
      exact lookup_cancelTask hbelow
    · cases hfirst : s.taskId? first with
      | none =>
        have hsame : cancelHandle s first = s := by rw [cancelHandle, hfirst]
        rw [List.foldl_cons, hsame]
        exact ih s hrest hroot hbelow
      | some other =>
        have hcancel : cancelHandle s first = (s.cancelTask other).1 := by
          rw [cancelHandle, hfirst]
        by_cases hother : s.Below other id
        · apply hkeeps.lookup_eq_none
          rw [hcancel]
          exact lookup_cancelTask hother
        · -- what was below the task of the handle is so still
          have hroot' := ((keeps_cancelHandle s first).taskId handle).trans hroot
          refine ih _ hrest hroot' ?_
          rw [hcancel]
          cases ht : s.lookup other with
          | none => rwa [Scheduler.cancelTask_of_lookup_eq_none ht]
          | some t => exact below_of_ended (Scheduler.cancelTask_ended ht) hbelow hother

end AmlaSandbox.Shell.Jobs
