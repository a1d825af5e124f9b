import AmlaSandbox.Shell.JobRuns

/-!
# Job control in every run

Jobs enter the table with handles of their own and leave it once, with the exit code of their last
task or because they are killed.
-/

namespace AmlaSandbox.Shell.Jobs

open Library Scheduling

namespace System

variable {sys sys' : System} {id : Nat} {table : JobTable} {job : Job} {code : Int32}

/-! ### Jobs that leave the table -/

namespace Controlled

/-- What a table keeps holds of a part of it. -/
lemma of_subset (h : sys.Controlled) (hnext : table.nextId = sys.table.nextId)
    (hsub : table.iter ⊆ sys.table.iter) {reported : List (Nat × Int32)} {killed : List Nat}
    (hnumbered : (table.ids ++ reported.map Prod.fst ++ killed).Perm (List.range' 1 table.nextId))
    (hexits : ∀ id code, (id, code) ∈ reported →
      ∃ job ∈ sys.added, job.id = id ∧ Exits sys.outcomes job.handles code) :
    Controlled { sys with table, reported, killed } where
  machine := h.machine
  recorded := h.recorded
  ended := h.ended
  numbered := hnumbered
  added := hnext.symm ▸ h.added
  known job hjob := h.known job (hsub hjob)
  disjoint job hjob other hother := h.disjoint job (hsub hjob) other (hsub hother)
  waits job hjob := h.waits job (hsub hjob)
  done job hjob := h.done job (hsub hjob)
  exits := hexits

/-- The ids of the jobs that leave make up for those that are left. -/
lemma perm_ids (h : sys.Controlled) {p : Job → Bool} {left : List Nat}
    (hiter : table.iter = sys.table.iter.filter (!p ·)) (hnodup : left.Nodup)
    (hleft : ∀ id, id ∈ left ↔ ∃ job ∈ sys.table.iter, p job ∧ job.id = id) :
    (table.ids ++ left).Perm sys.table.ids := by
  have hgone : left.Perm ((sys.table.iter.filter p).map Job.id) := by
    rw [List.perm_ext_iff_of_nodup hnodup (h.nodup.sublist (List.filter_sublist.map _))]
    intro id
    rw [hleft]
    simp only [List.mem_map, List.mem_filter, and_assoc]
  have hsplit : ((sys.table.iter.filter p).map Job.id ++ table.ids).Perm sys.table.ids := by
    rw [JobTable.ids, hiter, ← List.map_append]
    exact (List.filter_append_perm p sys.table.iter).map _
  exact (List.perm_append_comm.trans (hgone.append_right _)).trans hsplit

/-- Jobs that are done leave the table and are reported. -/
theorem report (h : sys.Controlled) (p : Job → Bool) {codes : List (Nat × Int32)}
    (hnext : table.nextId = sys.table.nextId)
    (hiter : table.iter = sys.table.iter.filter (!p ·)) (hnodup : (codes.map Prod.fst).Nodup)
    (hcodes : ∀ id code, (id, code) ∈ codes ↔
      ∃ job ∈ sys.table.iter, p job ∧ job.finished? = some (id, code))
    (hdone : ∀ job ∈ sys.table.iter, p job → job.state ≠ .running) :
    Controlled (System.report { sys with table } codes) := by
  have hperm : (table.ids ++ codes.map Prod.fst).Perm sys.table.ids := by
    refine h.perm_ids hiter hnodup fun id => ?_
    constructor
    · intro hid
      obtain ⟨⟨id, code⟩, hmem, rfl⟩ := List.mem_map.mp hid
      obtain ⟨job, hjob, hp, hx⟩ := (hcodes id code).mp hmem
      exact ⟨job, hjob, hp, (finished?_eq_some hx).1.symm⟩
    · rintro ⟨job, hjob, hp, rfl⟩
      cases hstate : job.state with
      | running => exact absurd hstate (hdone job hjob hp)
      | done code =>
        have hx : job.finished? = some (job.id, code) := by rw [Job.finished?, hstate]
        exact List.mem_map.mpr ⟨_, (hcodes job.id code).mpr ⟨job, hjob, hp, hx⟩, rfl⟩
  refine h.of_subset hnext (hiter ▸ List.filter_subset_self _) ?_ ?_
  · rw [hnext, List.map_append]
    refine List.Perm.trans (List.Perm.append_right _ ?_) h.numbered
    exact ((List.perm_append_comm_assoc table.ids _ _).trans
      ((hperm.append_left _).trans List.perm_append_comm))
  · intro id code hmem
    rcases List.mem_append.mp hmem with hold | hnew
    · exact h.exits id code hold
    · obtain ⟨job, hjob, _, hx⟩ := (hcodes id code).mp hnew
      obtain ⟨hid, hstate⟩ := finished?_eq_some hx
      exact ⟨_, h.known job hjob, hid.symm, h.done job hjob code hstate⟩

/-- A killed job leaves the table. -/
theorem kill (h : sys.Controlled) (hnext : table.nextId = sys.table.nextId)
    (hid : id ∈ sys.table.ids) (hiter : table.iter = sys.table.iter.filter (·.id ≠ id)) :
    Controlled { sys with table, killed := sys.killed ++ [id] } := by
  have hperm : (table.ids ++ [id]).Perm sys.table.ids := by
    refine h.perm_ids (p := fun job => job.id = id) (by simpa using hiter)
      (List.nodup_singleton id) fun id' => ?_
    rw [List.mem_singleton]
    constructor
    · rintro rfl
      obtain ⟨job, hjob, rfl⟩ := List.mem_map.mp hid
      exact ⟨job, hjob, decide_eq_true rfl, rfl⟩
    · rintro ⟨job, _, hp, rfl⟩
      exact of_decide_eq_true hp
  refine h.of_subset hnext (hiter ▸ List.filter_subset_self _) ?_ h.exits
  rw [hnext]
  refine List.Perm.trans ?_ h.numbered
  have hmove : (table.ids ++ sys.reported.map Prod.fst ++ (sys.killed ++ [id])).Perm
      ((table.ids ++ [id]) ++ (sys.reported.map Prod.fst ++ sys.killed)) := by
    rw [List.append_assoc, List.append_assoc]
    apply List.Perm.append_left
    rw [← List.append_assoc]
    exact List.perm_append_comm
  refine hmove.trans ?_
  rw [List.append_assoc sys.table.ids]
  exact hperm.append_right _

/-- A job whose handles belong to nobody enters the table. -/
theorem add (h : sys.Controlled) {command : String} {handles : List TaskHandle}
    (howns : ∀ handle ∈ handles,
      (sys.machine.Active handle ∨ (sys.machine.sched.resultOf handle).isSome) ∧
      ∀ job ∈ sys.table.iter, handle ∉ job.handles) :
    Controlled { sys with
      table := (sys.table.add command handles).2
      added := sys.added ++
        [{ id := sys.table.nextId + 1, command, handles, state := .running }] } := by
  have hiter := JobTable.iter_add sys.table command handles
  have hmem : ∀ job, job ∈ (sys.table.add command handles).2.iter ↔
      job = ⟨sys.table.nextId + 1, command, handles, .running⟩ ∨ job ∈ sys.table.iter := by
    intro job
    rw [hiter.mem_iff, List.mem_cons]
  have hrange : List.range' 1 (sys.table.nextId + 1) =
      List.range' 1 sys.table.nextId ++ [sys.table.nextId + 1] := by
    rw [List.range'_1_concat, Nat.add_comm 1]
  refine ⟨h.machine, h.recorded, h.ended, ?_, ?_, ?_, ?_, ?_, ?_, ?_⟩
  · have hids : (sys.table.add command handles).2.ids.Perm
        ((sys.table.nextId + 1) :: sys.table.ids) := hiter.map Job.id
    simp only [JobTable.add] at hids ⊢
    rw [hrange]
    refine ((hids.append_right _).append_right _).trans ?_
    rw [List.cons_append, List.cons_append]
    exact (h.numbered.cons _).trans (List.perm_append_singleton _ _).symm
  · simp only [JobTable.add, List.map_append, h.added, hrange, List.map_cons, List.map_nil]
  · intro job hjob
    rcases (hmem job).mp hjob with rfl | hold
    · exact List.mem_append_right _ (List.mem_singleton_self _)
    · exact List.mem_append_left _ (h.known job hold)
  · intro job hjob other hother handle hhandle hhandle'
    rcases (hmem job).mp hjob with rfl | hold <;> rcases (hmem other).mp hother with rfl | hold'
    · rfl
    · exact absurd hhandle' ((howns handle hhandle).2 other hold')
    · exact absurd hhandle ((howns handle hhandle').2 job hold)
    · exact h.disjoint job hold other hold' handle hhandle hhandle'
  · intro job hjob hrunning handle hhandle
    rcases (hmem job).mp hjob with rfl | hold
    · exact (howns handle hhandle).1
    · exact h.waits job hold hrunning handle hhandle
  · intro job hjob code hdone
    rcases (hmem job).mp hjob with rfl | hold
    · cases hdone
    · exact h.done job hold code hdone
  · intro id code hreported
    obtain ⟨job, hjob, hexits⟩ := h.exits id code hreported
    exact ⟨job, List.mem_append_left _ hjob, hexits⟩

/-- The results of what has ended stay or are taken. -/
lemma resultOf_of_step {m : Machine} {e : Scheduling.Event} {out : Option Output}
    (h : sys.Controlled) (hstep : sys.machine.step e = some (m, out)) {k : TaskHandle}
    {r : TaskResult} (hk : (sys.outcomes k).isSome) (hr : m.sched.resultOf k = some r) :
    sys.machine.sched.resultOf k = some r := by
  obtain ⟨hlt, hactive⟩ := h.ended k hk
  by_cases hask : Machine.Asks e k
  · have hnone := (Machine.handed_of_asks hstep hask (Machine.resultOf_of_takenAt h.machine)).2
    rw [hnone] at hr
    cases hr
  · exact (Machine.resultOf_of_step h.valid hstep hactive hlt hask).symm.trans hr

/-- Results that are not lost in between need not be kept twice. -/
lemma onward_onward {m m' : Machine}
    (hkept : ∀ k r, m.sched.resultOf k = some r → m'.sched.resultOf k = some r) :
    (sys.onward m).onward m' = sys.onward m' := by
  have houtcomes : ((sys.onward m).onward m').outcomes = (sys.onward m').outcomes := by
    funext k
    simp only [System.onward]
    cases hr : m.sched.resultOf k with
    | none => rw [Option.or_none]
    | some r =>
      rw [hkept k r hr]
      cases sys.outcomes k <;> rfl
  exact congrArg (fun outcomes => { sys.onward m' with outcomes }) houtcomes

lemma outcomes_onward {m : Machine} (k : TaskHandle) :
    (sys.onward m).outcomes k = (sys.outcomes k).or (m.sched.resultOf k) := rfl

/-- The machine takes a step that asks no handle of a running job. -/
theorem onward {m : Machine} {e : Scheduling.Event} {out : Option Output} (h : sys.Controlled)
    (hstep : sys.machine.step e = some (m, out))
    (hasks : ∀ job ∈ sys.table.iter, ∀ handle ∈ job.handles, ¬ Machine.Asks e handle) :
    (sys.onward m).Controlled := by
  have hm' := h.machine.tail trivial ⟨out, hstep⟩
  have hkept : ∀ k r, sys.outcomes k = some r → (sys.onward m).outcomes k = some r := by
    intro k r hr
    rw [outcomes_onward, hr, Option.some_or]
  have hexits : ∀ handles code, Exits sys.outcomes handles code →
      Exits (sys.onward m).outcomes handles code := by
    intro handles code hexits
    have hsame : ∀ handle ∈ handles, (sys.onward m).outcomes handle = sys.outcomes handle := by
      intro handle hhandle
      obtain ⟨r, hr⟩ := Option.isSome_iff_exists.mp (hexits.1 handle hhandle)
      rw [hkept handle r hr, hr]
    refine ⟨fun handle hhandle => hsame handle hhandle ▸ hexits.1 handle hhandle, ?_⟩
    rw [hexits.2]
    cases hlast : handles.getLast? with
    | none => rfl
    | some handle =>
      rw [Option.bind_some, Option.bind_some, hsame handle (List.mem_of_getLast? hlast)]
  refine ⟨hm', ?_, ?_, h.numbered, h.added, h.known, h.disjoint, ?_, ?_, ?_⟩
  · intro k r hr
    cases hk : sys.outcomes k with
    | none =>
      rw [outcomes_onward, hk, Option.none_or]
      exact hr
    | some r' =>
      have hold := h.resultOf_of_step hstep (Option.isSome_of_eq_some hk) hr
      exact hkept k r (h.recorded k r hold)
  · intro k hk
    cases hk' : sys.outcomes k with
    | none =>
      rw [outcomes_onward, hk', Option.none_or] at hk
      obtain ⟨r, hr⟩ := Option.isSome_iff_exists.mp hk
      obtain ⟨slot, hslot, _⟩ := Scheduler.resultOf_eq_some.mp hr
      refine ⟨(List.getElem?_eq_some_iff.mp hslot).1, fun hactive => ?_⟩
      rw [Machine.resultOf_eq_none_of_active (Machine.sound_of_reachable hm') hactive] at hr
      cases hr
    | some r' =>
      obtain ⟨hlt, hactive⟩ := h.ended k (Option.isSome_of_eq_some hk')
      exact ⟨hlt.trans_le (Machine.length_completions_le h.valid hstep),
        Machine.not_active_of_step h.valid hstep hactive hlt⟩
  · intro job hjob hrunning handle hhandle
    rcases h.waits job hjob hrunning handle hhandle with hactive | hsome
    · exact Machine.active_or_isSome_of_step h.valid hstep hactive
    · obtain ⟨r, hr⟩ := Option.isSome_iff_exists.mp hsome
      obtain ⟨hlt, hactive⟩ := h.ended handle (Option.isSome_of_eq_some (h.recorded handle r hr))
      right
      simp only [System.onward]
      rwa [Machine.resultOf_of_step h.valid hstep hactive hlt (hasks job hjob handle hhandle)]
  · exact fun job hjob code hdone => hexits _ _ (h.done job hjob code hdone)
  · intro id code hreported
    obtain ⟨job, hjob, hid, hjobExits⟩ := h.exits id code hreported
    exact ⟨job, hjob, hid, hexits _ _ hjobExits⟩

lemma onward_self (h : sys.Controlled) : sys.onward sys.machine = sys := by
  have houtcomes : (sys.onward sys.machine).outcomes = sys.outcomes := by
    funext k
    rw [outcomes_onward]
    cases hk : sys.outcomes k with
    | some r => rfl
    | none =>
      cases hr : sys.machine.sched.resultOf k with
      | none => rfl
      | some r =>
        rw [h.recorded k r hr] at hk
        cases hk
  exact congrArg (fun outcomes => { sys with outcomes }) houtcomes

/-- The tasks of a job are cancelled. -/
theorem cancelled (h : sys.Controlled) (hcalls : calls sys.machine) (handles : List TaskHandle) :
    (sys.onward { sys.machine with
      sched := handles.foldl cancelHandle sys.machine.sched }).Controlled := by
  induction handles generalizing sys with
  | nil => exact h.onward_self.symm ▸ h
  | cons handle handles ih =>
    rw [List.foldl_cons]
    cases hid : sys.machine.sched.taskId? handle with
    | none =>
      have hsame : cancelHandle sys.machine.sched handle = sys.machine.sched := by
        rw [cancelHandle, hid]
      rw [hsame]
      exact ih h hcalls
    | some id =>
      have hcancel : cancelHandle sys.machine.sched handle =
          (sys.machine.sched.cancelTask id).1 := by
        rw [cancelHandle, hid]
      rw [hcancel]
      have hstep := step_of_calls (e := .cancelTask id) hcalls rfl
      have hfirst := h.onward hstep fun _ _ handle _ hask => by
        rcases hask with hask | ⟨_, hask⟩ <;> cases hask
      have hrest := ih hfirst hcalls
      rwa [onward_onward fun k r hr => resultOf_foldl_cancelHandle hr handles] at hrest

/-- A killed job ends its tasks and leaves the table. -/
theorem killed (h : sys.Controlled) (hcalls : calls sys.machine)
    (hstep : sys.step (.kill id) = some sys') : sys'.Controlled := by
  rw [step_kill, JobTable.remove_fst h.nodup] at hstep
  obtain rfl := call_eq_some hstep
  have hcancelled : (sys.onward { sys.machine with
      sched := (sys.table.get id).elim sys.machine.sched
        (·.kill sys.machine.sched) }).Controlled := by
    cases sys.table.get id with
    | none => exact h.onward_self.symm ▸ h
    | some job => exact h.cancelled hcalls job.handles
  have hiter : (sys.table.remove id).2.iter = sys.table.iter.filter (·.id ≠ id) :=
    JobTable.iter_remove h.nodup
  have hnext : (sys.table.remove id).2.nextId = sys.table.nextId := rfl
  cases hget : sys.table.get id with
  | none =>
    have hnot : ∀ job ∈ sys.table.iter, job.id ≠ id := by
      intro job hjob
      simpa using List.find?_eq_none.mp hget job hjob
    rw [hget] at hcancelled
    have hsame : sys.table.iter.filter (·.id ≠ id) = sys.table.iter :=
      List.filter_eq_self.mpr fun job hjob => decide_eq_true (hnot job hjob)
    exact hcancelled.of_iter hnext (hiter.trans hsame)
  | some job =>
    obtain ⟨hjob, hid⟩ := (JobTable.get_eq_some h.nodup).mp hget
    rw [hget] at hcancelled
    exact hcancelled.kill hnext (List.mem_map.mpr ⟨job, hjob, hid⟩) hiter

end Controlled

/-! ### Every call -/

/-- Where a call has brought about no new result, nothing is recorded. -/
lemma called_eq_set {table : JobTable} {s : Scheduler}
    (hrecorded : ∀ k r, s.resultOf k = some r → sys.outcomes k = some r) :
    sys.called table s = sys.set table s := by
  have houtcomes : (sys.called table s).outcomes = sys.outcomes := by
    funext k
    simp only [called, onward]
    cases hk : sys.outcomes k with
    | some r => rfl
    | none =>
      cases hr : s.resultOf k with
      | none => rfl
      | some r =>
        rw [hrecorded k r hr] at hk
        cases hk
  exact congrArg (fun outcomes => { sys.set table s with outcomes }) houtcomes

/-- One job that is done is removed and reported. -/
lemma Controlled.reportOne (h : sys.Controlled) (hstate : (sys.table.get id).map Job.state =
    some (.done code)) :
    Controlled (System.report { sys with table := (sys.table.remove id).2 } [(id, code)]) := by
  obtain ⟨job, hget, hdone⟩ := Option.map_eq_some_iff.mp hstate
  obtain ⟨hjob, hid⟩ := (JobTable.get_eq_some h.nodup).mp hget
  have hsame : ∀ other ∈ sys.table.iter, other.id = id → other = job := fun other hother hid' =>
    List.inj_on_of_nodup_map h.nodup hother hjob (hid'.trans hid.symm)
  have hfinished : job.finished? = some (id, code) := by rw [Job.finished?, hdone, hid]
  refine h.report (fun job => job.id = id) rfl ?_ (List.nodup_singleton id) ?_ ?_
  · have hiter : (sys.table.remove id).2.iter = sys.table.iter.filter (·.id ≠ id) :=
      JobTable.iter_remove h.nodup
    simpa using hiter
  · intro id' code'
    rw [List.mem_singleton]
    constructor
    · intro heq
      exact ⟨job, hjob, decide_eq_true hid, heq ▸ hfinished⟩
    · rintro ⟨other, hother, hid', hfinished'⟩
      rw [hsame other hother (of_decide_eq_true hid'), hfinished] at hfinished'
      exact (Option.some.inj hfinished').symm
  · intro other hother hid' hrunning
    rw [hsame other hother (of_decide_eq_true hid'), hdone] at hrunning
    cases hrunning

/-- What `wait` and `reap` report of a table. -/
lemma Controlled.reportAll (h : sys.Controlled) {p : Job → Bool} {codes : List (Nat × Int32)}
    {table : JobTable} (hnext : table.nextId = sys.table.nextId)
    (hiter : table.iter = sys.table.iter.filter (!p ·))
    (hcodes : codes = (sys.table.iter.filter p).filterMap Job.finished?)
    (hdone : ∀ job ∈ sys.table.iter, p job → job.state ≠ .running) :
    Controlled (System.report { sys with table } codes) := by
  refine h.report p hnext hiter ?_ ?_ hdone
  · have hsub : ∀ jobs : List Job,
        ((jobs.filterMap Job.finished?).map Prod.fst).Sublist (jobs.map Job.id) := by
      intro jobs
      induction jobs with
      | nil => exact .slnil
      | cons job jobs ih =>
        cases hstate : job.state with
        | running =>
          rw [List.filterMap_cons_none (by rw [Job.finished?, hstate]), List.map_cons]
          exact ih.cons _
        | done code =>
          rw [List.filterMap_cons_some (by rw [Job.finished?, hstate]), List.map_cons,
            List.map_cons]
          exact ih.cons_cons _
    rw [hcodes]
    exact (h.nodup.sublist (List.filter_sublist.map _)).sublist (hsub _)
  · intro id code
    simp only [hcodes, List.mem_filterMap, List.mem_filter, and_assoc]

/-- What a refreshed table loses to the reports. -/
lemma Refreshed.report {table : JobTable} {s : Scheduler} {p : Job → Bool}
    {codes : List (Nat × Int32)} {left : JobTable} (h : Refreshed sys (sys.set table s))
    (hnext : left.nextId = table.nextId) (hiter : left.iter = table.iter.filter (!p ·))
    (hcodes : codes = (table.iter.filter p).filterMap Job.finished?)
    (hdone : ∀ job ∈ table.iter, p job → job.state ≠ .running) :
    (System.report (sys.called left s) codes).Controlled := by
  have hcalled : sys.called left s = sys.set left s := called_eq_set h.controlled.recorded
  rw [hcalled]
  exact h.controlled.reportAll hnext hiter hcodes hdone

theorem controlled_reap (h : sys.Controlled) (hcalls : calls sys.machine)
    (hstep : sys.step .reap = some sys') :
    sys'.Controlled ∧ ∀ job ∈ sys'.table.iter, sys'.Busy job := by
  have hreap := JobTable.reap_eq (s := sys.machine.sched) h.nodup
  have hupdate := refreshed_updateJobStates h hcalls
  rw [System.step, hreap] at hstep
  clear hreap
  generalize sys.table.updateJobStates sys.machine.sched = updated at hupdate hstep
  obtain ⟨table, s⟩ := updated
  obtain ⟨hrefreshed, hids⟩ := hupdate
  obtain rfl := call_eq_some hstep
  have hnodup : table.ids.Nodup := hrefreshed.controlled.nodup
  obtain ⟨hiter, hnext⟩ := JobTable.iter_foldl_remove hnodup
    ((table.iter.filterMap Job.finished?).map Prod.fst)
  have hcompleted : ∀ job ∈ table.iter,
      job.id ∈ (table.iter.filterMap Job.finished?).map Prod.fst ↔ job.state ≠ .running := by
    intro job hjob
    simp only [List.mem_map, List.mem_filterMap]
    constructor
    · rintro ⟨x, ⟨other, hother, hx⟩, hid⟩ hrunning
      obtain ⟨hid', hstate⟩ := finished?_eq_some hx
      obtain rfl : other = job :=
        List.inj_on_of_nodup_map hnodup hother hjob (hid'.symm.trans hid)
      rw [hrunning] at hstate
      cases hstate
    · intro hrunning
      cases hstate : job.state with
      | running => exact absurd hstate hrunning
      | done code => exact ⟨_, ⟨job, hjob, by rw [Job.finished?, hstate]⟩, rfl⟩
  refine ⟨hrefreshed.report hnext (p := fun job => job.state ≠ .running) ?_ ?_ ?_, ?_⟩
  · rw [hiter]
    apply List.filter_congr
    intro job hjob
    simp [hcompleted job hjob]
  · rw [List.filterMap_filter]
    apply List.filterMap_congr
    intro job _
    cases hstate : job.state <;> simp [Job.finished?, hstate]
  · exact fun job _ hp => of_decide_eq_true hp
  · intro job hjob
    have hmem : job ∈ table.iter.filter
        (·.id ∉ (table.iter.filterMap Job.finished?).map Prod.fst) := hiter ▸ hjob
    obtain ⟨hjob', hleft⟩ := List.mem_filter.mp hmem
    have hrunning : job.state = .running := by
      by_contra hne
      exact of_decide_eq_true hleft ((hcompleted job hjob').mpr hne)
    exact hids job.id (List.mem_map_of_mem hjob') job hjob' rfl hrunning

lemma report_nil : sys.report [] = sys := by rw [report, List.append_nil]

lemma Refreshed.called {table : JobTable} {s : Scheduler} (h : Refreshed sys (sys.set table s)) :
    sys.called table s = sys.set table s :=
  called_eq_set h.controlled.recorded

theorem controlled_updateJobStates (h : sys.Controlled) (hcalls : calls sys.machine)
    (hstep : sys.step .updateJobStates = some sys') :
    sys'.Controlled ∧ ∀ job ∈ sys'.table.iter, job.state = .running → sys'.Busy job := by
  have hupdate := refreshed_updateJobStates h hcalls
  rw [System.step] at hstep
  generalize sys.table.updateJobStates sys.machine.sched = updated at hupdate hstep
  obtain ⟨table, s⟩ := updated
  obtain ⟨hrefreshed, hids⟩ := hupdate
  obtain rfl := call_eq_some hstep
  rw [hrefreshed.called]
  exact ⟨hrefreshed.controlled, fun job hjob => hids job.id (List.mem_map_of_mem hjob) job hjob rfl⟩

theorem controlled_fg (h : sys.Controlled) (hstep : sys.step (.fg id) = some sys') :
    sys'.Controlled := by
  rw [System.step] at hstep
  rcases JobTable.fg_cases sys.table id with ⟨code, hstate, hfg⟩ | hfg <;>
    rw [hfg] at hstep <;> obtain rfl := call_eq_some hstep
  · exact h.reportOne hstate
  · have hnothing : System.report { sys with table := sys.table } [] = sys := report_nil
    exact hnothing.symm ▸ h

/-- A job that `fg` has not brought to its end has a task that is active. -/
theorem controlled_fgTurn (h : sys.Controlled) (hcalls : calls sys.machine)
    (hstep : sys.step (.fgTurn id) = some sys') :
    sys'.Controlled ∧ ∀ job ∈ sys'.table.iter, job.id = id → sys'.Busy job := by
  rw [System.step] at hstep
  rcases JobTable.fgTurn_cases sys.table id sys.machine.sched with
    ⟨hget, hturn⟩ | ⟨job, table, s, hget, hupdated, hturn⟩
  · rw [hturn, hget] at hstep
    obtain rfl := call_eq_some hstep
    have hnothing : System.report (sys.called sys.table sys.machine.sched) [] = sys :=
      report_nil.trans (Refreshed.refl h).called
    have hnone : ∀ job ∈ sys.table.iter, job.id ≠ id := by
      intro job hjob
      simpa using List.find?_eq_none.mp hget job hjob
    exact hnothing.symm ▸ ⟨h, fun job hjob hid => absurd hid (hnone job hjob)⟩
  · have hupdate := refreshed_updateJob h hcalls id
    rw [hupdated] at hupdate
    obtain ⟨hrefreshed, hid⟩ := hupdate
    have hnodup : table.ids.Nodup := hrefreshed.controlled.nodup
    rcases hturn with ⟨code, hstate, hturn⟩ | ⟨hstate, hturn⟩ <;> rw [hturn, hget] at hstep <;>
      obtain rfl := call_eq_some hstep
    · have hcalled : sys.called (table.remove id).2 s = sys.set (table.remove id).2 s :=
        called_eq_set hrefreshed.controlled.recorded
      refine ⟨hcalled ▸ hrefreshed.controlled.reportOne hstate, fun other hother hother' => ?_⟩
      have hmem : other ∈ table.iter.filter (·.id ≠ id) := JobTable.iter_remove hnodup ▸ hother
      exact absurd hother' (of_decide_eq_true (List.mem_filter.mp hmem).2)
    · have hnothing : System.report (sys.called table s) [] = sys.set table s :=
        report_nil.trans hrefreshed.called
      refine hnothing.symm ▸ ⟨hrefreshed.controlled, fun other hother hother' => ?_⟩
      refine hid other hother hother' ?_
      cases hdone : other.state with
      | running => rfl
      | done code =>
        have hget' := JobTable.state_of_get hnodup hother hother'
        exact absurd (hget'.trans (congrArg some hdone)) (hstate code)

/-- The loop of `wait` ends when none of its jobs is left, and goes on only when one of them has a
task that is active. -/
theorem controlled_wait {ids : List Nat} {lastCode : Int32} (h : sys.Controlled)
    (hcalls : calls sys.machine) (hstep : sys.step (.wait ids lastCode) = some sys') :
    sys'.Controlled ∧ ((∀ job ∈ sys'.table.iter, job.id ∉ ids) ∨
      ∃ job ∈ sys.table.iter, job.state = .running ∧ job.id ∈ ids ∧ sys'.Busy job) := by
  rw [System.step, JobTable.wait] at hstep
  generalize hout : sys.table.waitLoop sys.machine.sched true lastCode ids = out at hstep
  obtain ⟨allDone, lastCode', table, s⟩ := out
  obtain ⟨hrefreshed, hdone, hbusy⟩ := refreshed_waitLoop h hcalls hout
  cases allDone with
  | false =>
    obtain rfl := call_eq_some hstep
    have hnothing : System.report (sys.called table s) [] = sys.set table s :=
      report_nil.trans hrefreshed.called
    have hleft := (hbusy rfl).resolve_left Bool.false_ne_true
    exact hnothing.symm ▸ ⟨hrefreshed.controlled, .inr hleft⟩
  | true =>
    obtain rfl := call_eq_some hstep
    have hnodup : table.ids.Nodup := hrefreshed.controlled.nodup
    obtain ⟨hiter, hnext⟩ := JobTable.iter_foldl_remove hnodup ids
    refine ⟨hrefreshed.report hnext (p := fun job => job.id ∈ ids) ?_ rfl ?_, .inl ?_⟩
    · simpa using hiter
    · intro job hjob hid
      exact (hdone rfl).2 job hjob (of_decide_eq_true hid)
    · intro job hjob hid
      have hmem : job ∈ table.iter.filter (·.id ∉ ids) := hiter ▸ hjob
      exact absurd hid (of_decide_eq_true (List.mem_filter.mp hmem).2)

lemma calls_of_call {result : System} (h : sys.call result = some sys') : calls sys.machine := by
  rw [call] at h
  split_ifs at h with hcalls
  exact hcalls

theorem Controlled.of_step {e : Event} (h : sys.Controlled) (howns : sys.Owns e)
    (hstep : sys.step e = some sys') : sys'.Controlled := by
  cases e with
  | scheduler e =>
    obtain ⟨⟨m, out⟩, hm, rfl⟩ := Option.map_eq_some_iff.mp hstep
    exact h.onward hm howns
  | add command handles =>
    obtain rfl := call_eq_some hstep
    exact h.add howns
  | updateJobStates => exact (controlled_updateJobStates h (calls_of_call hstep) hstep).1
  | reap => exact (controlled_reap h (calls_of_call hstep) hstep).1
  | fg id => exact controlled_fg h hstep
  | fgTurn id => exact (controlled_fgTurn h (calls_of_call hstep) hstep).1
  | wait ids lastCode => exact (controlled_wait h (calls_of_call hstep) hstep).1
  | kill id => exact h.killed (calls_of_call hstep) hstep

lemma controlled_new : Controlled {} where
  machine := .refl
  recorded k r h := by simp [Scheduler.resultOf, Scheduler.slot?] at h
  ended k h := by cases h
  numbered := .refl _
  added := rfl
  known job h := by cases h
  disjoint job h := by cases h
  waits job h := by cases h
  done job h := by cases h
  exits id code h := by cases h

theorem controlled_of_reachable (h : sys.Reachable) : sys.Controlled :=
  h.invariant controlled_new fun _ _ _ hcontrolled howns hstep => hcontrolled.of_step howns hstep

/-- What holds of the jobs in every state. The jobs are numbered from 1 in the order in which they
were added, and each is in the table or was reported or killed once. The exit code that is reported
of a job is that of its last task, after all its tasks have ended, and no handle has two results. No
job misses the end of its tasks: `reap` and `fg` leave a job only while a task of it is active, and
`wait` goes on only while a task of one of its jobs is. A job that is killed takes all tasks below
its own with it. -/
structure JobControl (sys : System) : Prop where
  added : sys.added.map Job.id = List.range' 1 sys.table.nextId
  numbered : (sys.table.ids ++ sys.reported.map Prod.fst ++ sys.killed).Perm
    (List.range' 1 sys.table.nextId)
  exits : ∀ id code, (id, code) ∈ sys.reported →
    ∃ job ∈ sys.added, job.id = id ∧ Exits sys.outcomes job.handles code
  recorded : ∀ k r, sys.machine.sched.resultOf k = some r → sys.outcomes k = some r
  ended : ∀ k, (sys.outcomes k).isSome → ¬ sys.machine.Active k
  reaped : ∀ sys', sys.step .reap = some sys' → ∀ job ∈ sys'.table.iter, sys'.Busy job
  foreground : ∀ id sys', sys.step (.fgTurn id) = some sys' →
    ∀ job ∈ sys'.table.iter, job.id = id → sys'.Busy job
  waited : ∀ ids lastCode sys', sys.step (.wait ids lastCode) = some sys' →
    (∀ job ∈ sys'.table.iter, job.id ∉ ids) ∨
      ∃ job ∈ sys.table.iter, job.state = .running ∧ job.id ∈ ids ∧ sys'.Busy job
  killed : ∀ sys' job, job ∈ sys.table.iter → sys.step (.kill job.id) = some sys' →
    job.id ∉ sys'.table.ids ∧ ∀ handle ∈ job.handles, ∀ root,
      sys.machine.sched.taskId? handle = some root → ∀ id, sys.machine.sched.Below root id →
        sys'.machine.sched.lookup id = none

lemma killed_of_controlled (h : sys.Controlled) (hjob : job ∈ sys.table.iter)
    (hstep : sys.step (.kill job.id) = some sys') :
    job.id ∉ sys'.table.ids ∧ ∀ handle ∈ job.handles, ∀ root,
      sys.machine.sched.taskId? handle = some root → ∀ id, sys.machine.sched.Below root id →
        sys'.machine.sched.lookup id = none := by
  rw [step_kill, (JobTable.get_eq_some h.nodup).mpr ⟨hjob, rfl⟩] at hstep
  obtain rfl := call_eq_some hstep
  constructor
  · intro hmem
    obtain ⟨other, hother, hid⟩ := List.mem_map.mp hmem
    have hleft : other ∈ sys.table.iter.filter (·.id ≠ job.id) :=
      JobTable.iter_remove h.nodup ▸ hother
    exact of_decide_eq_true (List.mem_filter.mp hleft).2 hid
  · intro handle hhandle root hroot id hbelow
    exact lookup_foldl_cancelHandle job.handles _ hhandle hroot hbelow

/-- Job control works in every run, whatever the scheduler and the calls of the builtins do in
between. -/
theorem jobControl_of_reachable (h : sys.Reachable) : sys.JobControl := by
  have hcontrolled := controlled_of_reachable h
  exact
    { added := hcontrolled.added
      numbered := hcontrolled.numbered
      exits := hcontrolled.exits
      recorded := hcontrolled.recorded
      ended := fun k hk => (hcontrolled.ended k hk).2
      reaped := fun sys' hstep => (controlled_reap hcontrolled (calls_of_call hstep) hstep).2
      foreground := fun id sys' hstep =>
        (controlled_fgTurn hcontrolled (calls_of_call hstep) hstep).2
      waited := fun ids lastCode sys' hstep =>
        (controlled_wait hcontrolled (calls_of_call hstep) hstep).2
      killed := fun sys' job hjob hstep => killed_of_controlled hcontrolled hjob hstep }

/-- A job of one task, which fails. -/
theorem jobControl_failing_task : ∃ sys : System, sys.reported = [(1, 3)] ∧ sys.JobControl := by
  have hspawn : Reachable _ := .tail (e := .scheduler .spawn) .refl (fun _ h => by cases h) rfl
  have hadd : Reachable _ := hspawn.tail (e := .add "sleep 1" [0]) (by
    intro handle hhandle
    obtain rfl := List.mem_singleton.mp hhandle
    exact ⟨.inl (.inl ⟨_, List.mem_singleton_self _, rfl⟩), fun _ h => by cases h⟩) rfl
  have hpoll : Reachable _ := hadd.tail (e := .scheduler (.runStep [] []))
    (fun _ _ _ _ hask => by rcases hask with h | ⟨_, h⟩ <;> cases h) rfl
  have hreturn : Reachable _ :=
    hpoll.tail (e := .scheduler (.pollReturn (some (.ok ⟨3, {}⟩)) []))
      (fun _ _ _ _ hask => by rcases hask with h | ⟨_, h⟩ <;> cases h) rfl
  exact ⟨_, by decide, jobControl_of_reachable (hreturn.tail (e := .reap) trivial rfl)⟩

end System

end AmlaSandbox.Shell.Jobs
