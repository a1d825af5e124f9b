import AmlaSandbox.Scheduler.Fairness

/-!
# Polls in progress

A future is polled through a pointer into its slot. That is sound as long as no future is on the
stack twice and every future on the stack is still in its slot. Neither the ready queue nor
cancellation looks at the stack, so it rests on what tasks do in their polls: which steps they take
after which wakes, whom they cancel, and where they finish.
-/

namespace AmlaSandbox.Scheduling

open Library Scheduler

variable {m m' : Machine} {e : Event} {out : Option Output} {s : Scheduler}

namespace Machine

/-- No future is polled within its own poll, and none was dropped while it is polled. -/
def NoReentry (m : Machine) : Prop :=
  (m.polls.map (·.2)).Nodup ∧
    ∀ poll ∈ m.polls, (m.sched.lookup poll.1).map (·.slot) = some poll.2

/-- The event polls no future that is being polled, and removes no task whose poll goes on. -/
def RespectsPolls (m : Machine) (e : Event) : Prop :=
  (∀ poll ∈ m.polled e, ∀ other ∈ m.polls, other.2 ≠ poll.2) ∧
    ∀ poll ∈ m.remaining e, ¬ m.Ends e poll.1

lemma nodup_polls_iff (hnodup : (m.polls.map (·.2)).Nodup) (h : m.step e = some (m', out)) :
    (m'.polls.map (·.2)).Nodup ↔ ∀ poll ∈ m.polled e, ∀ other ∈ m.polls, other.2 ≠ poll.2 := by
  rw [polls_of_step h]
  cases hpolled : m.polled e with
  | none =>
    have hsub : (m.remaining e).Sublist m.polls := by
      cases e with
      | pollReturn => exact List.tail_sublist _
      | _ => exact List.Sublist.refl _
    simpa using hnodup.sublist (hsub.map _)
  | some poll =>
    obtain ⟨fired, late, _, _, rfl, _⟩ := mem_polled hpolled
    simp only [Option.toList_some, List.singleton_append, List.map_cons, List.nodup_cons,
      Option.mem_def, Option.some.injEq, forall_eq']
    constructor
    · rintro ⟨hnotin, _⟩ other hother heq
      exact hnotin (List.mem_map.mpr ⟨other, hother, heq⟩)
    · intro hfresh
      refine ⟨?_, hnodup⟩
      intro hmem
      obtain ⟨other, hother, heq⟩ := List.mem_map.mp hmem
      exact hfresh other hother heq

/-- A poll that goes on keeps its task exactly if the event does not remove it. -/
lemma lookup_poll_iff {poll : TaskId × Nat} (hm : m.Valid)
    (hpoll : (m.sched.lookup poll.1).map (·.slot) = some poll.2) (heffect : Effect m e s) :
    (s.lookup poll.1).map (·.slot) = some poll.2 ↔ ¬ m.Ends e poll.1 := by
  obtain ⟨t, ht, hslot⟩ := Option.map_eq_some_iff.mp hpoll
  constructor
  · intro h hends
    rw [heffect.lookup_of_ends hends] at h
    cases h
  · intro hends
    obtain ⟨children, hlookup, _⟩ := heffect.survivor hm.sched ht hends
    rw [hlookup, ← hslot]
    rfl

lemma lookup_polled {poll : TaskId × Nat} (hpolled : poll ∈ m.polled e)
    (h : m.step e = some (m', out)) : (m'.sched.lookup poll.1).map (·.slot) = some poll.2 := by
  obtain ⟨fired, late, i, t, rfl, ht, rfl⟩ := mem_polled hpolled
  obtain ⟨rfl, _⟩ := runStep_of_step h
  rw [(same_runStep fired late).lookup, lookup_keyAt, ht]
  rfl

lemma noReentry_iff (hm : m.Valid) (hinv : m.NoReentry) (h : m.step e = some (m', out)) :
    m'.NoReentry ↔ m.RespectsPolls e := by
  have heffect := effect_of_step h
  apply and_congr (nodup_polls_iff hinv.1 h)
  rw [polls_of_step h]
  constructor
  · intro hall poll hpoll
    exact (lookup_poll_iff hm (hinv.2 poll (mem_polls_of_mem_remaining hpoll)) heffect).mp
      (hall poll (List.mem_append_right _ hpoll))
  · intro hall poll hpoll
    rcases List.mem_append.mp hpoll with hpoll | hpoll
    · exact lookup_polled (Option.mem_toList.mp hpoll) h
    · exact (lookup_poll_iff hm (hinv.2 poll (mem_polls_of_mem_remaining hpoll)) heffect).mpr
        (hall poll hpoll)

/-! ### What tasks do in their polls -/

/-- No step is taken within the poll of a task that has been woken since, or whose timer is due; no
task cancels itself or an ancestor in its poll; and none finishes within the poll of a
descendant. -/
def Considerate (m : Machine) : Event → Prop
  | .runStep fired _ => ∀ poll ∈ m.polls, poll.1.slot ∉ m.sched.readyQueue ++ fired
  | .cancelTask id => ∀ poll ∈ m.polls, ¬ m.sched.Below id poll.1
  | .pollReturn (some _) _ => ∀ top ∈ m.top?, ∀ poll ∈ m.polls.tail, ¬ m.sched.Below top.1 poll.1
  | _ => True

/-- Tasks that are new in the queue take no slot of a task that is being polled. -/
lemma notMem_readyQueue_prepared {fired : List Nat} {id : TaskId} (hm : m.Valid)
    (hlive : (m.sched.lookup id).isSome) (hqueue : id.slot ∉ m.sched.readyQueue ++ fired) :
    id.slot ∉ (m.prepared fired).readyQueue := by
  refine (prepared_induction (I := fun s _ => (s.lookup id).isSome ∧ id.slot ∉ s.readyQueue)
    (fun s task rest hs hI => ?_) hm.sched ⟨hlive, hqueue⟩).2.2
  obtain ⟨t, ht⟩ := Option.isSome_iff_exists.mp hI.1
  obtain ⟨children, hlookup, _⟩ := lookup_insertTask task hs.wf ht
  refine ⟨by rw [hlookup]; rfl, ?_⟩
  rw [readyQueue_insertTask, List.mem_append, List.mem_singleton, not_or]
  refine ⟨hI.2, fun heq => ?_⟩
  have hempty := hs.wf.nextKey_slot_empty
  rw [← heq] at hempty
  have htask : s.table.get? id.slot = some t := (lookup_eq_some.mp ht).1
  rw [hempty] at htask
  cases htask

/-- The slot of the future that a step polls stands in the queue. -/
lemma mem_readyQueue_of_polled {poll : TaskId × Nat} {fired late : List Nat}
    (h : poll ∈ m.polled (.runStep fired late)) :
    poll.1.slot ∈ (m.prepared fired).readyQueue := by
  obtain ⟨⟨i, t⟩, hpop, rfl⟩ := Option.map_eq_some_iff.mp h
  obtain ⟨skipped, -, hsplit⟩ := popReady_split (Prod.ext hpop rfl)
  rw [hsplit]
  simp [keyAt, GenTable.keyAt]

lemma lookup_of_noReentry {poll : TaskId × Nat} (hinv : m.NoReentry) (hpoll : poll ∈ m.polls) :
    ∃ t, m.sched.lookup poll.1 = some t ∧ t.slot = poll.2 :=
  Option.map_eq_some_iff.mp (hinv.2 poll hpoll)

lemma polled_fresh_of_considerate (hm : m.Valid) (hinv : m.NoReentry) (h : m.Considerate e) :
    ∀ poll ∈ m.polled e, ∀ other ∈ m.polls, other.2 ≠ poll.2 := by
  intro poll hpoll other hother heq
  obtain ⟨fired, late, i, t, rfl, ht, rfl⟩ := mem_polled hpoll
  obtain ⟨u, hu, -⟩ := lookup_of_noReentry hinv hother
  have hid : (m.prepared fired).keyAt i = other.1 := by
    have hoccupant := (valid_prepared hm.sched).occupant i t ht
    have hkept : (m.prepared fired).taskId? other.2 = some other.1 :=
      taskId?_prepared hm.sched (hm.polls other hother)
    rw [heq, hoccupant] at hkept
    exact Option.some.inj hkept
  refine notMem_readyQueue_prepared hm (by rw [hu]; rfl) (h other hother) ?_
  rw [← hid]
  exact mem_readyQueue_of_polled hpoll

lemma ends_pollReturn_iff {result : TaskResult} {late : List Nat} {id : TaskId}
    (hinv : m.NoReentry) : m.Ends (.pollReturn (some result) late) id ↔
      ∃ top ∈ m.top?, m.sched.Below top.1 id := by
  have hending {top : TaskId × Nat} (htop : m.top? = some top) :
      m.ending (.pollReturn (some result) late) = some top.1 := by
    obtain ⟨t, ht, -⟩ := lookup_of_noReentry hinv (top?_mem_polls htop)
    obtain ⟨htask, hkey⟩ := lookup_eq_some.mp ht
    simp [ending, htop, htask, ← hkey]
  constructor
  · rintro ⟨root, hroot, hbelow⟩
    obtain ⟨top, htop, -⟩ := Option.bind_eq_some_iff.mp hroot
    rw [hending htop] at hroot
    exact ⟨top, htop, Option.some.inj hroot ▸ hbelow⟩
  · rintro ⟨top, htop, hbelow⟩
    exact ⟨top.1, hending htop, hbelow⟩

lemma ends_cancelTask_iff {root id : TaskId} (hlive : (m.sched.lookup id).isSome) :
    m.Ends (.cancelTask root) id ↔ m.sched.Below root id := by
  constructor
  · rintro ⟨root', hroot, hbelow⟩
    obtain ⟨_, -, rfl⟩ := Option.map_eq_some_iff.mp hroot
    exact hbelow
  · intro hbelow
    have hroot : (m.sched.lookup root).isSome := by
      rcases Relation.ReflTransGen.cases_head hbelow with rfl | ⟨_, ⟨t, ht, _⟩, _⟩
      · exact hlive
      · rw [ht]
        rfl
    obtain ⟨t, ht⟩ := Option.isSome_iff_exists.mp hroot
    exact ⟨root, by simp [ending, ht], hbelow⟩

/-- What an event other than a step does to the polls in progress. -/
lemma remaining_iff_considerate (hinv : m.NoReentry)
    (hstep : ∀ fired late, e ≠ .runStep fired late) :
    (∀ poll ∈ m.remaining e, ¬ m.Ends e poll.1) ↔ m.Considerate e := by
  cases e with
  | runStep fired late => exact absurd rfl (hstep fired late)
  | cancelTask id =>
    refine forall₂_congr fun poll hpoll => not_congr (ends_cancelTask_iff ?_)
    obtain ⟨t, ht, -⟩ := lookup_of_noReentry hinv hpoll
    rw [ht]
    rfl
  | pollReturn result late =>
    cases result with
    | none => exact iff_of_true (fun _ _ => not_ends rfl) trivial
    | some result =>
      simp only [ends_pollReturn_iff hinv, not_exists, not_and, Considerate, remaining]
      exact ⟨fun h top htop poll hpoll => h poll hpoll top htop,
        fun h poll hpoll top htop => h top htop poll hpoll⟩
  | _ => exact iff_of_true (fun _ _ => not_ends rfl) trivial

lemma respectsPolls_of_considerate (hm : m.Valid) (hinv : m.NoReentry) (h : m.Considerate e) :
    m.RespectsPolls e := by
  refine ⟨polled_fresh_of_considerate hm hinv h, ?_⟩
  cases e with
  | runStep fired late => exact fun _ _ => not_ends rfl
  | _ => exact (remaining_iff_considerate hinv (by simp)).mpr h

/-- In runs whose tasks are considerate in their polls no future is polled within its own poll or
dropped while it is polled. The first cancellation or return that is not considerate drops one. -/
theorem noReentry_of_considerate (h : Reachable Considerate m) :
    m.NoReentry ∧ ∀ e m', Step m e m' → (∀ fired late, e ≠ .runStep fired late) →
      (m'.NoReentry ↔ m.Considerate e) := by
  have hinv : m.NoReentry := by
    refine h.invariant_of (J := Valid) (fun m h => valid_of_reachable h)
      ⟨List.nodup_nil, by simp [polls]⟩ ?_
    rintro m e m' hm _ hinv hok ⟨out, hstep⟩
    exact (noReentry_iff hm hinv hstep).mpr (respectsPolls_of_considerate hm hinv hok)
  refine ⟨hinv, ?_⟩
  rintro e m' ⟨out, hstep⟩ hne
  rw [noReentry_iff (valid_of_reachable h) hinv hstep, ← remaining_iff_considerate hinv hne]
  refine and_iff_right fun poll hpoll => ?_
  obtain ⟨fired, late, _, _, rfl, _⟩ := mem_polled hpoll
  exact absurd rfl (hne fired late)

/-- A parent runs the scheduler within its poll; its child is polled there, wakes the parent and
finishes. -/
theorem noReentry_of_nested_run :
    let m := exec {} [.spawn, .runStep [] [], .spawn, .run, .runStep [] [], .wake (some 0),
      .pollReturn (some (.ok { code := 0 })) []]
    m.polls = [(⟨0, 0⟩, 0)] ∧ m.NoReentry ∧ ∀ e m', Step m e m' →
      (∀ fired late, e ≠ .runStep fired late) → (m'.NoReentry ↔ m.Considerate e) := by
  refine ⟨by decide, noReentry_of_considerate (reach_exec _ _ ⟨trivial, ?_, trivial, trivial, ?_,
    trivial, ?_, trivial⟩)⟩
  · change ∀ poll ∈ polls _, _
    decide
  · change ∀ poll ∈ polls _, _
    decide
  · -- the child has no children
    rintro top htop poll hpoll hbelow
    obtain rfl : (⟨1, 0⟩, 1) = top := Option.some.inj htop
    obtain rfl : poll = (⟨0, 0⟩, 0) := List.mem_singleton.mp hpoll
    rcases Relation.ReflTransGen.cases_head hbelow with heq | ⟨c, ⟨t, ht, hc⟩, -⟩
    · cases heq
    · obtain rfl := Option.some.inj ht
      cases hc

/-- A future that wakes its own task and then runs the scheduler is polled within its poll. -/
theorem reentrant_poll : ¬ ∀ m, Reachable anyEvent m → m.NoReentry := by
  intro h
  have hrun := h _ (reachable_exec [.spawn, .runStep [] [], .wake (some 0), .run, .runStep [] []])
  exact absurd hrun.1 (by decide)

/-- A future that cancels its own task is dropped while it is polled. -/
example : ¬ (exec {} [.spawn, .runStep [] [], .cancelTask ⟨0, 0⟩]).NoReentry :=
  fun h => absurd h.2 (by decide)

end Machine

end AmlaSandbox.Scheduling
