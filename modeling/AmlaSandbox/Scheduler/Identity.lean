import AmlaSandbox.Scheduler.Invariant

/-!
# Results go to their own handles

A result is written into the completion slot of whatever task is in the slot when the poll returns.
Unlike cancellation, completion does not compare generations, so the result is the right one as long
as no other task has moved into the slot during the poll.
-/

namespace AmlaSandbox.Scheduling

open Library Scheduler

variable {m m' : Machine} {e : Event} {out : Option Output} {s : Scheduler} {k future : Nat}
  {id root : TaskId} {result : TaskResult} {late : List Nat}

namespace Machine

/-- When a polled future returns a result, its slot is empty or still has the generation it had when
the poll began. -/
def FinishesPolled (m : Machine) (e : Event) : Prop :=
  ∀ result late poll, e = .pollReturn (some result) late → m.top? = some poll →
    (m.sched.task? poll.1.slot).isSome → m.sched.keyAt poll.1.slot = poll.1

/-- Every result that waits in a completion slot is the output of that spawn's own future, or the
cancellation error. -/
def OwnResults (m : Machine) : Prop :=
  ∀ k slot r, m.sched.slot? k = some slot → slot.result = some r →
    r = cancelled ∨ (k, r) ∈ m.outputs

/-- A handle resolves with the output of its own future or with the cancellation error. A handle
whose result was taken before answers that it was. -/
def ResolvesOwn (m : Machine) : Prop :=
  ∀ e m' k r, m.step e = some (m', some (.resolved k r)) →
    r = cancelled ∨ (k, r) ∈ m.outputs ∨
      r = alreadyTaken ∧ ∃ slot, m.sched.slot? k = some slot ∧ slot.resultTaken

/-- The return of a polled future with a result removes and resolves no task but the one of the
polled id and its descendants. -/
def FinishLeavesOthers (m : Machine) : Prop :=
  ∀ result late m' out id future, m.FinishesPolled (.pollReturn (some result) late) →
    m.step (.pollReturn (some result) late) = some (m', out) → m.top? = some (id, future) →
    ∀ i t, m.sched.task? i = some t → ¬ m.sched.Below id (m.sched.keyAt i) →
      (∃ children, m'.sched.task? i = some { t with children }) ∧
        m'.sched.slot? t.slot = m.sched.slot? t.slot

/-- The task in the table for a polled id is the one whose future is polled. -/
lemma slot_of_finishesPolled {t : Task} (hm : m.Valid)
    (hok : m.FinishesPolled (.pollReturn (some result) late)) (htop : m.top? = some (id, future))
    (ht : m.sched.task? id.slot = some t) : t.slot = future := by
  have hkey := hok _ _ _ rfl htop (Option.isSome_of_eq_some ht)
  exact hm.sched.slot_eq (lookup_eq_some.mpr ⟨ht, hkey.symm⟩) (hm.polls _ (top?_mem_polls htop))

lemma result_cancel {slot : TaskSlot} {r : TaskResult} (h : slot.cancel.result = some r) :
    slot.result = some r ∨ r = cancelled := by
  cases hresult : slot.result with
  | none =>
    rw [TaskSlot.cancel, hresult] at h
    exact .inr (Option.some.inj h).symm
  | some r' =>
    rw [TaskSlot.cancel, hresult] at h
    exact .inl h

/-- The results that can be in the completion slots after a task has ended. -/
lemma result_of_ended {mark : TaskSlot → TaskSlot} {slot' : TaskSlot} {r : TaskResult}
    (h : m.sched.Ended mark root s) (hslot : s.slot? k = some slot') (hr : slot'.result = some r) :
    (∃ slot, m.sched.slot? k = some slot ∧ slot.result = some r) ∨ r = cancelled ∨
      ∃ i t slot, m.sched.task? i = some t ∧ t.slot = k ∧ m.sched.keyAt i = root ∧
        m.sched.slot? k = some slot ∧ slot' = mark slot := by
  rcases h.slot k with hk | ⟨i, t, ht, htk, _, hk | ⟨hroot, hk⟩⟩
  · exact .inl ⟨slot', hk ▸ hslot, hr⟩
  · rw [hk] at hslot
    obtain ⟨slot, hold, rfl⟩ := Option.map_eq_some_iff.mp hslot
    rcases result_cancel hr with hr | rfl
    · exact .inl ⟨slot, hold, hr⟩
    · exact .inr (.inl rfl)
  · rw [hk] at hslot
    obtain ⟨slot, hold, rfl⟩ := Option.map_eq_some_iff.mp hslot
    exact .inr (.inr ⟨i, t, slot, ht, htk, hroot, hold, rfl⟩)

/-- The results in the completion slots after an event come from before it, from a cancellation, or
from the future that returned. -/
lemma result_of_effect {slot' : TaskSlot} {r : TaskResult} (hm : m.Valid) (hok : m.FinishesPolled e)
    (h : Effect m e s) (hslot : s.slot? k = some slot') (hr : slot'.result = some r) :
    (∃ slot, m.sched.slot? k = some slot ∧ slot.result = some r) ∨ r = cancelled ∨
      (k, r) ∈ m.produced e := by
  cases h with
  | quiet _ _ hsame => exact .inl ⟨slot', hsame.slot? ▸ hslot, hr⟩
  | spawn =>
    rw [slot?_spawn] at hslot
    split_ifs at hslot
    · obtain rfl := Option.some.inj hslot
      cases hr
    · exact .inl ⟨slot', hslot, hr⟩
  | handle _ _ _ hhandled => exact .inl (hhandled.result k slot' r hslot hr)
  | insert hsame =>
    have hmap : (m.sched.slot? k).map (·.result) = some (some r) := by
      rw [← result_prepared hm.sched, ← hsame.slot?, hslot, ← hr]
      rfl
    exact .inl (Option.map_eq_some_iff.mp hmap)
  | cancel _ hended =>
    rcases result_of_ended hended hslot hr with hold | hcancel | ⟨_, _, slot, _, _, _, hold, rfl⟩
    · exact .inl hold
    · exact .inr (.inl hcancel)
    · exact (result_cancel hr).imp (fun hr => ⟨slot, hold, hr⟩) .inl
  | finish htop _ hended =>
    rcases result_of_ended hended hslot hr with hold | hcancel | ⟨i, t, slot, ht, rfl, hkey, _, rfl⟩
    · exact .inl hold
    · exact .inr (.inl hcancel)
    · obtain rfl : i = _ := congrArg Key.slot hkey
      obtain rfl := Option.some.inj hr
      rw [slot_of_finishesPolled hm hok htop ht]
      exact .inr (.inr (by simp [produced, htop]))

lemma ownResults_of_step (hm : m.Valid) (hown : m.OwnResults) (hok : m.FinishesPolled e)
    (h : m.step e = some (m', out)) : m'.OwnResults := by
  intro k slot' r hslot hr
  rw [outputs_of_step h, List.mem_append]
  rcases result_of_effect hm hok (effect_of_step h) hslot hr with ⟨slot, hslot, hr⟩ | hcancel | hnew
  · exact (hown k slot r hslot hr).imp_right .inl
  · exact .inl hcancel
  · exact .inr (.inr hnew)

/-! ### What a handle resolves with -/

lemma pollHandle_eq_some {waker : Waker} {r : TaskResult}
    (h : (s.pollHandle k waker).1 = some r) :
    ∃ slot, s.slot? k = some slot ∧
      (r = alreadyTaken ∧ slot.resultTaken ∨ slot.result = some r) := by
  simp only [pollHandle] at h
  split at h
  · cases h
  · rename_i slot hslot
    split_ifs at h with htaken
    · exact ⟨slot, hslot, .inl ⟨(Option.some.inj h).symm, htaken⟩⟩
    · split at h
      · rename_i hresult
        exact ⟨slot, hslot, .inr (hresult.trans h)⟩
      · cases h

lemma tryGet_eq_some {r : TaskResult} (h : (s.tryGet k).1 = some r) :
    ∃ slot, s.slot? k = some slot ∧ slot.result = some r := by
  simp only [tryGet] at h
  split at h
  · rename_i hresult
    exact Option.bind_eq_some_iff.mp (hresult.trans h)
  · cases h

lemma returnState_ne_resolved {state : SchedulerState} {r : TaskResult} :
    (m.returnState state).2 ≠ some (.resolved k r) := by
  simp only [returnState]
  split
  · split_ifs <;> simp
  · simp

lemma resolved_of_step {r : TaskResult} (h : m.step e = some (m', some (.resolved k r))) :
    ∃ slot, m.sched.slot? k = some slot ∧
      (r = alreadyTaken ∧ slot.resultTaken ∨ slot.result = some r) := by
  cases e with
  | pollHandle handle waker =>
    obtain ⟨r', hr', hout⟩ := Option.map_eq_some_iff.mp (Prod.mk.inj (call_eq_some h)).2
    cases hout
    exact pollHandle_eq_some hr'
  | tryGet handle =>
    obtain ⟨r', hr', hout⟩ := Option.map_eq_some_iff.mp (Prod.mk.inj (call_eq_some h)).2
    cases hout
    obtain ⟨slot, hslot, hresult⟩ := tryGet_eq_some hr'
    exact ⟨slot, hslot, .inr hresult⟩
  | runStep fired late =>
    obtain ⟨_, hout⟩ := runStep_of_step h
    unfold runStep at hout
    dsimp only at hout
    split at hout
    · cases hout
    · exact absurd hout returnState_ne_resolved
  | pollReturn result late =>
    obtain ⟨_, _, _, _, _, hout⟩ := pollReturn_of_step h
    exact absurd hout returnState_ne_resolved
  | _ => cases (Prod.mk.inj (call_eq_some h)).2

/-! ### What completion leaves alone -/

lemma finishLeavesOthers_of_valid (hm : m.Valid) : m.FinishLeavesOthers := by
  intro result late m' out id future hok h htop i t ht hbelow
  have heffect := effect_of_step h
  generalize m'.sched = s at heffect ⊢
  cases heffect with
  | quiet _ _ hsame => exact ⟨⟨t.children, hsame.task?.trans ht⟩, hsame.slot?⟩
  | handle _ _ hne _ => exact absurd rfl (hne _ _)
  | @finish _ id' _ _ _ htop' hending hended =>
    obtain rfl : id' = id := congrArg Prod.fst (Option.some.inj (htop'.symm.trans htop))
    have hsome : (m.sched.task? id'.slot).isSome := by
      by_contra hnone
      simp [ending, htop, Option.not_isSome_iff_eq_none.mp hnone] at hending
    have hkey : m.sched.keyAt id'.slot = id' := hok _ _ _ rfl htop hsome
    rw [← hkey] at hbelow
    obtain ⟨children, hentry, _⟩ := hended.survivor i t ht hbelow
    refine ⟨⟨children, hentry⟩, ?_⟩
    rcases hended.slot t.slot with hslot | ⟨j, u, hu, huk, hjbelow, _⟩
    · exact hslot
    · -- the completion slot belongs to one task only
      have hj := hm.sched.occupant j u hu
      have hij : m.sched.keyAt j = m.sched.keyAt i := by
        rw [huk, hm.sched.occupant i t ht] at hj
        exact (Option.some.inj hj).symm
      exact absurd (hij ▸ hjbelow) hbelow

/-! ### All runs -/

/-- As long as no poll returns a result into a slot that another task has taken over, every handle
resolves with what its own future returned or with the cancellation error, and completing a task
neither removes nor resolves any other but its descendants. -/
theorem ownResults_of_finishesPolled (h : Reachable FinishesPolled m) :
    m.OwnResults ∧ m.ResolvesOwn ∧ m.FinishLeavesOthers := by
  have hm := valid_of_reachable h
  have hown : m.OwnResults := by
    refine h.invariant_of (J := Valid) (I := OwnResults) (fun m h => valid_of_reachable h)
      (fun k slot r hslot => by simp [slot?] at hslot) ?_
    rintro m e m' hm _ hown hok ⟨out, hstep⟩
    exact ownResults_of_step hm hown hok hstep
  refine ⟨hown, ?_, finishLeavesOthers_of_valid hm⟩
  intro e m' k r hstep
  obtain ⟨slot, hslot, ⟨hr, htaken⟩ | hresult⟩ := resolved_of_step hstep
  · exact .inr (.inr ⟨hr, slot, hslot, htaken⟩)
  · exact (hown k slot r hslot hresult).imp_right .inl

/-- A task finishes while another one is still to be polled. -/
theorem ownResults_two_tasks : ∃ m : Machine, m.outputs = [(0, .ok ⟨3, {}⟩)] ∧
    m.OwnResults ∧ m.ResolvesOwn ∧ m.FinishLeavesOthers := by
  refine ⟨exec {} [.spawn, .spawn, .runStep [] [], .pollReturn (some (.ok ⟨3, {}⟩)) [],
    .runStep [] []], by decide,
    ownResults_of_finishesPolled (reach_exec _ _ ⟨?_, ?_, ?_, ?_, ?_, trivial⟩)⟩
  · intro _ _ _ he
    cases he
  · intro _ _ _ he
    cases he
  · intro _ _ _ he
    cases he
  · intro _ _ poll _ htop _
    obtain rfl := Option.some.inj htop
    rfl
  · intro _ _ _ he
    cases he

/-- A task cancels itself and spawns another, which takes over its slot in a nested run. When the
poll of the first returns, the handle of the second gets its result. -/
theorem result_of_other_task : ¬ ∀ m, Reachable anyEvent m → m.OwnResults := by
  intro h
  have hown := h _ (reachable_exec [.spawn, .runStep [] [], .cancelTask ⟨0, 0⟩, .spawn, .run,
    .runStep [] [], .pollReturn none [], .runStep [] [], .pollReturn (some (.ok ⟨3, {}⟩)) []])
    1 _ (.ok ⟨3, {}⟩) rfl rfl
  exact absurd hown (by decide)

end Machine

end AmlaSandbox.Scheduling
