import AmlaSandbox.Timer.Kinds
import AmlaSandbox.Timer.Sleep

/-!
# The slots of timers

An occupied slot is held by the heap entry of its timer or by its sleep. When a timer fires, its
entry leaves the heap and the slot is left to the sleep; if that is dropped before its next poll,
nothing frees the slot any more.
-/

namespace AmlaSandbox.Timer

open Async Library Host

namespace TimerStateInner

variable {Q : MinHeap TimerEntry TimerEntry.deadline} {willWake : Waker → Waker → Bool}
  {t t' : TimerStateInner Q} {sleeps sleeps' : List SleepFuture} {s s' : SleepFuture}
  {i id : Nat} {slot : TimerSlot} {o : Option TimerSlot} {entry : TimerEntry} {heap : Q.Heap}
  {waker : Waker}

/-- The slot is that of a timer which was cancelled after it had fired. -/
def Leaked (t : TimerStateInner Q) (id : Nat) : Prop :=
  ∃ slot, t.slot? id = some slot ∧ slot.fired = true ∧ slot.cancelled = true

/-- An entry of the heap or a live sleep refers to the slot. -/
def Held (t : TimerStateInner Q) (sleeps : List SleepFuture) (id : Nat) : Prop :=
  (∃ e ∈ Q.toList t.heap, e.id = id) ∨ ∃ s ∈ sleeps, s.Live ∧ s.id = id

/-- Every slot is empty, held or leaked. -/
structure Accounted (t : TimerStateInner Q) (sleeps : List SleepFuture) : Prop where
  consistent : t.Consistent (fun _ => True) sleeps
  held : ∀ id, (t.slot? id).isSome → t.Held sleeps id ∨ t.Leaked id

/-- After a step the slots are accounted for, and those that meet `P` have become leaked. -/
structure Leaks (P : Nat → Prop) (t t' : TimerStateInner Q) (sleeps' : List SleepFuture) :
    Prop where
  accounted : t'.Accounted sleeps'
  leaked : ∀ id, t'.Leaked id ↔ t.Leaked id ∨ P id

/-- One slot changes to `o`, and what held another one still does. -/
structure Touches (id : Nat) (o : Option TimerSlot) (t t' : TimerStateInner Q)
    (sleeps sleeps' : List SleepFuture) : Prop where
  lookup : ∀ id', t'.slot? id' = if id' = id then o else t.slot? id'
  held : ∀ id', id' ≠ id → t.Held sleeps id' → t'.Held sleeps' id'

/-! ### What refers to a slot -/

lemma Accounted.congr (h : t.Accounted sleeps) (hheap : t'.heap = t.heap)
    (hslots : t'.slots = t.slots) (hfree : t'.freeSlots = t.freeSlots) :
    t.Leaks (fun _ => False) t' sleeps := by
  have hlookup : ∀ id, t'.slot? id = t.slot? id := by
    intro id
    rw [slot?, slot?, hslots]
  refine ⟨⟨h.consistent.congr hheap hslots hfree, fun id hsome => ?_⟩, fun id => ?_⟩
  · rw [hlookup] at hsome
    rw [Held, Leaked, hheap, hlookup]
    exact h.held id hsome
  · rw [Leaked, hlookup, or_false, Leaked]

lemma Leaks.trans {t'' : TimerStateInner Q} {P : Nat → Prop}
    (h : t.Leaks (fun _ => False) t' sleeps) (h' : t'.Leaks P t'' sleeps') :
    t.Leaks P t'' sleeps' :=
  ⟨h'.accounted, fun id => by rw [h'.leaked, h.leaked, or_false]⟩

lemma Leaks.of_iff {P P' : Nat → Prop} (h : t.Leaks P t' sleeps') (hP : ∀ id, P id ↔ P' id) :
    t.Leaks P' t' sleeps' :=
  ⟨h.accounted, fun id => (h.leaked id).trans (or_congr_right (hP id))⟩

/-- No slot has become leaked after all. -/
lemma Leaks.none {P : Nat → Prop} (h : t.Leaks P t' sleeps') (hP : ∀ id, ¬ P id) :
    t.Leaks (fun _ => False) t' sleeps' :=
  h.of_iff fun id => iff_of_false (hP id) not_false

lemma Leaks.refl (h : t.Accounted sleeps) : t.Leaks (fun _ => False) t sleeps :=
  h.congr rfl rfl rfl

/-- Neither an entry of the heap nor a live sleep refers to a leaked slot. -/
lemma Consistent.not_held {R : TimeNanos → Prop} (h : t.Consistent R sleeps)
    (hleaked : t.Leaked id) : ¬ t.Held sleeps id := by
  obtain ⟨slot, hslot, hfired, hcancelled⟩ := hleaked
  rintro (⟨e, he, rfl⟩ | ⟨s, hs, hlive, rfl⟩)
  · obtain ⟨slot', hslot', hnot, _⟩ := h.entered e he
    obtain rfl := Option.some.inj (hslot.symm.trans hslot')
    simp [hfired] at hnot
  · obtain ⟨slot', hslot', hopen, _⟩ := h.owned s hs hlive
    obtain rfl := Option.some.inj (hslot.symm.trans hslot')
    simp [hcancelled] at hopen

/-- An occupied slot is leaked where nothing refers to it. -/
lemma Accounted.leaked_iff (h : t.Accounted sleeps) :
    t.Leaked id ↔ (t.slot? id).isSome ∧ ¬ t.Held sleeps id := by
  constructor
  · intro hleaked
    refine ⟨?_, h.consistent.not_held hleaked⟩
    obtain ⟨slot, hslot, _⟩ := hleaked
    rw [hslot, Option.isSome_some]
  · rintro ⟨hsome, hnot⟩
    exact (h.held _ hsome).resolve_left hnot

/-- The changed slot was not leaked, and is held afterwards unless it is leaked. -/
lemma Accounted.touch (h : t.Accounted sleeps) (htouch : Touches id o t t' sleeps sleeps')
    (hconsistent : t'.Consistent (fun _ => True) sleeps') (hbefore : ¬ t.Leaked id)
    (hafter : ∀ slot, o = some slot → ¬ (slot.fired = true ∧ slot.cancelled = true) →
      t'.Held sleeps' id) :
    t.Leaks (fun id' => id' = id ∧
      ∃ slot, o = some slot ∧ slot.fired = true ∧ slot.cancelled = true) t' sleeps' := by
  have hleaked : ∀ id', t'.Leaked id' ↔ t.Leaked id' ∨
      (id' = id ∧ ∃ slot, o = some slot ∧ slot.fired = true ∧ slot.cancelled = true) := by
    intro id'
    rw [Leaked, htouch.lookup]
    split_ifs with hid
    · subst hid
      simp only [hbefore, false_or, true_and]
    · simp only [hid, false_and, or_false]
      rfl
  refine ⟨⟨hconsistent, fun id' hsome => ?_⟩, hleaked⟩
  rw [htouch.lookup] at hsome
  split_ifs at hsome with hid
  · subst hid
    obtain ⟨slot, rfl⟩ := Option.isSome_iff_exists.mp hsome
    by_cases hlate : slot.fired = true ∧ slot.cancelled = true
    · exact .inr ((hleaked _).mpr (.inr ⟨rfl, slot, rfl, hlate⟩))
    · exact .inl (hafter slot rfl hlate)
  · rcases h.held id' hsome with hheld | hleaked'
    · exact .inl (htouch.held id' hid hheld)
    · exact .inr ((hleaked _).mpr (.inl hleaked'))

lemma Consistent.not_leaked {R : TimeNanos → Prop} (h : t.Consistent R sleeps) (hs : s ∈ sleeps)
    (hlive : s.Live) : ¬ t.Leaked s.id :=
  fun hleaked => h.not_held hleaked (.inr ⟨s, hs, hlive, rfl⟩)

/-- A sleep changes, and nothing but its own slot. -/
lemma Touches.set {t' : TimerStateInner Q} (hi : sleeps[i]? = some s)
    (hlookup : ∀ id', t'.slot? id' = if id' = s.id then o else t.slot? id')
    (hheap : t'.heap = t.heap) : Touches s.id o t t' sleeps (sleeps.set i s') where
  lookup := hlookup
  held := by
    rintro id' hne (hentry | ⟨s₀, hs₀, hlive₀, rfl⟩)
    · rw [← hheap] at hentry
      exact .inl hentry
    · have hother : s₀ ≠ s := fun heq => hne (congrArg SleepFuture.id heq)
      exact .inr ⟨s₀, mem_set_of_ne hi hs₀ hother, hlive₀, rfl⟩

/-! ### Polls and drops -/

/-- The slot of a live sleep changes along with the sleep. -/
lemma Accounted.modify {f : TimerSlot → TimerSlot} (h : t.Accounted sleeps)
    (hi : sleeps[i]? = some s) (hlive : s.Live)
    (hconsistent : (t.modifySlot s.id f).Consistent (fun _ => True) (sleeps.set i s'))
    (hslot : t.slot? s.id = some slot)
    (hheld : ¬ ((f slot).fired = true ∧ (f slot).cancelled = true) →
      (t.modifySlot s.id f).Held (sleeps.set i s') s.id) :
    t.Leaks (fun id => id = s.id ∧ (f slot).fired = true ∧ (f slot).cancelled = true)
      (t.modifySlot s.id f) (sleeps.set i s') := by
  have hnot := h.consistent.not_leaked (List.mem_of_getElem? hi) hlive
  have heq := modifySlot_eq (f := f) hslot
  have htouch : Touches s.id (some (f slot)) t (t.modifySlot s.id f) sleeps (sleeps.set i s') := by
    refine .set hi (slot?_set _ ?_ (lt_of_slot? hslot)) ?_
    · rw [heq]
    · rw [heq]
  have hleaks := h.touch htouch hconsistent hnot ?_
  · exact ⟨hleaks.accounted, fun id => by simp [hleaks.leaked]⟩
  · intro slot' hslot' hlate
    obtain rfl := Option.some.inj hslot'
    exact hheld hlate

/-- A poll leaves its waker. -/
lemma Accounted.registerWaker (h : t.Accounted sleeps) (hi : sleeps[i]? = some s)
    (hlive : s.Live) :
    t.Leaks (fun _ => False) (t.registerWaker s.id waker)
      (sleeps.set i { s with waker := some waker }) := by
  obtain ⟨slot, hslot, hopen, _⟩ := h.consistent.owned s (List.mem_of_getElem? hi) hlive
  have hmem : { s with waker := some waker } ∈ sleeps.set i { s with waker := some waker } :=
    List.mem_set (List.getElem?_eq_some_iff.mp hi).1 _
  refine (h.modify hi hlive (h.consistent.registerWaker hi hlive) hslot
    fun _ => .inr ⟨_, hmem, hlive, rfl⟩).none ?_
  rintro id ⟨_, _, hcancelled⟩
  simp [hopen] at hcancelled

/-- A sleep completes. -/
lemma Accounted.cleanup (h : t.Accounted sleeps) (hi : sleeps[i]? = some s) (hlive : s.Live)
    (hfired : t.isFired s.id = true) :
    t.Leaks (fun _ => False) (t.cleanup s.id) (sleeps.set i { s with registered := false }) := by
  have hs := List.mem_of_getElem? hi
  have hconsistent := h.consistent.cleanup hi hlive hfired
  obtain ⟨slot, hslot, _⟩ := h.consistent.owned s hs hlive
  have hlt := lt_of_slot? hslot
  rw [TimerStateInner.cleanup, if_pos hlt] at *
  refine (h.touch (Touches.set hi (slot?_set (t.freeSlot s.id) rfl hlt) rfl) hconsistent
    (h.consistent.not_leaked hs hlive) fun _ hnone => by cases hnone).none ?_
  rintro id ⟨_, slot', hnone, _⟩
  cases hnone

/-- The drop of a live sleep leaks its slot if the timer has fired. -/
lemma Accounted.cancel (h : t.Accounted sleeps) (hi : sleeps[i]? = some s) (hlive : s.Live) :
    t.Leaks (fun id => id = s.id ∧ t.isFired s.id = true) (t.cancel s.id)
      (sleeps.set i { s with dropped := true }) := by
  obtain ⟨slot, hslot, _, hwaiting, _⟩ := h.consistent.owned s (List.mem_of_getElem? hi) hlive
  have hleaks := h.modify hi hlive (h.consistent.cancel hi hlive) hslot ?_
  · refine hleaks.of_iff fun id => ?_
    rw [isFired_eq hslot]
    simp
  · -- before the timer fires, its entry is in the heap
    intro hlate
    have hnot : slot.fired = false := by simpa using hlate
    refine .inl ⟨s.entry, ?_, rfl⟩
    rw [(t.modifySlot_frame s.id _).1]
    exact (hwaiting hnot).1

lemma Accounted.drop_dead (h : t.Accounted sleeps) (hi : sleeps[i]? = some s)
    (hdead : ¬ s.Live) : t.Leaks (fun _ => False) t (sleeps.set i { s with dropped := true }) := by
  refine ⟨⟨h.consistent.drop_dead hi hdead, fun id hsome => (h.held id hsome).imp_left ?_⟩,
    fun id => (or_false _).symm ▸ Iff.rfl⟩
  rintro (hentry | ⟨s₀, hs₀, hlive₀, rfl⟩)
  · exact .inl hentry
  · have hother : s₀ ≠ s := fun heq => hdead (heq ▸ hlive₀)
    exact .inr ⟨s₀, mem_set_of_ne hi hs₀ hother, hlive₀, rfl⟩

/-! ### Registration and firing -/

/-- A new timer is in the heap. -/
lemma Accounted.enter (h : t.Accounted sleeps) (deadline : TimeNanos) :
    t.Leaks (fun _ => False) (t.enter deadline).2
      (sleeps ++ [{ deadline, id := (t.enter deadline).1 }]) := by
  obtain ⟨id, t', halloc, hnone, hlookup, _, _, _, hheap⟩ := h.consistent.allocateSlot
  have hconsistent := h.consistent.enter deadline
  rw [TimerStateInner.enter, halloc] at *
  have htouch : Touches id (some {}) t { t' with heap := Q.push ⟨deadline, id⟩ t'.heap } sleeps
      (sleeps ++ [{ deadline, id := id }]) := by
    refine ⟨hlookup, ?_⟩
    rintro id' _ (⟨e, he, rfl⟩ | ⟨s, hs, hlive, rfl⟩)
    · exact .inl ⟨e, MinHeap.mem_push.mpr (.inr (hheap ▸ he)), rfl⟩
    · exact .inr ⟨s, List.mem_append_left _ hs, hlive, rfl⟩
  refine (h.touch htouch hconsistent ?_ fun _ _ _ => ?_).none ?_
  · rintro ⟨slot, hslot, _⟩
    simp [hnone] at hslot
  · exact .inl ⟨⟨deadline, id⟩, MinHeap.mem_push.mpr (.inl rfl), rfl⟩
  · rintro _ ⟨_, slot, hslot, hfired, _⟩
    obtain rfl := Option.some.inj hslot
    cases hfired

/-- A timer fires into the slot of a live sleep, or its slot is emptied. -/
lemma Consistent.fire_slot {R : TimeNanos → Prop} (h : t.Consistent R sleeps)
    (hpop : Q.pop t.heap = some (entry, heap)) :
    ∃ o : Option TimerSlot, (∀ id, ({ t with heap }.fire entry.id).2.slot? id =
        if id = entry.id then o else t.slot? id) ∧
      ∀ slot, o = some slot → slot.cancelled = false ∧
        ∃ s ∈ sleeps, s.Live ∧ s.id = entry.id := by
  obtain ⟨slot, hslot, _, howner⟩ := h.entered entry ((MinHeap.mem_pop hpop).mpr (.inl rfl))
  have hlt := lt_of_slot? hslot
  have hslot' : { t with heap }.slot? entry.id = some slot := hslot
  cases hcancelled : slot.cancelled with
  | true =>
    refine ⟨none, ?_, fun slot hnone => by cases hnone⟩
    simp only [TimerStateInner.fire, hslot', hcancelled, if_true]
    exact slot?_set (t := t) _ rfl hlt
  | false =>
    obtain ⟨s, hs, hlive, rfl⟩ := howner hcancelled
    refine ⟨some { slot with fired := true, waker := none }, ?_, ?_⟩
    · simp only [TimerStateInner.fire, hslot', hcancelled, Bool.false_eq_true, if_false]
      exact slot?_set (t := t) _ rfl hlt
    · rintro _ ⟨⟩
      exact ⟨hcancelled, s, hs, hlive, rfl⟩

lemma Accounted.fire (h : t.Accounted sleeps) (hpop : Q.pop t.heap = some (entry, heap)) :
    t.Leaks (fun _ => False) ({ t with heap }.fire entry.id).2 sleeps := by
  have hconsistent := (h.consistent.fire hpop trivial).1
  have hentry := (MinHeap.mem_pop hpop).mpr (.inl rfl)
  obtain ⟨o, hlookup, ho⟩ := h.consistent.fire_slot hpop
  have htouch : Touches entry.id o t ({ t with heap }.fire entry.id).2 sleeps sleeps := by
    refine ⟨hlookup, ?_⟩
    rintro id hne (⟨e, he, rfl⟩ | hsleep)
    · have hrest := ((MinHeap.mem_pop hpop).mp he).resolve_left fun heq => hne (heq ▸ rfl)
      refine .inl ⟨e, ?_, rfl⟩
      rwa [(fire_frame _ _).1]
    · exact .inr hsleep
  refine (h.touch htouch hconsistent ?_ ?_).none ?_
  · exact fun hleaked => h.consistent.not_held hleaked (.inl ⟨entry, hentry, rfl⟩)
  · exact fun slot hslot _ => .inr (ho slot hslot).2
  · rintro id ⟨_, slot, hslot, _, hcancelled⟩
    simp [(ho slot hslot).1] at hcancelled

lemma Accounted.fireLoop (h : t.Accounted sleeps) (now : TimeNanos) (n : Nat)
    (wakers : List Waker) :
    t.Leaks (fun _ => False) (TimerStateInner.fireLoop now n wakers t).2 sleeps := by
  induction n generalizing t wakers with
  | zero => exact .refl h
  | succ n ih =>
    rw [TimerStateInner.fireLoop]
    split
    · exact .refl h
    · next hpop =>
      split_ifs
      · exact .refl h
      · have hfire := h.fire hpop
        exact hfire.trans (ih hfire.accounted _)

lemma Accounted.turn (h : t.Accounted sleeps) :
    t.Leaks (fun _ => False) (t.turn willWake waker).2 sleeps := by
  rw [TimerStateInner.turn]
  split
  · split
    · exact h.congr rfl rfl rfl
    · exact .refl h
  · next future _ =>
    generalize t.host.pollFuture willWake future waker = polled
    obtain ⟨result, host⟩ := polled
    have hhost : t.Leaks (fun _ => False) { t with host } sleeps := h.congr rfl rfl rfl
    cases result with
    | pending => exact hhost
    | ready result =>
      refine hhost.trans ?_
      cases result with
      | error => exact hhost.accounted.congr rfl rfl rfl
      | ok bytes =>
        have hloop := hhost.accounted.fireLoop (replyTime bytes) (Q.toList t.heap).length []
        exact hloop.trans (hloop.accounted.congr rfl rfl rfl)

lemma Accounted.process (h : t.Accounted sleeps) :
    t.Leaks (fun _ => False) (t.process willWake waker) sleeps :=
  process_induction (I := fun t' => t.Leaks (fun _ => False) t' sleeps)
    (fun _ ht => ht.trans ht.accounted.turn) (.refl h)

end TimerStateInner

/-! ### Runs -/

namespace Machine

variable {Q : MinHeap TimerEntry TimerEntry.deadline} {willWake : Waker → Waker → Bool}
  {maxPending : Nat} {m : Machine Q} {e : Event} {id : Nat}

/-- The event drops a sleep with this slot that has not completed, though its timer has fired. -/
def DropsFired (m : Machine Q) : Event → Nat → Prop
  | .drop i, id => ∃ s, m.sleeps[i]? = some s ∧ s.Live ∧ s.id = id ∧ m.timers.isFired id = true
  | _, _ => False

/-- Every event drops no sleep whose timer has fired, unless it has completed. -/
def InOrder (m : Machine Q) (e : Event) : Prop := ∀ id, ¬ m.DropsFired e id

/-- An entry of the heap or a sleep that was not dropped refers to each slot that is occupied. -/
def SlotsReferenced (m : Machine Q) : Prop :=
  ∀ id slot, m.timers.slot? id = some slot →
    (∃ e ∈ Q.toList m.timers.heap, e.id = id) ∨ ∃ s ∈ m.sleeps, s.dropped = false ∧ s.id = id

abbrev Accounted (m : Machine Q) : Prop := m.timers.Accounted m.sleeps

/-- Only the drop of a sleep whose timer has fired leaks a slot. -/
lemma Accounted.step (h : m.Accounted) :
    m.timers.Leaks (m.DropsFired e) (m.step willWake e).timers (m.step willWake e).sleeps := by
  cases e with
  | host e =>
    rw [Machine.step, TimerStateInner.hostStep]
    split_ifs
    · exact .refl h
    · exact h.congr rfl rfl rfl
  | sleepUntil deadline =>
    have henter := TimerStateInner.Accounted.enter h deadline
    rw [Machine.step, Machine.sleepUntil, TimerStateInner.register]
    dsimp only
    split_ifs
    · exact henter.trans (henter.accounted.congr rfl rfl rfl)
    · exact henter
  | poll i waker =>
    rw [Machine.step, pollSleep]
    split
    · exact .refl h
    · next s hi =>
      split_ifs with hlive hfired
      · exact h.cleanup hi hlive hfired
      · exact h.registerWaker hi hlive
      · exact .refl h
  | drop i =>
    rw [Machine.step, dropSleep]
    cases hi : m.sleeps[i]? with
    | none =>
      refine (TimerStateInner.Leaks.refl h).of_iff fun id => iff_of_false not_false ?_
      rintro ⟨s, hs, _⟩
      simp [hi] at hs
    | some s =>
      dsimp only
      split_ifs with hlive
      · refine (TimerStateInner.Accounted.cancel h hi hlive).of_iff fun id => ?_
        constructor
        · rintro ⟨rfl, hfired⟩
          exact ⟨s, hi, hlive, rfl, hfired⟩
        · rintro ⟨s', hs, _, rfl, hfired⟩
          obtain rfl := Option.some.inj (hi.symm.trans hs)
          exact ⟨rfl, hfired⟩
      · refine (TimerStateInner.Accounted.drop_dead h hi hlive).of_iff fun id => ?_
        refine iff_of_false not_false ?_
        rintro ⟨s', hs, hlive', _⟩
        obtain rfl := Option.some.inj (hi.symm.trans hs)
        exact hlive hlive'
  | process waker => exact TimerStateInner.Accounted.process h

lemma accounted_new (maxPending : Nat) : (new maxPending : Machine Q).Accounted := by
  refine ⟨⟨?_, List.nodup_nil, ?_, ?_, ?_, ?_, ?_⟩, fun id hsome => ?_⟩
  · simp [new, Q.toList_empty]
  · exact fun id hid => absurd hid List.not_mem_nil
  · intro e he
    simp [new, Q.toList_empty] at he
  · exact fun s hs => absurd hs List.not_mem_nil
  · exact fun i j s s' hs => by cases hs
  · exact fun s hs => absurd hs List.not_mem_nil
  · cases hsome

/-- An entry of the heap or a live sleep refers to each slot that is occupied. -/
def SlotsHeld (m : Machine Q) : Prop :=
  ∀ id, (m.timers.slot? id).isSome → m.timers.Held m.sleeps id

lemma Accounted.slotsHeld_iff (h : m.Accounted) : m.SlotsHeld ↔ ∀ id, ¬ m.timers.Leaked id := by
  constructor
  · intro hheld id hleaked
    obtain ⟨hsome, hnot⟩ := (TimerStateInner.Accounted.leaked_iff h).mp hleaked
    exact hnot (hheld id hsome)
  · intro hnone id hsome
    exact (h.held id hsome).resolve_right (hnone id)

/-- From a state in which every slot is held, the events in order are those that keep it so. -/
lemma Accounted.slotsHeld_step_iff (h : m.Accounted) (hheld : m.SlotsHeld) :
    (m.step willWake e).SlotsHeld ↔ m.InOrder e := by
  have hnone := h.slotsHeld_iff.mp hheld
  have hstep : m.timers.Leaks (m.DropsFired e) (m.step willWake e).timers
      (m.step willWake e).sleeps := h.step
  refine (slotsHeld_iff hstep.accounted).trans (forall_congr' fun id => not_congr ?_)
  rw [hstep.leaked, or_iff_right (hnone id)]

lemma SlotsHeld.referenced (h : m.SlotsHeld) : m.SlotsReferenced := by
  intro id slot hslot
  refine (h id (hslot ▸ rfl)).imp_right ?_
  rintro ⟨s, hs, hlive, rfl⟩
  exact ⟨s, hs, hlive.2, rfl⟩

/-- No slot is lost while no sleep is dropped between the firing of its timer and its next poll. -/
theorem slotsReferenced_of_inOrder (maxPending : Nat) (m : Machine Q)
    (h : Reachable willWake InOrder maxPending m) : m.SlotsReferenced := by
  have hheld : m.Accounted ∧ m.SlotsHeld := by
    refine h.invariant (I := fun m => m.Accounted ∧ m.SlotsHeld)
      ⟨accounted_new maxPending, fun id hsome => by cases hsome⟩ ?_
    rintro m e m' ⟨hm, hheld⟩ horder rfl
    exact ⟨hm.step.accounted, (hm.slotsHeld_step_iff hheld).mpr horder⟩
  exact hheld.2.referenced

/-- The first of three sleeps completes, the second is dropped early, the third fires. -/
def threeSleeps : List Event :=
  [.sleepUntil 100, .sleepUntil 200, .sleepUntil 50, .poll 0 7, .drop 1, .process 0, .host .take,
    .host (.call (.encode 1 0) (.complete (.ok [100, 0, 0, 0, 0, 0, 0, 0]))), .process 0, .poll 0 7,
    .drop 0]

theorem slotsReferenced_threeSleeps :
    (run Waker.willWake 1 threeSleeps : Machine listHeap).timers.slots.map Option.isSome =
        [false, true, true] ∧
      (run Waker.willWake 1 threeSleeps : Machine listHeap).SlotsReferenced := by
  refine ⟨by decide, slotsReferenced_of_inOrder 1 _ (reachable_run Waker.willWake ?_)⟩
  refine ⟨fun _ => id, fun _ => id, fun _ => id, fun _ => id, ?_, fun _ => id, fun _ => id,
    fun _ => id, fun _ => id, fun _ => id, ?_, trivial⟩
  · rintro id ⟨s, hs, _, rfl, hfired⟩
    obtain rfl : ⟨200, 1, true, false, none⟩ = s := Option.some.inj hs
    exact absurd hfired (by decide)
  · rintro id ⟨s, hs, hlive, _⟩
    obtain rfl : ⟨100, 0, false, false, some 7⟩ = s := Option.some.inj hs
    exact absurd hlive (by decide)

/-- A sleep whose timer fires is dropped before its next poll. -/
def lateDrop : List Event :=
  [.sleepUntil 100, .poll 0 7, .process 0, .host .take,
    .host (.call (.encode 1 0) (.complete (.ok [100, 0, 0, 0, 0, 0, 0, 0]))), .process 0, .drop 0]

theorem not_slotsReferenced_lateDrop :
    ¬ ∀ maxPending (m : Machine listHeap),
      Reachable Waker.willWake (fun _ _ => True) maxPending m → m.SlotsReferenced := by
  intro hall
  have hreach : Reachable Waker.willWake (fun _ _ => True) 1
      (run Waker.willWake 1 lateDrop : Machine listHeap) := by
    apply reachable_run
    exact ⟨trivial, trivial, trivial, trivial, trivial, trivial, trivial, trivial⟩
  rcases hall 1 _ hreach 0 { fired := true, cancelled := true } (by decide) with hentry | hsleep
  · exact absurd hentry (by decide)
  · exact absurd hsleep (by decide)

end Machine

end AmlaSandbox.Timer
