import AmlaSandbox.Timer.Basic

/-!
# The timer table

Every sleep that is live has a slot of its own, and stands in the heap until it fires; the slot of
any other timer in the heap is cancelled.
-/

namespace AmlaSandbox.Timer

open Async Library Host

/-- The heap entry of a sleep. -/
def SleepFuture.entry (s : SleepFuture) : TimerEntry := ⟨s.deadline, s.id⟩

namespace TimerStateInner

variable {Q : MinHeap TimerEntry TimerEntry.deadline} {t t' : TimerStateInner Q}
  {sleeps : List SleepFuture} {s s' : SleepFuture} {R R' : TimeNanos → Prop} {i id id' : Nat}
  {slot : TimerSlot} {f : TimerSlot → TimerSlot} {o : Option TimerSlot} {e : TimerEntry}
  {heap : Q.Heap} {now deadline : TimeNanos} {waker : Waker}

/-! ### Slots -/

lemma slot?_eq_some : t.slot? id = some slot ↔ t.slots[id]? = some (some slot) :=
  Option.join_eq_some_iff

lemma lt_of_slot? (h : t.slot? id = some slot) : id < t.slots.length :=
  (List.getElem?_eq_some_iff.mp (slot?_eq_some.mp h)).1

/-- A slot that is put in place of another. -/
lemma slot?_set (t' : TimerStateInner Q) (hslots : t'.slots = t.slots.set id o)
    (hlt : id < t.slots.length) (id' : Nat) :
    t'.slot? id' = if id' = id then o else t.slot? id' := by
  rw [slot?, slot?, hslots]
  split_ifs with heq
  · rw [heq, List.getElem?_set_self hlt, Option.join_some]
  · rw [List.getElem?_set_ne (Ne.symm heq)]

lemma slot?_append (hslots : t'.slots = t.slots ++ [o]) (id' : Nat) :
    t'.slot? id' = if id' = t.slots.length then o else t.slot? id' := by
  rw [slot?, slot?, hslots]
  split_ifs with heq
  · rw [heq, List.getElem?_concat_length, Option.join_some]
  · rcases Nat.lt_or_gt_of_ne heq with hlt | hgt
    · rw [List.getElem?_append_left hlt]
    · rw [List.getElem?_eq_none (by simp; omega), List.getElem?_eq_none (by omega)]

lemma modifySlot_eq (h : t.slot? id = some slot) :
    t.modifySlot id f = { t with slots := t.slots.set id (some (f slot)) } := by
  rw [modifySlot, h]

lemma isFired_eq (h : t.slot? id = some slot) : t.isFired id = slot.fired := by
  rw [isFired, h, Option.any_some]

/-! ### The invariant -/

/-- An entry of the heap: its timer has not fired, and is that of a live sleep unless it was
cancelled. -/
def Entered (t : TimerStateInner Q) (sleeps : List SleepFuture) (e : TimerEntry) : Prop :=
  ∃ slot, t.slot? e.id = some slot ∧ slot.fired = false ∧
    (slot.cancelled = false → ∃ s ∈ sleeps, s.Live ∧ s.entry = e)

/-- The slot of a live sleep: its timer is in the heap, with the waker of the last poll, or has
fired, which needs what `R` says of the deadline. -/
def Owned (R : TimeNanos → Prop) (t : TimerStateInner Q) (s : SleepFuture) : Prop :=
  ∃ slot, t.slot? s.id = some slot ∧ slot.cancelled = false ∧
    (slot.fired = false → s.entry ∈ Q.toList t.heap ∧ slot.waker = s.waker) ∧
    (slot.fired = true → R s.deadline)

structure Consistent (R : TimeNanos → Prop) (t : TimerStateInner Q) (sleeps : List SleepFuture) :
    Prop where
  heap_nodup : ((Q.toList t.heap).map TimerEntry.id).Nodup
  free_nodup : t.freeSlots.Nodup
  free_empty : ∀ id ∈ t.freeSlots, id < t.slots.length ∧ t.slot? id = none
  entered : ∀ e ∈ Q.toList t.heap, t.Entered sleeps e
  owned : ∀ s ∈ sleeps, s.Live → t.Owned R s
  distinct : ∀ (i j : Nat) (s s' : SleepFuture), sleeps[i]? = some s → sleeps[j]? = some s' →
    s.Live → s'.Live → s.id = s'.id → i = j
  completed : ∀ s ∈ sleeps, s.registered = false → R s.deadline

lemma Owned.mono (h : t.Owned R s) (himp : ∀ d, R d → R' d) : t.Owned R' s := by
  obtain ⟨slot, hslot, hcancelled, hwaiting, hfired⟩ := h
  exact ⟨slot, hslot, hcancelled, hwaiting, fun htrue => himp _ (hfired htrue)⟩

lemma Consistent.mono (h : t.Consistent R sleeps) (himp : ∀ d, R d → R' d) :
    t.Consistent R' sleeps :=
  { h with
    owned := fun s hs hlive => (h.owned s hs hlive).mono himp
    completed := fun s hs hdone => himp _ (h.completed s hs hdone) }

/-- The state of `WakeAt` and of the host does not matter. -/
lemma Consistent.congr (h : t.Consistent R sleeps) (hheap : t'.heap = t.heap)
    (hslots : t'.slots = t.slots) (hfree : t'.freeSlots = t.freeSlots) :
    t'.Consistent R sleeps := by
  obtain ⟨heap, slots, freeSlots, _, _, _⟩ := t
  obtain ⟨heap', slots', freeSlots', _, _, _⟩ := t'
  obtain rfl : heap' = heap := hheap
  obtain rfl : slots' = slots := hslots
  obtain rfl : freeSlots' = freeSlots := hfree
  exact ⟨h.heap_nodup, h.free_nodup, h.free_empty, h.entered, h.owned, h.distinct, h.completed⟩

/-- A live sleep is the only one with its id. -/
lemma Consistent.eq_of_id (h : t.Consistent R sleeps) (hs : s ∈ sleeps) (hs' : s' ∈ sleeps)
    (hlive : s.Live) (hlive' : s'.Live) (hid : s.id = s'.id) : s = s' := by
  obtain ⟨i, hi⟩ := List.getElem?_of_mem hs
  obtain ⟨j, hj⟩ := List.getElem?_of_mem hs'
  obtain rfl := h.distinct i j s s' hi hj hlive hlive' hid
  exact Option.some.inj (hi.symm.trans hj)

/-! ### Polls and drops -/

/-- Every other sleep stays when one is replaced. -/
lemma mem_set_of_ne {s₀ : SleepFuture} (hi : sleeps[i]? = some s) (hs₀ : s₀ ∈ sleeps)
    (hne : s₀ ≠ s) : s₀ ∈ sleeps.set i s' := by
  obtain ⟨j, hj⟩ := List.getElem?_of_mem hs₀
  have hij : i ≠ j := by
    rintro rfl
    exact hne (Option.some.inj (hj.symm.trans hi))
  exact List.mem_of_getElem? ((List.getElem?_set_ne hij).trans hj)

/-- One sleep changes, together with its slot and its entries. -/
lemma Consistent.set (h : t.Consistent R sleeps) (hi : sleeps[i]? = some s) (hlive : s.Live)
    (hid : s'.id = s.id) (hheap : t'.heap = t.heap)
    (hslots : ∀ id, id ≠ s.id → t'.slot? id = t.slot? id) (hfree_nodup : t'.freeSlots.Nodup)
    (hfree : ∀ id ∈ t'.freeSlots, id < t'.slots.length ∧ t'.slot? id = none)
    (hentered : ∀ e ∈ Q.toList t.heap, e.id = s.id → ∃ slot, t'.slot? e.id = some slot ∧
      slot.fired = false ∧ (slot.cancelled = false → s'.Live ∧ s'.entry = e))
    (howned : s'.Live → t'.Owned R s') (hcompleted : s'.registered = false → R s'.deadline) :
    t'.Consistent R (sleeps.set i s') := by
  have hcases : ∀ {j s₀}, (sleeps.set i s')[j]? = some s₀ →
      (j = i ∧ s₀ = s') ∨ (j ≠ i ∧ sleeps[j]? = some s₀) := by
    intro j s₀ hj
    rw [List.getElem?_set] at hj
    split_ifs at hj with hij hlt
    · exact .inl ⟨hij.symm, (Option.some.inj hj).symm⟩
    · exact .inr ⟨Ne.symm hij, hj⟩
  have hmem : s' ∈ sleeps.set i s' := by
    apply List.mem_iff_getElem?.mpr
    exact ⟨i, List.getElem?_set_self (List.getElem?_eq_some_iff.mp hi).1⟩
  refine ⟨hheap ▸ h.heap_nodup, hfree_nodup, hfree, ?_, ?_, ?_, ?_⟩
  · intro e he
    rw [hheap] at he
    by_cases heid : e.id = s.id
    · obtain ⟨slot, hslot, hfired, howner⟩ := hentered e he heid
      exact ⟨slot, hslot, hfired, fun hcancelled => ⟨s', hmem, howner hcancelled⟩⟩
    · obtain ⟨slot, hslot, hfired, howner⟩ := h.entered e he
      refine ⟨slot, (hslots _ heid).trans hslot, hfired, fun hcancelled => ?_⟩
      obtain ⟨s₀, hs₀, hlive₀, rfl⟩ := howner hcancelled
      have hne : s₀ ≠ s := fun heq => heid (congrArg SleepFuture.id heq)
      exact ⟨s₀, mem_set_of_ne hi hs₀ hne, hlive₀, rfl⟩
  · intro s₀ hs₀ hlive₀
    obtain ⟨j, hj⟩ := List.getElem?_of_mem hs₀
    rcases hcases hj with ⟨rfl, rfl⟩ | ⟨hne, hj⟩
    · exact howned hlive₀
    · have hne' : s₀.id ≠ s.id := fun heq => hne (h.distinct j i s₀ s hj hi hlive₀ hlive heq)
      obtain ⟨slot, hslot, hrest⟩ := h.owned s₀ (List.mem_of_getElem? hj) hlive₀
      rw [← hslots _ hne'] at hslot
      exact ⟨slot, hslot, hheap ▸ hrest⟩
  · intro j k s₁ s₂ hj hk hlive₁ hlive₂ heq
    rcases hcases hj with ⟨rfl, rfl⟩ | ⟨_, hj'⟩ <;> rcases hcases hk with ⟨rfl, rfl⟩ | ⟨_, hk'⟩
    · rfl
    · exact h.distinct j k s s₂ hi hk' hlive hlive₂ (hid.symm.trans heq)
    · exact h.distinct j k s₁ s hj' hi hlive₁ hlive (heq.trans hid)
    · exact h.distinct j k s₁ s₂ hj' hk' hlive₁ hlive₂ heq
  · intro s₀ hs₀ hdone
    obtain ⟨j, hj⟩ := List.getElem?_of_mem hs₀
    rcases hcases hj with ⟨rfl, rfl⟩ | ⟨_, hj⟩
    · exact hcompleted hdone
    · exact h.completed s₀ (List.mem_of_getElem? hj) hdone

/-- A slot that is in use is not free. -/
lemma Consistent.not_mem_freeSlots (h : t.Consistent R sleeps) (hslot : t.slot? id = some slot) :
    id ∉ t.freeSlots := by
  intro hmem
  rw [(h.free_empty id hmem).2] at hslot
  cases hslot

/-- The free slots remain empty where one in use is set. -/
lemma Consistent.free_empty_set (h : t.Consistent R sleeps) (hslot : t.slot? id = some slot)
    (hlen : t'.slots.length = t.slots.length)
    (hlookup : ∀ id', t'.slot? id' = if id' = id then o else t.slot? id') :
    ∀ id' ∈ t.freeSlots, id' < t'.slots.length ∧ t'.slot? id' = none := by
  intro id' hmem
  obtain ⟨hlt, hempty⟩ := h.free_empty id' hmem
  refine ⟨hlen ▸ hlt, ?_⟩
  rw [hlookup, if_neg, hempty]
  rintro rfl
  exact h.not_mem_freeSlots hslot hmem

/-- One in use is freed. -/
lemma Consistent.free_empty_cons (h : t.Consistent R sleeps) (hslot : t.slot? id = some slot)
    (hlen : t'.slots.length = t.slots.length)
    (hlookup : ∀ id', t'.slot? id' = if id' = id then none else t.slot? id') :
    ∀ id' ∈ id :: t.freeSlots, id' < t'.slots.length ∧ t'.slot? id' = none := by
  intro id' hmem
  rcases List.mem_cons.mp hmem with rfl | hmem
  · refine ⟨hlen ▸ lt_of_slot? hslot, ?_⟩
    rw [hlookup, if_pos rfl]
  · exact h.free_empty_set hslot hlen hlookup id' hmem

/-- A slot changes but does not fire, and remains that of a live sleep if it is not cancelled. -/
lemma Consistent.modify (h : t.Consistent R sleeps) (hi : sleeps[i]? = some s) (hlive : s.Live)
    (hid : s'.id = s.id) (hdeadline : s'.deadline = s.deadline)
    (hregistered : s'.registered = s.registered) (hfired : ∀ slot, (f slot).fired = slot.fired)
    (hcancelled : ∀ slot, (f slot).cancelled = false → s'.Live)
    (hlive' : s'.Live → ∀ slot, (f slot).cancelled = slot.cancelled ∧ (f slot).waker = s'.waker) :
    (t.modifySlot s.id f).Consistent R (sleeps.set i s') := by
  have hs := List.mem_of_getElem? hi
  obtain ⟨slot, hslot, hopen, hwaiting, hdone⟩ := h.owned s hs hlive
  have hlt := lt_of_slot? hslot
  rw [modifySlot_eq hslot]
  have hlookup := slot?_set (t := t)
    { t with slots := t.slots.set s.id (some (f slot)) } rfl hlt
  refine h.set hi hlive hid rfl ?_ h.free_nodup ?_ ?_ ?_ ?_
  · intro id hne
    rw [hlookup, if_neg hne]
  · exact h.free_empty_set hslot List.length_set hlookup
  · intro e he heid
    obtain ⟨slot', hslot', hfired', howner⟩ := h.entered e he
    rw [heid, hslot] at hslot'
    cases hslot'
    obtain ⟨s₀, hs₀, hlive₀, rfl⟩ := howner hopen
    obtain rfl := h.eq_of_id hs₀ hs hlive₀ hlive heid
    refine ⟨f slot, by rw [hlookup, if_pos heid], (hfired slot).trans hfired', fun hnot => ?_⟩
    refine ⟨hcancelled slot hnot, ?_⟩
    rw [SleepFuture.entry, hid, hdeadline, SleepFuture.entry]
  · intro halive
    obtain ⟨hcancel, hwaker⟩ := hlive' halive slot
    refine ⟨f slot, by rw [hlookup, if_pos hid], hcancel.trans hopen, fun hnot => ?_, ?_⟩
    · rw [hfired] at hnot
      refine ⟨?_, hwaker⟩
      rw [SleepFuture.entry, hid, hdeadline]
      exact (hwaiting hnot).1
    · rw [hfired, hdeadline]
      exact hdone
  · rw [hregistered, hdeadline]
    exact h.completed s hs

/-- A sleep is dropped. -/
lemma Consistent.cancel (h : t.Consistent R sleeps) (hi : sleeps[i]? = some s) (hlive : s.Live) :
    (t.cancel s.id).Consistent R (sleeps.set i { s with dropped := true }) := by
  refine h.modify hi hlive rfl rfl rfl (fun _ => rfl) (fun _ hnot => ?_) fun hlive' => ?_
  · cases hnot
  · cases hlive'.2

/-- A poll leaves its waker. -/
lemma Consistent.registerWaker (h : t.Consistent R sleeps) (hi : sleeps[i]? = some s)
    (hlive : s.Live) :
    (t.registerWaker s.id waker).Consistent R (sleeps.set i { s with waker := some waker }) :=
  h.modify hi hlive rfl rfl rfl (fun _ => rfl) (fun _ _ => hlive) fun _ _ => ⟨rfl, rfl⟩

/-- A sleep completes. -/
lemma Consistent.cleanup (h : t.Consistent R sleeps) (hi : sleeps[i]? = some s) (hlive : s.Live)
    (hfired : t.isFired s.id = true) :
    (t.cleanup s.id).Consistent R (sleeps.set i { s with registered := false }) := by
  obtain ⟨slot, hslot, _, _, hdone⟩ := h.owned s (List.mem_of_getElem? hi) hlive
  rw [isFired_eq hslot] at hfired
  have hlt := lt_of_slot? hslot
  rw [TimerStateInner.cleanup, if_pos hlt]
  have hlookup := slot?_set (t.freeSlot s.id) rfl hlt
  have hnotfree := h.not_mem_freeSlots hslot
  refine h.set hi hlive rfl rfl ?_ (List.nodup_cons.mpr ⟨hnotfree, h.free_nodup⟩) ?_ ?_ ?_ ?_
  · intro id hne
    rw [hlookup, if_neg hne]
  · exact h.free_empty_cons hslot List.length_set hlookup
  · intro e he heid
    obtain ⟨slot', hslot', hnot, _⟩ := h.entered e he
    rw [heid, hslot] at hslot'
    cases hslot'
    rw [hfired] at hnot
    cases hnot
  · intro hlive'
    cases hlive'.1
  · intro _
    exact hdone hfired

/-- A sleep that is not live is dropped. -/
lemma Consistent.drop_dead (h : t.Consistent R sleeps) (hi : sleeps[i]? = some s)
    (hdead : ¬ s.Live) : t.Consistent R (sleeps.set i { s with dropped := true }) := by
  have hcases : ∀ {j : Nat} {s₀ : SleepFuture},
      (sleeps.set i { s with dropped := true })[j]? = some s₀ → s₀.Live →
        sleeps[j]? = some s₀ := by
    intro j s₀ hj hlive
    rw [List.getElem?_set] at hj
    split_ifs at hj with hij hlt
    · cases hj
      cases hlive.2
    · exact hj
  refine ⟨h.heap_nodup, h.free_nodup, h.free_empty, fun e he => ?_, fun s₀ hs₀ hlive => ?_, ?_, ?_⟩
  · obtain ⟨slot, hslot, hfired, howner⟩ := h.entered e he
    refine ⟨slot, hslot, hfired, fun hcancelled => ?_⟩
    obtain ⟨s₀, hs₀, hlive₀, hentry⟩ := howner hcancelled
    have hne : s₀ ≠ s := fun heq => hdead (heq ▸ hlive₀)
    exact ⟨s₀, mem_set_of_ne hi hs₀ hne, hlive₀, hentry⟩
  · obtain ⟨j, hj⟩ := List.getElem?_of_mem hs₀
    exact h.owned s₀ (List.mem_of_getElem? (hcases hj hlive)) hlive
  · intro j k s₁ s₂ hj hk hlive₁ hlive₂ heq
    exact h.distinct j k s₁ s₂ (hcases hj hlive₁) (hcases hk hlive₂) hlive₁ hlive₂ heq
  · intro s₀ hs₀ hdone
    rcases List.mem_or_eq_of_mem_set hs₀ with hs₀ | rfl
    · exact h.completed s₀ hs₀ hdone
    · exact h.completed s (List.mem_of_getElem? hi) hdone

/-! ### Registration -/

/-- An empty slot is allocated. -/
lemma Consistent.allocateSlot (h : t.Consistent R sleeps) :
    ∃ id t', t.allocateSlot = (id, t') ∧ t.slot? id = none ∧
      (∀ id', t'.slot? id' = if id' = id then some {} else t.slot? id') ∧ t'.freeSlots.Nodup ∧
      (∀ id' ∈ t'.freeSlots, id' ∈ t.freeSlots ∧ id' ≠ id) ∧
      t.slots.length ≤ t'.slots.length ∧ t'.heap = t.heap := by
  have hnodup := h.free_nodup
  have hempty := h.free_empty
  rw [TimerStateInner.allocateSlot]
  cases hfree : t.freeSlots with
  | nil =>
    refine ⟨_, _, rfl, ?_, slot?_append rfl, List.nodup_nil, ?_, by simp, rfl⟩
    · rw [slot?, List.getElem?_eq_none (Nat.le_refl _)]
      rfl
    · exact fun id' hmem => absurd hmem List.not_mem_nil
  | cons idx free =>
    rw [hfree] at hnodup hempty
    obtain ⟨hnot, hnodup'⟩ := List.nodup_cons.mp hnodup
    obtain ⟨hlt, hnone⟩ := hempty idx List.mem_cons_self
    refine ⟨_, _, rfl, hnone, slot?_set _ rfl hlt, hnodup', ?_, by simp, rfl⟩
    intro id' hmem
    exact ⟨List.mem_cons_of_mem _ hmem, fun heq => hnot (heq ▸ hmem)⟩

/-- A new sleep has a slot that was empty. -/
lemma Consistent.enter (h : t.Consistent R sleeps) (deadline : TimeNanos) :
    (t.enter deadline).2.Consistent R
      (sleeps ++ [{ deadline, id := (t.enter deadline).1 }]) := by
  obtain ⟨id, t', halloc, hnone, hlookup, hnodup, hfree, hlen, hheap⟩ := h.allocateSlot
  have hnew : t'.slot? id = some {} := by rw [hlookup, if_pos rfl]
  have hheap_id : ∀ e ∈ Q.toList t.heap, e.id ≠ id := by
    rintro e he rfl
    obtain ⟨slot, hslot, _⟩ := h.entered e he
    rw [hnone] at hslot
    cases hslot
  have hsleep_id : ∀ s ∈ sleeps, s.Live → s.id ≠ id := by
    rintro s hs hlive rfl
    obtain ⟨slot, hslot, _⟩ := h.owned s hs hlive
    rw [hnone] at hslot
    cases hslot
  rw [TimerStateInner.enter, halloc]
  refine ⟨?_, hnodup, ?_, ?_, ?_, ?_, ?_⟩
  · rw [((Q.push_perm ⟨deadline, id⟩ t'.heap).map _).nodup_iff, hheap, List.map_cons,
      List.nodup_cons]
    refine ⟨fun hmem => ?_, h.heap_nodup⟩
    obtain ⟨e, he, heid⟩ := List.mem_map.mp hmem
    exact hheap_id e he heid
  · intro id' hmem
    obtain ⟨hmem', hne⟩ := hfree id' hmem
    obtain ⟨hlt, hempty⟩ := h.free_empty id' hmem'
    refine ⟨Nat.lt_of_lt_of_le hlt hlen, ?_⟩
    show t'.slot? id' = none
    rw [hlookup, if_neg hne, hempty]
  · intro e he
    rcases MinHeap.mem_push.mp he with rfl | he
    · exact ⟨{}, hnew, rfl, fun _ => ⟨{ deadline, id := id }, by simp, ⟨rfl, rfl⟩, rfl⟩⟩
    · rw [hheap] at he
      obtain ⟨slot, hslot, hfired, howner⟩ := h.entered e he
      refine ⟨slot, ?_, hfired, fun hcancelled => ?_⟩
      · show t'.slot? e.id = some slot
        rw [hlookup, if_neg (hheap_id e he), hslot]
      · obtain ⟨s, hs, hrest⟩ := howner hcancelled
        exact ⟨s, List.mem_append_left _ hs, hrest⟩
  · intro s hs hlive
    rcases List.mem_append.mp hs with hs | hs
    · obtain ⟨slot, hslot, hopen, hwaiting, hdone⟩ := h.owned s hs hlive
      refine ⟨slot, ?_, hopen, fun hnot => ?_, hdone⟩
      · show t'.slot? s.id = some slot
        rw [hlookup, if_neg (hsleep_id s hs hlive), hslot]
      · obtain ⟨hentry, hwaker⟩ := hwaiting hnot
        exact ⟨MinHeap.mem_push.mpr (.inr (hheap ▸ hentry)), hwaker⟩
    · obtain rfl := List.mem_singleton.mp hs
      refine ⟨{}, hnew, rfl, fun _ => ⟨MinHeap.mem_push.mpr (.inl rfl), rfl⟩, fun htrue => ?_⟩
      cases htrue
  · intro i j s s' hs hs' hlive hlive' hid
    rw [List.getElem?_append] at hs hs'
    split_ifs at hs hs' with hi hj hj
    · exact h.distinct i j s s' hs hs' hlive hlive' hid
    · obtain rfl := List.mem_singleton.mp (List.mem_of_getElem? hs')
      exact absurd hid (hsleep_id s (List.mem_of_getElem? hs) hlive)
    · obtain rfl := List.mem_singleton.mp (List.mem_of_getElem? hs)
      exact absurd hid.symm (hsleep_id s' (List.mem_of_getElem? hs') hlive')
    · have hi' := (List.getElem?_eq_some_iff.mp hs).1
      have hj' := (List.getElem?_eq_some_iff.mp hs').1
      rw [List.length_singleton] at hi' hj'
      omega
  · intro s hs hdone
    rcases List.mem_append.mp hs with hs | hs
    · exact h.completed s hs hdone
    · obtain rfl := List.mem_singleton.mp hs
      cases hdone

end TimerStateInner

end AmlaSandbox.Timer
