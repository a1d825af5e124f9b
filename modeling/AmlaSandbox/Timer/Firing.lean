import AmlaSandbox.Timer.Consistent

/-!
# Firing timers

The entries whose deadlines have passed leave the heap. Those that were not cancelled are the ones
of the sleeps that are due, each once.
-/

namespace AmlaSandbox.Timer

open Async Library Host

namespace TimerStateInner

variable {Q : MinHeap TimerEntry TimerEntry.deadline} {t t' t'' : TimerStateInner Q}
  {sleeps due due' : List SleepFuture} {s s' : SleepFuture} {R : TimeNanos → Prop}
  {slot : TimerSlot} {o : Option TimerSlot} {entry : TimerEntry} {heap : Q.Heap} {now : TimeNanos}

/-- The sleep is live and its timer has not fired. -/
def Armed (t : TimerStateInner Q) (s : SleepFuture) : Prop := s.Live ∧ t.isFired s.id = false

instance (t : TimerStateInner Q) (s : SleepFuture) : Decidable (t.Armed s) :=
  inferInstanceAs (Decidable (_ ∧ _))

/-- The sleeps that are armed. -/
def armed (t : TimerStateInner Q) (sleeps : List SleepFuture) : List SleepFuture :=
  sleeps.filter (t.Armed ·)

@[simp] lemma mem_armed : s ∈ t.armed sleeps ↔ s ∈ sleeps ∧ t.Armed s := by
  rw [armed, List.mem_filter, decide_eq_true_iff]

lemma Consistent.nodup_armed (h : t.Consistent R sleeps) : (t.armed sleeps).Nodup := by
  rw [armed, List.Nodup, List.pairwise_filter, List.pairwise_iff_getElem]
  intro i j hi hj hij harmed harmed' heq
  have hlive := (of_decide_eq_true harmed).1
  have hlive' := (of_decide_eq_true harmed').1
  have hindex := h.distinct i j _ _ (List.getElem?_eq_getElem hi) (List.getElem?_eq_getElem hj)
    hlive hlive' (congrArg SleepFuture.id heq)
  exact absurd hindex (Nat.ne_of_lt hij)

/-- The timers of some sleeps fire, and no others. -/
structure Fires (sleeps due : List SleepFuture) (t t' : TimerStateInner Q) : Prop where
  armed : (t.armed sleeps).Perm (due ++ t'.armed sleeps)
  isFired : ∀ id, t'.isFired id = true ↔ t.isFired id = true ∨ ∃ s ∈ due, s.id = id

lemma Fires.refl : Fires sleeps [] t t where
  armed := List.Perm.refl _
  isFired id := by simp

lemma Fires.trans (h : Fires sleeps due t t') (h' : Fires sleeps due' t' t'') :
    Fires sleeps (due ++ due') t t'' where
  armed := by
    rw [List.append_assoc]
    exact h.armed.trans (h'.armed.append_left due)
  isFired id := by
    rw [h'.isFired, h.isFired, or_assoc]
    simp only [List.mem_append, or_and_right, exists_or]

/-! ### One entry -/

lemma Consistent.ne_of_pop (h : t.Consistent R sleeps) (hpop : Q.pop t.heap = some (entry, heap)) :
    ((Q.toList heap).map TimerEntry.id).Nodup ∧ ∀ e ∈ Q.toList heap, e.id ≠ entry.id := by
  have hnodup := h.heap_nodup
  rw [((Q.pop_perm _ _ _ hpop).map _).nodup_iff, List.map_cons, List.nodup_cons] at hnodup
  exact ⟨hnodup.2, fun e he heid => hnodup.1 (heid ▸ List.mem_map_of_mem he)⟩

/-- An entry leaves the heap, and its timer has fired if it is that of a live sleep. -/
lemma Consistent.pop (h : t.Consistent R sleeps) (hpop : Q.pop t.heap = some (entry, heap))
    (hheap : t'.heap = heap)
    (hlookup : ∀ id, t'.slot? id = if id = entry.id then o else t.slot? id)
    (hnodup : t'.freeSlots.Nodup)
    (hfree : ∀ id ∈ t'.freeSlots, id < t'.slots.length ∧ t'.slot? id = none)
    (ho : ∀ s ∈ sleeps, s.Live → s.id = entry.id →
      ∃ slot, o = some slot ∧ slot.cancelled = false ∧ slot.fired = true ∧ R s.deadline) :
    t'.Consistent R sleeps := by
  obtain ⟨hnodup', hne⟩ := h.ne_of_pop hpop
  refine ⟨hheap ▸ hnodup', hnodup, hfree, ?_, ?_, h.distinct, h.completed⟩
  · intro e he
    rw [hheap] at he
    obtain ⟨slot, hslot, hrest⟩ := h.entered e ((MinHeap.mem_pop hpop).mpr (.inr he))
    refine ⟨slot, ?_, hrest⟩
    rw [hlookup, if_neg (hne e he), hslot]
  · intro s hs hlive
    by_cases hid : s.id = entry.id
    · obtain ⟨slot, rfl, hopen, hfired, hR⟩ := ho s hs hlive hid
      refine ⟨slot, by rw [hlookup, if_pos hid], hopen, fun hnot => ?_, fun _ => hR⟩
      rw [hfired] at hnot
      cases hnot
    · obtain ⟨slot, hslot, hopen, hwaiting, hdone⟩ := h.owned s hs hlive
      refine ⟨slot, by rw [hlookup, if_neg hid, hslot], hopen, fun hnot => ?_, hdone⟩
      obtain ⟨hentry, hwaker⟩ := hwaiting hnot
      rw [hheap]
      refine ⟨((MinHeap.mem_pop hpop).mp hentry).resolve_left fun heq => hid ?_, hwaker⟩
      rw [← heq, SleepFuture.entry]

/-- What firing the timer of an entry comes to. -/
def FiresEntry (R : TimeNanos → Prop) (sleeps : List SleepFuture) (entry : TimerEntry)
    (t : TimerStateInner Q) (fired : Option Waker × TimerStateInner Q) : Prop :=
  fired.2.Consistent R sleeps ∧ ∃ due, Fires sleeps due t fired.2 ∧
    fired.1.toList = due.filterMap SleepFuture.waker ∧ ∀ s ∈ due, s.entry = entry

/-- The slot of a cancelled timer is freed. -/
lemma Consistent.fire_cancelled (h : t.Consistent R sleeps)
    (hpop : Q.pop t.heap = some (entry, heap)) (hslot : t.slot? entry.id = some slot)
    (hfired : slot.fired = false) (hcancelled : slot.cancelled = true) :
    FiresEntry R sleeps entry t ({ t with heap }.fire entry.id) := by
  have hlt := lt_of_slot? hslot
  have heq : { t with heap }.fire entry.id = (none, { t with heap }.freeSlot entry.id) := by
    have hslot' : { t with heap }.slot? entry.id = some slot := hslot
    simp [fire, hslot', hcancelled]
  have hlookup := slot?_set (t := t) ({ t with heap }.freeSlot entry.id) rfl hlt
  have hisFired : ∀ id, ({ t with heap }.freeSlot entry.id).isFired id = t.isFired id := by
    intro id
    rw [isFired, hlookup]
    split_ifs with hid
    · rw [hid, isFired_eq hslot, hfired, Option.any_none]
    · rfl
  rw [heq]
  refine ⟨h.pop hpop rfl hlookup ?_ ?_ ?_, [], ⟨?_, fun id => by simp [hisFired]⟩, rfl,
    fun s hs => absurd hs List.not_mem_nil⟩
  · exact List.nodup_cons.mpr ⟨h.not_mem_freeSlots hslot, h.free_nodup⟩
  · exact h.free_empty_cons hslot List.length_set hlookup
  · intro s hs hlive hid
    obtain ⟨slot', hslot', hopen, _⟩ := h.owned s hs hlive
    rw [hid, hslot] at hslot'
    cases hslot'
    rw [hcancelled] at hopen
    cases hopen
  · rw [List.nil_append, TimerStateInner.armed, TimerStateInner.armed]
    simp only [Armed, hisFired]
    exact List.Perm.refl _

/-- The timer of a live sleep fires. -/
lemma Consistent.fire_live (h : t.Consistent R sleeps)
    (hpop : Q.pop t.heap = some (s.entry, heap)) (hslot : t.slot? s.id = some slot)
    (hfired : slot.fired = false) (hopen : slot.cancelled = false) (hs : s ∈ sleeps)
    (hlive : s.Live) (hR : R s.deadline) :
    FiresEntry R sleeps s.entry t ({ t with heap }.fire s.id) := by
  have hlt := lt_of_slot? hslot
  have hwaker : slot.waker = s.waker := by
    obtain ⟨slot', hslot', _, hwaiting, _⟩ := h.owned s hs hlive
    rw [hslot] at hslot'
    cases hslot'
    exact (hwaiting hfired).2
  generalize heq : { t with heap }.fire s.id = fired
  obtain rfl : fired = (slot.waker, { t with
      heap
      slots := t.slots.set s.id (some { slot with fired := true, waker := none }) }) := by
    have hslot' : { t with heap }.slot? s.id = some slot := hslot
    simp [← heq, fire, hslot', hopen]
  clear heq
  set t' : TimerStateInner Q := { t with
    heap
    slots := t.slots.set s.id (some { slot with fired := true, waker := none }) } with ht'
  have hlookup : ∀ id, t'.slot? id =
      if id = s.id then some { slot with fired := true, waker := none } else t.slot? id :=
    slot?_set t' rfl hlt
  have hisFired : ∀ id, t'.isFired id = true ↔ t.isFired id = true ∨ s.id = id := by
    intro id
    rw [isFired, hlookup]
    split_ifs with hid
    · simp only [Option.any_some, true_iff]
      exact .inr hid.symm
    · have hne : ¬ s.id = id := fun heq => hid heq.symm
      simp only [hne, or_false]
      rfl
  have hconsistent : t'.Consistent R sleeps := by
    refine h.pop hpop rfl hlookup h.free_nodup ?_ ?_
    · exact h.free_empty_set hslot List.length_set hlookup
    · intro s' hs' hlive' hid
      obtain rfl := h.eq_of_id hs' hs hlive' hlive hid
      exact ⟨_, rfl, hopen, rfl, hR⟩
  refine ⟨hconsistent, [s], ⟨?_, fun id => by simp [hisFired]⟩, ?_,
    fun s' hs' => congrArg SleepFuture.entry (List.mem_singleton.mp hs')⟩
  · have hmem : s ∉ t'.armed sleeps := by
      rw [mem_armed]
      rintro ⟨_, _, hfalse⟩
      rw [(hisFired s.id).mpr (.inr rfl)] at hfalse
      cases hfalse
    rw [List.singleton_append, List.perm_ext_iff_of_nodup h.nodup_armed
      (List.nodup_cons.mpr ⟨hmem, hconsistent.nodup_armed⟩)]
    intro s'
    have hnot : ∀ id, t'.isFired id = false ↔ t.isFired id = false ∧ s.id ≠ id := by
      intro id
      rw [← Bool.not_eq_true, hisFired, not_or, Bool.not_eq_true]
    rw [List.mem_cons, mem_armed, mem_armed]
    constructor
    · rintro ⟨hs', hlive', hnot'⟩
      by_cases hid : s.id = s'.id
      · exact .inl (h.eq_of_id hs' hs hlive' hlive hid.symm)
      · exact .inr ⟨hs', hlive', (hnot _).mpr ⟨hnot', hid⟩⟩
    · rintro (rfl | ⟨hs', hlive', hnot'⟩)
      · exact ⟨hs, hlive, (isFired_eq hslot).trans hfired⟩
      · exact ⟨hs', hlive', ((hnot _).mp hnot').1⟩
  · show slot.waker.toList = _
    rw [hwaker]
    cases hw : s.waker <;> simp [hw]

/-- The timer of an entry fires unless it was cancelled. -/
lemma Consistent.fire (h : t.Consistent R sleeps) (hpop : Q.pop t.heap = some (entry, heap))
    (hR : R entry.deadline) :
    FiresEntry R sleeps entry t ({ t with heap }.fire entry.id) := by
  have he := (MinHeap.mem_pop hpop).mpr (.inl rfl)
  obtain ⟨slot, hslot, hfired, howner⟩ := h.entered entry he
  cases hcancelled : slot.cancelled with
  | true => exact h.fire_cancelled hpop hslot hfired hcancelled
  | false =>
    obtain ⟨s, hs, hlive, rfl⟩ := howner hcancelled
    exact h.fire_live hpop hslot hfired hcancelled hs hlive hR

/-! ### The loop -/

lemma fire_frame (t : TimerStateInner Q) (id : Nat) :
    (t.fire id).2.heap = t.heap ∧ (t.fire id).2.wakeAtState = t.wakeAtState ∧
      (t.fire id).2.host = t.host ∧ (t.fire id).2.woken = t.woken := by
  rw [fire]
  split
  · exact ⟨rfl, rfl, rfl, rfl⟩
  · split_ifs <;> exact ⟨rfl, rfl, rfl, rfl⟩

lemma fireLoop_frame (n : Nat) (wakers : List Waker) (t : TimerStateInner Q) :
    (fireLoop now n wakers t).2.wakeAtState = t.wakeAtState ∧
      (fireLoop now n wakers t).2.host = t.host ∧
      (fireLoop now n wakers t).2.woken = t.woken := by
  induction n generalizing t wakers with
  | zero => exact ⟨rfl, rfl, rfl⟩
  | succ n ih =>
    rw [fireLoop]
    split
    · exact ⟨rfl, rfl, rfl⟩
    · split_ifs
      · exact ⟨rfl, rfl, rfl⟩
      · next entry heap _ _ =>
        obtain ⟨_, hstate, hhost, hwoken⟩ := fire_frame { t with heap } entry.id
        obtain ⟨hstate', hhost', hwoken'⟩ :=
          ih (wakers ++ ({ t with heap }.fire entry.id).1.toList) ({ t with heap }.fire entry.id).2
        exact ⟨hstate'.trans hstate, hhost'.trans hhost, hwoken'.trans hwoken⟩

lemma fireExpired_frame (t : TimerStateInner Q) (now : TimeNanos) :
    (t.fireExpired now).wakeAtState = t.wakeAtState ∧ (t.fireExpired now).host = t.host :=
  ⟨(fireLoop_frame _ _ t).1, (fireLoop_frame _ _ t).2.1⟩

/-- The loop fires the timers of the sleeps that are due, and leaves the later ones in the heap. -/
lemma Consistent.fireLoop (h : t.Consistent R sleeps) (hR : ∀ d ≤ now, R d) (n : Nat)
    (wakers : List Waker) (hn : (Q.toList t.heap).length ≤ n) :
    let fired := TimerStateInner.fireLoop now n wakers t
    fired.2.Consistent R sleeps ∧ (∀ e ∈ Q.toList fired.2.heap, now < e.deadline) ∧
      ∃ due, Fires sleeps due t fired.2 ∧
        fired.1 = wakers ++ due.filterMap SleepFuture.waker ∧ ∀ s ∈ due, s.deadline ≤ now := by
  induction n generalizing t wakers with
  | zero =>
    rw [TimerStateInner.fireLoop]
    have hnil : Q.toList t.heap = [] := List.eq_nil_of_length_eq_zero (Nat.le_zero.mp hn)
    refine ⟨h, fun e he => ?_, [], .refl, by simp, fun s hs => absurd hs List.not_mem_nil⟩
    exact absurd (hnil ▸ he) List.not_mem_nil
  | succ n ih =>
    rw [TimerStateInner.fireLoop]
    cases hpop : Q.pop t.heap with
    | none =>
      refine ⟨h, fun e he => ?_, [], .refl, by simp, fun s hs => absurd hs List.not_mem_nil⟩
      exact absurd (Q.pop_none _ hpop ▸ he) List.not_mem_nil
    | some popped =>
      obtain ⟨entry, heap⟩ := popped
      simp only
      split_ifs with hlater
      · refine ⟨h, fun e he => ?_, [], .refl, by simp, fun s hs => absurd hs List.not_mem_nil⟩
        rcases (MinHeap.mem_pop hpop).mp he with rfl | he
        · exact hlater
        · exact UInt64.lt_of_lt_of_le hlater (Q.pop_le _ _ _ hpop e he)
      · have hle := UInt64.not_lt.mp hlater
        obtain ⟨hconsistent, due, hfires, hwakers, hdue⟩ := h.fire hpop (hR _ hle)
        have hlength := MinHeap.length_pop hpop
        obtain ⟨hconsistent', hheap, due', hfires', hwakers', hdue'⟩ :=
          ih hconsistent (wakers ++ ({ t with heap }.fire entry.id).1.toList)
            (by rw [(fire_frame _ _).1]; show (Q.toList heap).length ≤ n; omega)
        refine ⟨hconsistent', hheap, due ++ due', hfires.trans hfires', ?_, ?_⟩
        · rw [hwakers', hwakers, List.append_assoc, List.filterMap_append]
        · intro s hs
          rcases List.mem_append.mp hs with hs | hs
          · rw [show s.deadline = entry.deadline from congrArg TimerEntry.deadline (hdue s hs)]
            exact hle
          · exact hdue' s hs

/-- `fire_expired` fires the timers of the sleeps that are due and wakes their wakers, each once. -/
lemma Consistent.fireExpired (now : TimeNanos) (h : t.Consistent R sleeps) (hR : ∀ d ≤ now, R d) :
    (t.fireExpired now).Consistent R sleeps ∧
      (∀ s ∈ sleeps, (t.fireExpired now).Armed s ↔ t.Armed s ∧ now < s.deadline) ∧
      ∃ due, Fires sleeps due t (t.fireExpired now) ∧
        due.Perm ((t.armed sleeps).filter (·.deadline ≤ now)) ∧
        (t.fireExpired now).woken = t.woken ++ due.filterMap SleepFuture.waker := by
  obtain ⟨hconsistent, hheap, due, hfires, hwakers, hdue⟩ := h.fireLoop hR _ [] (Nat.le_refl _)
  set t' := (TimerStateInner.fireLoop now (Q.toList t.heap).length [] t).2
  have hconsistent' : (t.fireExpired now).Consistent R sleeps := hconsistent.congr rfl rfl rfl
  have hlater : ∀ s ∈ t'.armed sleeps, now < s.deadline := by
    intro s hs
    obtain ⟨hmem, hlive, hfired⟩ := mem_armed.mp hs
    obtain ⟨slot, hslot, _, hwaiting, _⟩ := hconsistent.owned s hmem hlive
    rw [isFired_eq hslot] at hfired
    exact hheap _ (hwaiting hfired).1
  refine ⟨hconsistent', fun s hs => ?_, due, ⟨hfires.armed, hfires.isFired⟩, ?_, ?_⟩
  · have hmem := hfires.armed.mem_iff (a := s)
    rw [List.mem_append, mem_armed, and_iff_right hs] at hmem
    constructor
    · intro harmed
      have hmem' : s ∈ t'.armed sleeps := mem_armed.mpr ⟨hs, harmed⟩
      exact ⟨hmem.mpr (.inr hmem'), hlater s hmem'⟩
    · rintro ⟨harmed, hlt⟩
      have hnot : s ∉ due := fun hmem' => UInt64.not_lt.mpr (hdue s hmem') hlt
      exact (mem_armed.mp ((hmem.mp harmed).resolve_left hnot)).2
  · have hnil : (t'.armed sleeps).filter (·.deadline ≤ now) = [] :=
      List.filter_eq_nil_iff.mpr fun s hs hle =>
        UInt64.not_lt.mpr (of_decide_eq_true hle) (hlater s hs)
    have hperm := hfires.armed.filter (·.deadline ≤ now)
    rw [List.filter_append, hnil, List.append_nil,
      List.filter_eq_self.mpr fun s hs => decide_eq_true (hdue s hs)] at hperm
    exact hperm.symm
  · show (TimerStateInner.fireLoop now _ [] t).2.woken ++ _ = _
    rw [(fireLoop_frame _ _ t).2.2, hwakers, List.nil_append]

end TimerStateInner

end AmlaSandbox.Timer
