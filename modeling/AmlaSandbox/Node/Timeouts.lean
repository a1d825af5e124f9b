import AmlaSandbox.Node.Order

/-!
# When timers fire

A timer fires when all sleeps registered before it are over and then its own. It is therefore late
rather than early, and the order of the calls is the order of registration, not that of the due
times. A timeout has an entry of its own until its operation is served, and every operation is
served in the end.
-/

namespace AmlaSandbox.Node

/-! ## The time of a call -/

section

variable {σ κ : Type*} {p : Program σ κ} {clock : TimeNanos} {s : EventLoop σ κ}
  {op : PendingOp κ} {actions : List (Action κ)} {delay timer : ℕ} {start : TimeNanos}

/-! ### Deadlines -/

lemma toNat_durationToNanos (delayMs : UInt64) :
    (durationToNanos delayMs).toNat = min (millisToNanos delayMs.toNat) (2 ^ 64 - 1) := by
  rw [durationToNanos, UInt64.toNat_ofNat_of_lt']
  exact lt_of_le_of_lt (min_le_right _ _) (by decide)

lemma le_wakeTime (now : TimeNanos) (delayMs : UInt64) :
    now.toNat ≤ (wakeTime now delayMs).toNat := by
  simp only [wakeTime]
  split_ifs with hlt
  · exact Nat.le_of_lt (UInt64.lt_iff_toNat_lt.mp hlt)
  · exact le_rfl

/-- An operation that is served from `now` on is not early exactly if its deadline fits the clock,
or it is due already. -/
lemma due_le_wakeTime_iff {now : TimeNanos} {delayMs : UInt64} {due : ℕ}
    (hdelay : millisToNanos delayMs.toNat ≤ due)
    (hdue : due ≤ now.toNat + millisToNanos delayMs.toNat) :
    due ≤ (wakeTime now delayMs).toNat ↔
      now.toNat + millisToNanos delayMs.toNat < 2 ^ 64 ∨ due ≤ now.toNat := by
  have hnow := UInt64.toNat_lt now
  have hnanos := toNat_durationToNanos delayMs
  have hdeadline : (now + durationToNanos delayMs).toNat =
      (now.toNat + min (millisToNanos delayMs.toNat) (2 ^ 64 - 1)) % 2 ^ 64 := by
    rw [UInt64.toNat_add, hnanos]
  generalize millisToNanos delayMs.toNat = nanos at *
  simp only [wakeTime, UInt64.lt_iff_toNat_lt]
  constructor
  · intro hle
    split_ifs at hle with hlt
    · omega
    · exact .inr hle
  · rintro (hfits | hpast)
    · rw [min_eq_left (by omega), Nat.mod_eq_of_lt hfits] at hdeadline
      split_ifs with hlt
      · omega
      · omega
    · split_ifs with hlt
      · omega
      · exact hpast

namespace EventLoop

/-- A due time is that of a registration which is not after the given time. -/
def DueBy (time : TimeNanos) (delayMs : UInt64) (due : ℕ) : Prop :=
  millisToNanos delayMs.toNat ≤ due ∧ due ≤ time.toNat + millisToNanos delayMs.toNat

lemma DueBy.mono {time later : TimeNanos} {delayMs : UInt64} {due : ℕ}
    (h : DueBy time delayMs due) (hle : time.toNat ≤ later.toNat) : DueBy later delayMs due :=
  ⟨h.1, Nat.le_trans h.2 (Nat.add_le_add_right hle _)⟩

/-- The due times, and the times of the calls. -/
structure Dated (s : EventLoop σ κ) : Prop where
  waiting : ∀ op ∈ s.waiting, DueBy s.clock op.delayMs op.due
  calls : ∀ call ∈ s.calls,
    DueBy call.start call.delayMs call.due ∧ call.time = wakeTime call.start call.delayMs

lemma clock_createPendingOp (s : EventLoop σ κ) (delay : ℕ) (continuation : Continuation κ) :
    (s.createPendingOp delay continuation).clock = s.clock := by
  simp only [createPendingOp]
  split_ifs <;> rfl

lemma Dated.createPendingOp (h : s.Dated) (delay : ℕ) (continuation : Continuation κ) :
    (s.createPendingOp delay continuation).Dated := by
  constructor
  · intro op hop
    rw [clock_createPendingOp]
    rw [waiting_createPendingOp, List.mem_append] at hop
    rcases hop with hop | hop
    · exact h.waiting op hop
    · split_ifs at hop with hfits
      · obtain rfl := List.mem_singleton.mp hop
        have htoNat : (UInt64.ofNat delay).toNat = delay := UInt64.toNat_ofNat_of_lt' hfits
        rw [DueBy, htoNat]
        exact ⟨Nat.le_add_left _ _, le_rfl⟩
      · cases hop
  · rw [(registers_createPendingOp s delay continuation).calls_eq]
    exact h.calls

lemma Dated.registers {s' : EventLoop σ κ} (h : s.Dated) (hreg : Registers s s') : s'.Dated := by
  refine hreg.invariant h (fun s s' hquiet h => ?_) fun s delay continuation h =>
    h.createPendingOp delay continuation
  constructor
  · rw [EventLoop.waiting, hquiet.batch, hquiet.pendingOps, hquiet.clock]
    exact h.waiting
  · rw [hquiet.calls]
    exact h.calls

lemma Dated.slept (h : s.Dated) {batch : List (PendingOp κ)} (hbatch : s.batch = op :: batch) :
    (s.slept op batch).Dated ∧ ((s.slept op batch).record op s.clock).Dated := by
  have hwaiting : ∀ op' ∈ (s.slept op batch).waiting,
      DueBy (wakeTime s.clock op.delayMs) op'.delayMs op'.due := by
    intro op' hop'
    refine (h.waiting op' ?_).mono (le_wakeTime s.clock op.delayMs)
    rw [EventLoop.waiting, hbatch]
    exact List.mem_cons_of_mem _ hop'
  have hop : DueBy s.clock op.delayMs op.due := by
    refine h.waiting op ?_
    rw [EventLoop.waiting, hbatch]
    exact List.mem_cons_self
  refine ⟨⟨hwaiting, h.calls⟩, hwaiting, ?_⟩
  intro call hcall
  rcases List.mem_append.mp hcall with hcall | hcall
  · exact h.calls call hcall
  · obtain rfl := List.mem_singleton.mp hcall
    exact ⟨hop, rfl⟩

lemma Dated.step (h : s.Dated) : (s.step p).Dated := by
  rcases step_cases p s with ⟨hbatch, hstep⟩ | ⟨op, batch, hbatch, hreg | hreg⟩
  · rw [hstep]
    refine ⟨?_, h.calls⟩
    rw [EventLoop.waiting, takePendingOps, List.append_nil]
    have hwaiting := h.waiting
    rwa [EventLoop.waiting, hbatch, List.nil_append] at hwaiting
  · exact (h.slept hbatch).1.registers hreg
  · exact (h.slept hbatch).2.registers hreg

end EventLoop

open EventLoop in
theorem Program.dated_run (p : Program σ κ) (clock : TimeNanos) (n : ℕ) :
    (p.run clock n).Dated := by
  induction n with
  | zero =>
    have hmain : Dated (({ clock, memory := p.memory } : EventLoop σ κ).execute p.main) :=
      Dated.registers ⟨by simp [waiting], by simp⟩ (registers_execute _ _)
    refine ⟨fun op hop => hmain.waiting op ?_, hmain.calls⟩
    rw [run, Function.iterate_zero, id_eq, start, waiting, takePendingOps, List.append_nil] at hop
    exact List.mem_append_right _ hop
  | succ n ih =>
    rw [run_succ]
    exact ih.step

end

/-! ## Each timeout fires once -/

variable {σ κ : Type*} {p : Program σ κ} {clock : TimeNanos} {s s' : EventLoop σ κ}
  {op : PendingOp κ} {actions : List (Action κ)} {delay timer n : ℕ} {start : TimeNanos}
  {batch : List (PendingOp κ)} {r : Registration}

/-- The timer whose callback is called. -/
def Continuation.timer? : Continuation κ → Option ℕ
  | .timeout timer => some timer
  | .tick timer _ => some timer
  | .resume _ => none

namespace EventLoop

/-- What all actions keep, a list of actions keeps. -/
lemma execute_induction {I : EventLoop σ κ → Prop} (h : I s)
    (hstep : ∀ s action, I s → I (s.perform action)) : I (s.execute actions) := by
  unfold execute
  induction actions generalizing s with
  | nil => exact h
  | cons action actions ih =>
    rw [List.foldl_cons]
    exact ih (hstep s action h)

/-! ### Entries -/

/-- The timers of the waiting operations. -/
def timersOf (s : EventLoop σ κ) : List ℕ := s.waiting.filterMap fun op => op.continuation.timer?

/-- A timer that has an entry and no waiting operation. -/
structure Idle (s : EventLoop σ κ) (timer : ℕ) : Prop where
  entry : timer ∈ s.timers
  fresh : timer < s.nextTimerId
  idle : timer ∉ s.timersOf

/-- Each waiting operation of a timer has an entry, and is the only one of its timer. -/
structure Entered (s : EventLoop σ κ) : Prop where
  entry : ∀ timer ∈ s.timersOf, timer ∈ s.timers
  fresh : ∀ timer ∈ s.timersOf, timer < s.nextTimerId
  nodup : s.timersOf.Nodup

lemma timersOf_createPendingOp (s : EventLoop σ κ) (delay : ℕ) (continuation : Continuation κ) :
    (s.createPendingOp delay continuation).timersOf =
      s.timersOf ++ if delay < 2 ^ 64 then continuation.timer?.toList else [] := by
  rw [timersOf, timersOf, waiting_createPendingOp, List.filterMap_append]
  split_ifs
  · cases h : continuation.timer? <;> simp [h]
  · rfl

lemma timers_createPendingOp (s : EventLoop σ κ) (delay : ℕ) (continuation : Continuation κ) :
    (s.createPendingOp delay continuation).timers = s.timers ∧
      (s.createPendingOp delay continuation).nextTimerId = s.nextTimerId := by
  simp only [createPendingOp]
  split_ifs <;> exact ⟨rfl, rfl⟩

lemma Entered.createPendingOp (h : s.Entered) (delay : ℕ) {continuation : Continuation κ}
    (hidle : ∀ timer ∈ continuation.timer?, s.Idle timer) :
    (s.createPendingOp delay continuation).Entered := by
  obtain ⟨htimers, hnext⟩ := timers_createPendingOp s delay continuation
  have hmem : ∀ timer ∈ (s.createPendingOp delay continuation).timersOf,
      timer ∈ s.timersOf ∨ s.Idle timer := by
    intro timer htimer
    rw [timersOf_createPendingOp, List.mem_append] at htimer
    refine htimer.imp id fun hnew => hidle timer ?_
    split_ifs at hnew
    · exact Option.mem_toList.mp hnew
    · cases hnew
  constructor
  · intro timer htimer
    rw [htimers]
    exact (hmem timer htimer).elim (h.entry timer) Idle.entry
  · intro timer htimer
    rw [hnext]
    exact (hmem timer htimer).elim (h.fresh timer) Idle.fresh
  · rw [timersOf_createPendingOp]
    split_ifs
    · cases htimer : continuation.timer? with
      | none => simpa using h.nodup
      | some timer =>
        rw [Option.toList_some, ← List.concat_eq_append]
        exact h.nodup.concat (hidle timer htimer).idle
    · rw [List.append_nil]
      exact h.nodup

lemma Idle.createPendingOp (h : s.Idle timer) (delay : ℕ) {continuation : Continuation κ}
    (hne : timer ∉ continuation.timer?) : (s.createPendingOp delay continuation).Idle timer := by
  obtain ⟨htimers, hnext⟩ := timers_createPendingOp s delay continuation
  refine ⟨htimers ▸ h.entry, hnext ▸ h.fresh, ?_⟩
  rw [timersOf_createPendingOp, List.mem_append, not_or]
  refine ⟨h.idle, ?_⟩
  split_ifs
  · rwa [Option.mem_toList]
  · exact List.not_mem_nil

lemma Entered.enterTimer (h : s.Entered) (callback : κ) : (s.enterTimer callback).Entered where
  entry timer htimer := AList.mem_insert _ |>.mpr (.inr (h.entry timer htimer))
  fresh timer htimer := Nat.lt_succ_of_lt (h.fresh timer htimer)
  nodup := h.nodup

lemma Idle.enterTimer (h : s.Idle timer) (callback : κ) : (s.enterTimer callback).Idle timer where
  entry := AList.mem_insert _ |>.mpr (.inr h.entry)
  fresh := Nat.lt_succ_of_lt h.fresh
  idle := h.idle

/-- A new timer has no operation yet. -/
lemma Entered.idle_enterTimer (h : s.Entered) (callback : κ) :
    (s.enterTimer callback).Idle s.nextTimerId where
  entry := AList.mem_insert _ |>.mpr (.inl rfl)
  fresh := Nat.lt_succ_self _
  idle hmem := lt_irrefl _ (h.fresh _ hmem)

lemma Entered.perform (h : s.Entered) (action : Action κ) : (s.perform action).Entered := by
  cases action with
  | setTimeout callback delay =>
    have hentered : (s.recordTimeout s.nextTimerId delay).Entered := ⟨h.1, h.2, h.3⟩
    refine (hentered.enterTimer callback).createPendingOp delay ?_
    rintro timer ⟨rfl⟩
    exact hentered.idle_enterTimer callback
  | setInterval callback delay =>
    refine (h.enterTimer callback).createPendingOp delay ?_
    rintro timer ⟨rfl⟩
    exact h.idle_enterTimer callback
  | clearTimeout timer =>
    simp only [EventLoop.perform, clearTimeout]
    split
    · exact ⟨fun timer htimer => AList.mem_insert _ |>.mpr (.inr (h.1 timer htimer)), h.2, h.3⟩
    · exact h
  | sleep delay callback => exact h.createPendingOp delay (by rintro timer ⟨⟩)

lemma Idle.perform (h : s.Idle timer) (action : Action κ) : (s.perform action).Idle timer := by
  have hnew : timer ≠ s.nextTimerId := Nat.ne_of_lt h.fresh
  cases action with
  | setTimeout callback delay =>
    have hidle : (s.recordTimeout s.nextTimerId delay).Idle timer := ⟨h.1, h.2, h.3⟩
    exact (hidle.enterTimer callback).createPendingOp delay fun hmem =>
      hnew (Option.mem_some_iff.mp hmem).symm
  | setInterval callback delay =>
    exact (h.enterTimer callback).createPendingOp delay fun hmem =>
      hnew (Option.mem_some_iff.mp hmem).symm
  | clearTimeout other =>
    simp only [EventLoop.perform, clearTimeout]
    split
    · exact ⟨AList.mem_insert _ |>.mpr (.inr h.1), h.2, h.3⟩
    · exact h
  | sleep delay callback => exact h.createPendingOp delay (by rintro ⟨⟩)

lemma Entered.runCallback (h : s.Entered) (callback : κ) :
    (s.runCallback p callback).2.Entered :=
  execute_induction ⟨h.1, h.2, h.3⟩ fun _ action h => h.perform action

lemma Idle.runCallback (h : s.Idle timer) (callback : κ) :
    (s.runCallback p callback).2.Idle timer :=
  execute_induction (I := fun s => s.Idle timer) ⟨h.1, h.2, h.3⟩ fun _ action h => h.perform action

lemma Entered.deleteTimer (h : s.Entered) (hidle : timer ∉ s.timersOf) :
    (s.deleteTimer timer).Entered where
  entry other hother := by
    refine AList.mem_erase.mpr ⟨?_, h.entry other hother⟩
    rintro rfl
    exact hidle hother
  fresh := h.fresh
  nodup := h.nodup

/-- The operation at the head leaves its timer to its continuation. -/
lemma Entered.resolve (h : s.Entered)
    (hidle : ∀ timer ∈ op.continuation.timer?, s.Idle timer) (start : TimeNanos) :
    (s.resolve p op start).Entered := by
  have hrecorded : (s.record op start).Entered := ⟨h.1, h.2, h.3⟩
  unfold EventLoop.resolve
  split
  · rename_i timer heq
    have htimer : s.Idle timer := hidle timer (heq ▸ rfl)
    have hkept : (s.record op start).Idle timer := ⟨htimer.1, htimer.2, htimer.3⟩
    split
    · dsimp only
      split_ifs
      · exact (hrecorded.runCallback _).deleteTimer (hkept.runCallback _).idle
      · exact hrecorded.runCallback _
    · exact h.deleteTimer htimer.idle
  · rename_i timer delay heq
    have htimer : s.Idle timer := hidle timer (heq ▸ rfl)
    have hkept : (s.record op start).Idle timer := ⟨htimer.1, htimer.2, htimer.3⟩
    split
    · dsimp only
      split_ifs
      · refine (hrecorded.runCallback _).createPendingOp delay ?_
        rintro timer ⟨rfl⟩
        exact hkept.runCallback _
      · exact hrecorded.runCallback _
    · exact h.deleteTimer htimer.idle
  · exact h.runCallback _

lemma timersOf_cons (hbatch : s.batch = op :: batch) :
    s.timersOf = op.continuation.timer?.toList ++ (s.slept op batch).timersOf := by
  rw [timersOf, waiting, hbatch, List.cons_append, List.filterMap_cons]
  cases op.continuation.timer? <;> rfl

lemma Entered.step (h : s.Entered) : (s.step p).Entered := by
  unfold EventLoop.step
  split
  · rename_i op batch hbatch
    have htimers := timersOf_cons hbatch
    have hrest : (s.slept op batch).Entered := by
      refine ⟨fun timer htimer => h.entry timer ?_, fun timer htimer => h.fresh timer ?_, ?_⟩
      · exact htimers ▸ List.mem_append_right _ htimer
      · exact htimers ▸ List.mem_append_right _ htimer
      · exact (htimers ▸ h.nodup).of_append_right
    refine hrest.resolve ?_ s.clock
    intro timer htimer
    have hmem : timer ∈ s.timersOf :=
      htimers ▸ List.mem_append_left _ (Option.mem_toList.mpr htimer)
    refine ⟨h.entry timer hmem, h.fresh timer hmem, ?_⟩
    exact List.disjoint_of_nodup_append (htimers ▸ h.nodup) (Option.mem_toList.mpr htimer)
  · rename_i hbatch
    have htimers : s.takePendingOps.timersOf = s.timersOf := by
      rw [timersOf, timersOf, waiting, waiting, takePendingOps, hbatch, List.append_nil,
        List.nil_append]
    exact ⟨htimers ▸ h.1, htimers ▸ h.2, htimers ▸ h.3⟩

/-! ### Registrations -/

/-- The operation of a timeout. -/
def IsOp (r : Registration) (op : PendingOp κ) : Prop :=
  op.id = r.op ∧ op.continuation = .timeout r.timer

/-- An operation that was refused is nowhere, and is not used again. -/
def Refused (s : EventLoop σ κ) (r : Registration) : Prop :=
  r.op < s.nextOpId ∧ (2 ^ 64 ≤ r.delay → r.op ∉ s.ids)

/-- The timeouts that came after `s`: those with a proper delay wait. -/
structure Accounts (s s' : EventLoop σ κ) : Prop where
  refused : ∀ r ∈ s'.registered, s'.Refused r
  waits : ∀ r ∈ s'.registered, r ∈ s.registered ∨
    (r.delay < 2 ^ 64 → ∃ op ∈ s'.pendingOps, IsOp r op)

lemma registered_createPendingOp (s : EventLoop σ κ) (delay : ℕ) (continuation : Continuation κ) :
    (s.createPendingOp delay continuation).registered = s.registered := by
  simp only [createPendingOp]
  split_ifs <;> rfl

lemma Refused.createPendingOp (h : s.Refused r) (delay : ℕ) (continuation : Continuation κ) :
    (s.createPendingOp delay continuation).Refused r := by
  constructor
  · rw [nextOpId_createPendingOp]
    exact Nat.lt_succ_of_lt h.1
  · intro hlong
    rw [ids_createPendingOp, List.mem_append, not_or]
    refine ⟨h.2 hlong, ?_⟩
    split_ifs
    · rw [List.mem_singleton]
      exact Nat.ne_of_lt h.1
    · exact List.not_mem_nil

lemma Accounts.createPendingOp (h : Accounts s s') (delay : ℕ) (continuation : Continuation κ) :
    Accounts s (s'.createPendingOp delay continuation) := by
  have hsubset := (registers_createPendingOp s' delay continuation).pendingOps_subset
  constructor
  · intro r hr
    rw [registered_createPendingOp] at hr
    exact (h.refused r hr).createPendingOp delay continuation
  · intro r hr
    rw [registered_createPendingOp] at hr
    refine (h.waits r hr).imp id fun hwaits hfits => ?_
    obtain ⟨op, hop, hisOp⟩ := hwaits hfits
    exact ⟨op, hsubset hop, hisOp⟩

lemma Accounts.setTimeout (h : Accounts s s') (hordered : s'.Ordered) (callback : κ) (delay : ℕ) :
    Accounts s (s'.setTimeout callback delay) := by
  have hregistered : (s'.setTimeout callback delay).registered =
      s'.registered ++ [{ op := s'.nextOpId, timer := s'.nextTimerId, delay }] :=
    registered_createPendingOp _ _ _
  have hentered : Accounts s (s'.enterTimer callback) := ⟨h.1, h.2⟩
  have hold := hentered.createPendingOp delay (.timeout s'.nextTimerId)
  constructor
  · intro r hr
    rw [hregistered, List.mem_append] at hr
    rcases hr with hr | hr
    · have hentered : ((s'.recordTimeout s'.nextTimerId delay).enterTimer callback).Refused r :=
        h.refused r hr
      exact hentered.createPendingOp delay _
    · obtain rfl := List.mem_singleton.mp hr
      refine ⟨?_, fun hlong => ?_⟩
      · rw [EventLoop.setTimeout, nextOpId_createPendingOp]
        exact Nat.lt_succ_self _
      · rw [EventLoop.setTimeout, ids_createPendingOp, if_neg (Nat.not_lt.mpr hlong),
          List.append_nil]
        exact fun hmem => lt_irrefl _ (hordered.fresh _ hmem)
  · intro r hr
    rw [hregistered, List.mem_append] at hr
    rcases hr with hr | hr
    · refine (h.waits r hr).imp id fun hwaits hfits => ?_
      obtain ⟨op, hop, hisOp⟩ := hwaits hfits
      exact ⟨op, (registers_createPendingOp _ _ _).pendingOps_subset hop, hisOp⟩
    · obtain rfl := List.mem_singleton.mp hr
      right
      intro hfits
      simp only [EventLoop.setTimeout, EventLoop.createPendingOp, if_pos hfits]
      exact ⟨_, List.mem_append_right _ List.mem_cons_self, rfl, rfl⟩

lemma Accounts.perform (h : Accounts s s') (hordered : s'.Ordered) (action : Action κ) :
    Accounts s (s'.perform action) := by
  cases action with
  | setTimeout callback delay => exact h.setTimeout hordered callback delay
  | setInterval callback delay =>
    have hentered : Accounts s (s'.enterTimer callback) := ⟨h.1, h.2⟩
    exact hentered.createPendingOp delay _
  | clearTimeout timer =>
    simp only [EventLoop.perform, clearTimeout]
    split
    · exact ⟨h.1, h.2⟩
    · exact h
  | sleep delay callback => exact h.createPendingOp delay _

lemma Accounts.execute (h : Accounts s s') (hordered : s'.Ordered) (actions : List (Action κ)) :
    Accounts s (s'.execute actions) := by
  have hboth : (s'.execute actions).Ordered ∧ Accounts s (s'.execute actions) := by
    refine execute_induction (I := fun s' => s'.Ordered ∧ Accounts s s') ⟨hordered, h⟩ ?_
    intro s' action h
    exact ⟨h.1.registers (registers_perform s' action), h.2.perform h.1 action⟩
  exact hboth.2

lemma Accounts.runCallback (h : Accounts s s') (hordered : s'.Ordered) (callback : κ) :
    Accounts s (s'.runCallback p callback).2 := by
  have hmemory : Accounts s { s' with memory := (p.body callback s'.clock s'.memory).2.2 } :=
    ⟨h.1, h.2⟩
  exact hmemory.execute (hordered.of_sublist (.refl _) rfl) _

lemma Refused.of_sublist (h : s.Refused r) (hids : s'.ids.Sublist s.ids)
    (hnext : s'.nextOpId = s.nextOpId) : s'.Refused r :=
  ⟨hnext ▸ h.1, fun hlong hmem => h.2 hlong (hids.subset hmem)⟩

lemma Accounts.resolve (h : Accounts s s') (hordered : s'.Ordered)
    (hrecorded : Accounts s (s'.record op start)) (hordered' : (s'.record op start).Ordered) :
    Accounts s (s'.resolve p op start) := by
  unfold EventLoop.resolve
  split
  · split
    · have hrun := hrecorded.runCallback (p := p) hordered'
      dsimp only
      split_ifs
      · exact ⟨(hrun _).1, (hrun _).2⟩
      · exact hrun _
    · exact ⟨h.1, h.2⟩
  · split
    · dsimp only
      split_ifs
      · exact (hrecorded.runCallback hordered' _).createPendingOp _ _
      · exact hrecorded.runCallback hordered' _
    · exact ⟨h.1, h.2⟩
  · exact h.runCallback hordered _

lemma Refused.registers (h : s.Refused r) (hreg : Registers s s') : s'.Refused r :=
  hreg.invariant (I := fun s => s.Refused r) h
    (fun _ _ hquiet h => h.of_sublist (hquiet.ids_eq ▸ .refl _) hquiet.nextOpId)
    fun _ delay continuation h => h.createPendingOp delay continuation

lemma Refused.step (h : s.Refused r) : (s.step p).Refused r := by
  rcases step_cases p s with ⟨hbatch, hstep⟩ | ⟨op, batch, hbatch, hreg | hreg⟩
  · rw [hstep]
    exact h.of_sublist (ids_takePendingOps hbatch ▸ .refl _) rfl
  · exact Refused.registers (h.of_sublist (ids_slept hbatch) rfl) hreg
  · have hrecorded : ((s.slept op batch).record op s.clock).Refused r :=
      h.of_sublist (ids_record_slept hbatch ▸ .refl _) rfl
    exact hrecorded.registers hreg

/-- What is registered in a step waits afterwards. -/
lemma accounts_step (hordered : s.Ordered) (h : ∀ r ∈ s.registered, s.Refused r) :
    Accounts s (s.step p) := by
  unfold EventLoop.step
  split
  · rename_i op batch hbatch
    refine Accounts.resolve ⟨fun r hr => ?_, fun r hr => .inl hr⟩ ?_
      ⟨fun r hr => ?_, fun r hr => .inl hr⟩ ?_
    · exact (h r hr).of_sublist (ids_slept hbatch) rfl
    · exact hordered.of_sublist (ids_slept hbatch) rfl
    · exact (h r hr).of_sublist (ids_record_slept hbatch ▸ .refl _) rfl
    · exact hordered.of_sublist (ids_record_slept hbatch ▸ .refl _) rfl
  · rename_i hbatch
    refine ⟨fun r hr => (h r hr).of_sublist ?_ rfl, fun r hr => .inl hr⟩
    rw [ids_takePendingOps hbatch]

end EventLoop

end AmlaSandbox.Node
