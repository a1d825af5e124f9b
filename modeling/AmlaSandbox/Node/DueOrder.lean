import AmlaSandbox.Node.Timeouts

/-!
# Timers in the order of their due times

Each operation comes to the head of the batch, where the callback of its timer is called. That the
calls are in the order of the due times is left to the program.
-/

namespace AmlaSandbox.Node

variable {σ κ : Type*} {p : Program σ κ} {clock : TimeNanos} {s : EventLoop σ κ}
  {op : PendingOp κ} {n : ℕ} {batch : List (PendingOp κ)} {r : Registration}

namespace EventLoop

/-! ### One step -/

lemma step_cons (hbatch : s.batch = op :: batch) :
    (s.step p).batch = batch ∧ s.pendingOps ⊆ (s.step p).pendingOps ∧
      s.calls <+: (s.step p).calls := by
  rcases step_cases p s with ⟨hnil, _⟩ | ⟨op', batch', hcons, hreg⟩
  · rw [hnil] at hbatch
    cases hbatch
  · obtain ⟨rfl, rfl⟩ := List.cons_eq_cons.mp (hcons.symm.trans hbatch)
    rcases hreg with hreg | hreg
    · exact ⟨hreg.batch_eq, hreg.pendingOps_subset, hreg.calls_eq ▸ List.prefix_refl s.calls⟩
    · exact ⟨hreg.batch_eq, hreg.pendingOps_subset, hreg.calls_eq ▸ List.prefix_append s.calls _⟩

lemma calls_step (s : EventLoop σ κ) : s.calls <+: (s.step p).calls := by
  cases hbatch : s.batch with
  | cons op batch => exact (step_cons hbatch).2.2
  | nil =>
    rw [step, hbatch]
    exact List.prefix_refl _

/-- The callback of a timeout at the head is called. -/
lemma exists_call (hbatch : s.batch = op :: batch) (hisOp : IsOp r op)
    (hcallback : (s.callback? r.timer).isSome) : ∃ call ∈ (s.step p).calls, call.op = r.op := by
  obtain ⟨callback, hcallback⟩ := Option.isSome_iff_exists.mp hcallback
  have hsame : (s.slept op batch).callback? r.timer = some callback := hcallback
  have hstep : s.step p = (s.slept op batch).resolve p op s.clock := by
    rw [step, hbatch]
    rfl
  have hcalls : (s.step p).calls = ((s.slept op batch).record op s.clock).calls := by
    rw [hstep, resolve, hisOp.2]
    dsimp only
    rw [hsame]
    dsimp only
    split_ifs
    · exact (registers_runCallback _ _).calls_eq
    · exact (registers_runCallback _ _).calls_eq
  rw [hcalls]
  exact ⟨_, List.mem_append_right _ List.mem_cons_self, hisOp.1⟩

end EventLoop

/-- The sleep ends within the range of the clock, or its timer was due when it began. -/
def Call.Fits (call : Call) : Prop :=
  call.start.toNat + millisToNanos call.delayMs.toNat < 2 ^ 64 ∨ call.due ≤ call.start.toNat

namespace Program

open EventLoop

/-! ### All steps -/

theorem entered_run (p : Program σ κ) (clock : TimeNanos) (n : ℕ) : (p.run clock n).Entered := by
  induction n with
  | zero =>
    have hmain : Entered (({ clock, memory := p.memory } : EventLoop σ κ).execute p.main) :=
      execute_induction ⟨by simp [timersOf, waiting], by simp [timersOf, waiting],
        by simp [timersOf, waiting]⟩ fun _ action h => h.perform action
    rw [run, Function.iterate_zero, id_eq, start]
    generalize EventLoop.execute _ p.main = s at hmain ⊢
    have htimers : s.takePendingOps.timersOf.Sublist s.timersOf := by
      rw [timersOf, timersOf, waiting, waiting, takePendingOps, List.append_nil]
      exact (List.sublist_append_right _ _).filterMap _
    exact ⟨fun timer htimer => hmain.1 timer (htimers.subset htimer),
      fun timer htimer => hmain.2 timer (htimers.subset htimer), hmain.3.sublist htimers⟩
  | succ n ih =>
    rw [run_succ]
    exact ih.step

/-- The timeouts of the main program. -/
lemma accounts_start (p : Program σ κ) (clock : TimeNanos) :
    (∀ r ∈ (p.start clock).registered, (p.start clock).Refused r) ∧
      ∀ r ∈ (p.start clock).registered, r.delay < 2 ^ 64 →
        ∃ op ∈ (p.start clock).waiting, IsOp r op := by
  have hmain : Accounts ({ clock, memory := p.memory } : EventLoop σ κ)
      (({ clock, memory := p.memory } : EventLoop σ κ).execute p.main) :=
    Accounts.execute ⟨by simp, by simp⟩ ⟨List.Pairwise.nil, by simp [ids, waiting]⟩ _
  rw [start]
  generalize EventLoop.execute _ p.main = s at hmain ⊢
  constructor
  · intro r hr
    refine (hmain.refused r hr).of_sublist ?_ rfl
    rw [ids, ids, waiting, waiting, takePendingOps, List.append_nil]
    exact ((List.sublist_append_right _ _).map _).append_left _
  · intro r hr hfits
    rcases hmain.waits r hr with hold | hwaits
    · cases hold
    · obtain ⟨op, hop, hisOp⟩ := hwaits hfits
      exact ⟨op, List.mem_append_left _ hop, hisOp⟩

theorem refused_run (p : Program σ κ) (clock : TimeNanos) (n : ℕ) :
    ∀ r ∈ (p.run clock n).registered, (p.run clock n).Refused r := by
  induction n with
  | zero => exact (p.accounts_start clock).1
  | succ n ih =>
    rw [run_succ]
    exact (accounts_step (p.ordered_run clock n) ih).refused

/-- A timeout with a proper delay waits once it is registered. -/
lemma exists_waiting (hr : r ∈ (p.run clock n).registered) (hfits : r.delay < 2 ^ 64) :
    ∃ m, ∃ op ∈ (p.run clock m).waiting, IsOp r op := by
  induction n with
  | zero => exact ⟨0, (p.accounts_start clock).2 r hr hfits⟩
  | succ n ih =>
    rw [run_succ] at hr
    have haccounts := accounts_step (p := p) (p.ordered_run clock n) (p.refused_run clock n)
    rcases haccounts.waits r hr with hold | hwaits
    · exact ih hold
    · obtain ⟨op, hop, hisOp⟩ := hwaits hfits
      exact ⟨n + 1, op, run_succ p clock n ▸ List.mem_append_right _ hop, hisOp⟩

/-- What precedes an operation of a batch is served before it. -/
lemma exists_head_of_batch {before after : List (PendingOp κ)}
    (hbatch : (p.run clock n).batch = before ++ op :: after) :
    ∃ m batch, (p.run clock m).batch = op :: batch := by
  induction before generalizing n with
  | nil => exact ⟨n, after, hbatch⟩
  | cons first before ih =>
    apply ih (n := n + 1)
    rw [run_succ]
    exact (step_cons hbatch).1

/-- Once the batch is served, an operation that waits behind it is in the next one. -/
lemma exists_mem_batch (hop : op ∈ (p.run clock n).pendingOps) :
    ∃ m, op ∈ (p.run clock m).batch := by
  generalize hbatch : (p.run clock n).batch = batch
  induction batch generalizing n with
  | nil =>
    refine ⟨n + 1, ?_⟩
    rw [run_succ, step, hbatch]
    exact hop
  | cons first batch ih =>
    obtain ⟨hrest, hsubset, _⟩ := step_cons (p := p) hbatch
    rw [← run_succ] at hrest hsubset
    exact ih (hsubset hop) hrest

/-- Every waiting operation comes to the head of the batch. -/
theorem exists_head (hop : op ∈ (p.run clock n).waiting) :
    ∃ m batch, (p.run clock m).batch = op :: batch := by
  have hmem : ∃ m, op ∈ (p.run clock m).batch := by
    rcases List.mem_append.mp hop with hop | hop
    · exact ⟨n, hop⟩
    · exact exists_mem_batch hop
  obtain ⟨m, hmem⟩ := hmem
  obtain ⟨before, after, hbatch⟩ := List.append_of_mem hmem
  exact exists_head_of_batch hbatch

lemma calls_mono {m : ℕ} (h : n ≤ m) : (p.run clock n).calls <+: (p.run clock m).calls := by
  induction h with
  | refl => exact List.prefix_refl _
  | step _ ih =>
    rw [run_succ]
    exact ih.trans (calls_step _)

lemma refused_of_le {m : ℕ} (h : (p.run clock n).Refused r) (hle : n ≤ m) :
    (p.run clock m).Refused r := by
  induction hle with
  | refl => exact h
  | step _ ih =>
    rw [run_succ]
    exact ih.step

/-! ### Timers -/

/-- In order of their due times, and of their registration where these are equal. -/
def InDueOrder (calls : List Call) : Prop :=
  calls.Pairwise fun a b => a.due < b.due ∨ a.due = b.due ∧ a.op < b.op

/-- Of two timers that are called, the one that was registered first is not due later. -/
def RegistersInDueOrder (p : Program σ κ) (clock : TimeNanos) : Prop :=
  ∀ n, ∀ a ∈ (p.run clock n).calls, ∀ b ∈ (p.run clock n).calls, a.op < b.op → a.due ≤ b.due

/-- The timeout is not cleared while its operation waits. -/
def Uncleared (p : Program σ κ) (clock : TimeNanos) (r : Registration) : Prop :=
  ∀ n, (∃ op ∈ (p.run clock n).waiting, op.id = r.op) →
    ∀ t, (p.run clock n).timers.lookup r.timer = some t → t.cancelled = false

/-- The callback of the timeout is called once, and never again. -/
def FiresOnce (p : Program σ κ) (clock : TimeNanos) (r : Registration) : Prop :=
  ∃ m, ∀ n ≥ m, ((p.run clock n).calls.map (·.op)).count r.op = 1

/-- Calls are in the order of registration, so only the due times are left to compare. -/
lemma inDueOrder_iff (p : Program σ κ) (clock : TimeNanos) :
    (∀ n, InDueOrder (p.run clock n).calls) ↔ p.RegistersInDueOrder clock := by
  have hsorted (n : ℕ) : (p.run clock n).calls.Pairwise fun a b => a.op < b.op :=
    List.pairwise_map.mp (List.pairwise_append.mp (p.ordered_run clock n).sorted).1
  constructor
  · intro h n a ha b hb hlt
    -- a pair that comes in the other order in the list is not ordered by its operations
    have hforth : (p.run clock n).calls.Pairwise fun a b => a.op < b.op → a.due ≤ b.due :=
      (h n).imp fun hab _ => hab.elim Nat.le_of_lt fun heq => Nat.le_of_eq heq.1
    have hback : (p.run clock n).calls.Pairwise (flip fun a b => a.op < b.op → a.due ≤ b.due) :=
      (hsorted n).imp fun hlt hgt => absurd hlt (Nat.lt_asymm hgt)
    exact hforth.forall_of_forall_of_flip (fun _ _ _ => le_rfl) hback ha hb hlt
  · intro h n
    refine (hsorted n).imp_of_mem fun {a b} ha hb hlt => ?_
    rcases Nat.lt_or_eq_of_le (h n a ha b hb hlt) with hdue | hdue
    · exact .inl hdue
    · exact .inr ⟨hdue, hlt⟩

lemma due_le_time_iff {call : Call} (hcall : call ∈ (p.run clock n).calls) :
    call.due ≤ call.time.toNat ↔ call.Fits := by
  obtain ⟨⟨hdelay, hdue⟩, htime⟩ := (p.dated_run clock n).calls call hcall
  rw [htime, due_le_wakeTime_iff hdelay hdue]
  rfl

lemma firesOnce_of_mem {call : Call} (hcall : call ∈ (p.run clock n).calls)
    (hop : call.op = r.op) : p.FiresOnce clock r := by
  refine ⟨n, fun m hm => List.count_eq_one_of_mem ?_ ?_⟩
  · have hsorted := (List.pairwise_append.mp (p.ordered_run clock m).sorted).1
    exact hsorted.imp fun hlt => Nat.ne_of_lt hlt
  · exact List.mem_map.mpr ⟨call, (calls_mono hm).subset hcall, hop⟩

lemma firesOnce_iff (hr : r ∈ (p.run clock n).registered) (huncleared : p.Uncleared clock r) :
    p.FiresOnce clock r ↔ r.delay < 2 ^ 64 := by
  constructor
  · rintro ⟨m, honce⟩
    by_contra hlong
    have hcount := honce (max m n) (le_max_left m n)
    have hmem := List.count_pos_iff.mp (hcount ▸ Nat.one_pos)
    have hrefused := refused_of_le (p.refused_run clock n r hr) (le_max_right m n)
    exact hrefused.2 (Nat.not_lt.mp hlong) (List.mem_append_left _ hmem)
  · intro hfits
    obtain ⟨m, op, hop, hisOp⟩ := exists_waiting hr hfits
    obtain ⟨k, batch, hbatch⟩ := exists_head hop
    have hwaiting : op ∈ (p.run clock k).waiting := by
      rw [waiting, hbatch]
      exact List.mem_cons_self
    have hentry : r.timer ∈ (p.run clock k).timers := by
      apply (p.entered_run clock k).entry
      exact List.mem_filterMap.mpr ⟨op, hwaiting, by rw [hisOp.2]; rfl⟩
    obtain ⟨t, ht⟩ := Option.isSome_iff_exists.mp (AList.lookup_isSome.mpr hentry)
    have hnotCancelled := huncleared k ⟨op, hwaiting, hisOp.1⟩ t ht
    have hcallback : ((p.run clock k).callback? r.timer).isSome := by
      simp [callback?, ht, hnotCancelled]
    obtain ⟨call, hcall, hcallOp⟩ := exists_call (p := p) hbatch hisOp hcallback
    rw [← run_succ] at hcall
    exact firesOnce_of_mem hcall hcallOp

/-- The callbacks run in the order of the due times exactly if the timers are registered in that
order; they are not early exactly if the sleeps fit the clock; and a timeout that is not cleared
fires once exactly if its delay is a `u64`. -/
theorem timers_fire_iff (p : Program σ κ) (clock : TimeNanos) :
    ((∀ n, InDueOrder (p.run clock n).calls) ↔ p.RegistersInDueOrder clock) ∧
      ((∀ n, ∀ call ∈ (p.run clock n).calls, call.due ≤ call.time.toNat) ↔
        ∀ n, ∀ call ∈ (p.run clock n).calls, call.Fits) ∧
      ∀ n, ∀ r ∈ (p.run clock n).registered, p.Uncleared clock r →
        (p.FiresOnce clock r ↔ r.delay < 2 ^ 64) := by
  refine ⟨inDueOrder_iff p clock, ?_, fun n r hr => firesOnce_iff hr⟩
  exact forall_congr' fun n => forall₂_congr fun call hcall => due_le_time_iff hcall

/-- Two timeouts, of which the second one is due first. -/
def laterFirst : Program Unit Unit where
  memory := ()
  main := [.setTimeout () 100, .setTimeout () 50]
  body _ _ _ := ([], true, ())

/-- The timeout of 100 ms is called at 100 ms, and the timeout of 50 ms after it, at 150 ms. -/
theorem not_inDueOrder : ((laterFirst.run 0 2).calls.map fun call => (call.due, call.time)) =
      [(100000000, 100000000), (50000000, 150000000)] ∧
    ¬ ∀ n, InDueOrder (laterFirst.run 0 n).calls := by
  refine ⟨by decide +kernel, fun h => ?_⟩
  have horder := h 2
  revert horder
  unfold InDueOrder
  decide +kernel

end Program

end AmlaSandbox.Node
