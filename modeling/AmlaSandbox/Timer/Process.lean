import AmlaSandbox.Host.Reply
import AmlaSandbox.Timer.Firing

/-!
# The loop of `process`

Every turn of the loop that is followed by another one either gives up `WakeAt`, requests it, or
uses room in the queue of the host, so that the loop ends.
-/

namespace AmlaSandbox.Timer

open Async Library Host

namespace TimerStateInner

variable {Q : MinHeap TimerEntry TimerEntry.deadline} {willWake : Waker → Waker → Bool}
  {t : TimerStateInner Q} {waker : Waker}

lemma host_setWakeAt_idle (h : t.wakeAtState = .idle) (state : WakeAtState) :
    (t.setWakeAt state).host = t.host := by
  rw [setWakeAt, h]

lemma host_setWakeAt_pending {d : TimeNanos} {i : Nat} (h : t.wakeAtState = .pending d i)
    (state : WakeAtState) : (t.setWakeAt state).host = t.host.dropFuture i := by
  rw [setWakeAt, h]

lemma host_requestWakeAt_idle (h : t.wakeAtState = .idle) (deadline : TimeNanos) :
    (t.requestWakeAt deadline).host = t.host.createFuture (.wakeAt deadline) :=
  host_setWakeAt_idle (t := { t with host := t.host.createFuture (.wakeAt deadline) }) h _

lemma host_requestWakeAt_pending {d : TimeNanos} {i : Nat} (h : t.wakeAtState = .pending d i)
    (deadline : TimeNanos) : (t.requestWakeAt deadline).host =
      (t.host.createFuture (.wakeAt deadline)).dropFuture i :=
  host_setWakeAt_pending (t := { t with host := t.host.createFuture (.wakeAt deadline) }) h _

lemma answered_frame (result : HostResult) :
    (t.answered result).wakeAtState = .idle ∧
      (t.answered result).host = (t.setWakeAt .idle).host := by
  cases result with
  | ok bytes =>
    obtain ⟨hstate, hhost⟩ := t.fireExpired_frame (replyTime bytes)
    refine ⟨rfl, ?_⟩
    rw [answered, setWakeAt, setWakeAt, hstate, hhost]
  | error e => exact ⟨rfl, rfl⟩

lemma turns_eq : t.turns = 2 * t.host.room +
    match t.wakeAtState with
    | .idle => 2
    | .pending _ future =>
      match t.host.futures[future]?.map HostOpFuture.state with
      | some (.pending _) => 1
      | _ => 3 := rfl

lemma turns_pos : 0 < t.turns := by
  rw [turns]
  split
  · omega
  · split <;> omega

/-- There are fewer turns left after a turn that is followed by another. -/
lemma turns_turn (h : (t.turn willWake waker).1 = true) :
    (t.turn willWake waker).2.turns < t.turns := by
  cases hstate : t.wakeAtState with
  | idle =>
    cases hpeek : Q.peek t.heap with
    | none =>
      rw [turn, hstate] at h
      simp [hpeek] at h
    | some entry =>
      have heq : (t.turn willWake waker).2 = t.requestWakeAt entry.deadline := by
        rw [turn, hstate]
        simp [hpeek]
      rw [heq, turns, turns, host_requestWakeAt_idle hstate, hstate]
      simp [requestWakeAt, setWakeAt, Host.Machine.createFuture]
  | pending d i =>
    cases hresult : (t.host.pollFuture willWake i waker).1 with
    | pending =>
      rw [turn, hstate] at h
      simp [hresult] at h
    | ready result =>
      obtain ⟨t', heq, hidle, hroom⟩ : ∃ t', (t.turn willWake waker).2 = t' ∧
          t'.wakeAtState = .idle ∧
          t'.host.room = (t.host.pollFuture willWake i waker).2.room := by
        set host := (t.host.pollFuture willWake i waker).2 with hhost
        obtain ⟨hidle, hhost'⟩ := answered_frame (t := { t with host }) result
        refine ⟨{ t with host }.answered result, ?_, hidle, ?_⟩
        · rw [turn, hstate]
          simp [hresult, hhost]
        · rw [hhost', host_setWakeAt_pending (t := { t with host }) hstate]
          exact Host.Machine.room_dropFuture host i
      obtain ⟨f, hf, ⟨⟨kind, hkind⟩, hless⟩ | ⟨hkind, hsame⟩⟩ :=
        Host.Machine.room_pollFuture hresult
      · rw [heq, turns_eq, turns_eq, hidle, hstate, hroom]
        simp only [hf, Option.map_some, hkind]
        omega
      · rw [heq, turns_eq, turns_eq, hidle, hstate, hroom, hsame]
        simp only [hf, Option.map_some]
        cases hf' : f.state with
        | pending kind => exact absurd hf' (hkind kind)
        | submitted | done => exact Nat.lt_succ_self _

lemma processLoop_eq {n k : Nat} (hn : t.turns ≤ n) (hk : t.turns ≤ k) :
    t.processLoop willWake waker n = t.processLoop willWake waker k := by
  induction n generalizing t k with
  | zero => exact absurd hn (Nat.not_le.mpr turns_pos)
  | succ n ih =>
    cases k with
    | zero => exact absurd hk (Nat.not_le.mpr turns_pos)
    | succ k =>
      rw [processLoop, processLoop]
      dsimp only
      split_ifs with hmore
      · have hless := turns_turn hmore
        exact ih (by omega) (by omega)
      · rfl

/-- `process` takes turns until one is not followed by another. -/
theorem process_turn (t : TimerStateInner Q) : t.process willWake waker =
    if (t.turn willWake waker).1 then (t.turn willWake waker).2.process willWake waker
    else (t.turn willWake waker).2 := by
  obtain ⟨n, hn⟩ := Nat.exists_eq_succ_of_ne_zero (Nat.pos_iff_ne_zero.mp (turns_pos (t := t)))
  rw [process, hn, processLoop]
  dsimp only
  split_ifs with hmore
  · have hless := turns_turn hmore
    exact processLoop_eq (by omega) (Nat.le_refl _)
  · rfl

end TimerStateInner

end AmlaSandbox.Timer
