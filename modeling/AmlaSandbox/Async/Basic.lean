import Mathlib.Data.List.Basic
import Mathlib.Data.List.Nodup
import Mathlib.Data.List.Perm.Basic
import Mathlib.Tactic.Common

/-!
# Polling, waking and waiting for room

What futures share: the result of a poll, wakers, errors of I/O, and the record of a poll that
returned `Pending`. A waker is numbered by the task it wakes, so that two wakers are equal when
they wake the same task.

Polls that find no room park, and their wakers are kept in a list; as room is made, the wakers of
the list are woken one at a time. No wakeup is lost as long as every waker in the list is that of a
waiter, and the waiters whose wakers are no longer in the list are enough to use the room.
-/

namespace AmlaSandbox.Async

/-! ## Polling and waking -/

inductive Poll (α : Type*)
  | pending
  | ready (value : α)
deriving DecidableEq

/-- A waker, by the task it schedules. -/
abbrev Waker := Nat

/-- `will_wake` -/
def Waker.willWake (waker other : Waker) : Bool := waker == other

inductive ErrorKind
  | notFound
  | permissionDenied
  | connectionRefused
  | connectionReset
  | connectionAborted
  | alreadyExists
  | brokenPipe
  | wouldBlock
  | invalidInput
  | invalidData
  | timedOut
  | interrupted
  | unsupported
  | outOfMemory
  | other
deriving DecidableEq

structure IoError where
  kind : ErrorKind
  message : String
deriving DecidableEq

abbrev IoResult (α : Type*) := Except IoError α

/-- Put a waker into a slot, unless the waker in it wakes the same task already. -/
def register (slot : Option Waker) (waker : Waker) : Option Waker :=
  if slot.all (fun w => !w.willWake waker) then some waker else slot

/-- Either way the slot wakes the task that registered. -/
@[simp] lemma register_eq (slot : Option Waker) (waker : Waker) :
    register slot waker = some waker := by
  cases slot with
  | none => rfl
  | some w =>
    by_cases h : w = waker
    · simp [register, Waker.willWake, h]
    · simp [register, Waker.willWake, h]

/-! ### Parked polls -/

/-- A poll that returned `Pending`: the waker it registered, and how many wake-ups had been made by
then. -/
structure Parked where
  waker : Waker
  since : Nat
deriving DecidableEq

/-- The waker of a parked poll has been woken since the poll. -/
def Parked.Woken (parked : Parked) (woken : List Waker) : Prop :=
  parked.waker ∈ woken.drop parked.since

instance (parked : Parked) (woken : List Waker) : Decidable (parked.Woken woken) :=
  inferInstanceAs (Decidable (_ ∈ _))

lemma Parked.Woken.append {parked : Parked} {woken : List Waker} (h : parked.Woken woken)
    (more : List Waker) : parked.Woken (woken ++ more) := by
  rw [Parked.Woken, List.drop_append]
  exact List.mem_append_left _ h

lemma Parked.woken_append_of_mem {parked : Parked} {woken more : List Waker}
    (hsince : parked.since ≤ woken.length) (h : parked.waker ∈ more) :
    parked.Woken (woken ++ more) := by
  rw [Parked.Woken, List.drop_append_of_le_length hsince]
  exact List.mem_append_right _ h

/-- A parked poll is not forgotten: it was woken, or what would wake it is armed. -/
structure Waits (parked : Parked) (woken : List Waker) (armed : Prop) : Prop where
  since_le : parked.since ≤ woken.length
  woken_or_armed : parked.Woken woken ∨ armed

section

variable {parked : Parked} {woken more : List Waker} {armed armed' : Prop}

lemma waits_now {waker : Waker} (harmed : armed) : Waits ⟨waker, woken.length⟩ woken armed :=
  ⟨Nat.le_refl _, .inr harmed⟩

/-- Wake-ups are made, and what is armed may change if it is not among them. -/
lemma Waits.wake (h : Waits parked woken armed)
    (harmed : ¬ parked.Woken woken → armed → parked.waker ∈ more ∨ armed') :
    Waits parked (woken ++ more) armed' := by
  refine ⟨by rw [List.length_append]; exact Nat.le_add_right_of_le h.since_le, ?_⟩
  by_cases hwoken : parked.Woken woken
  · exact .inl (hwoken.append more)
  · rcases harmed hwoken (h.woken_or_armed.resolve_left hwoken) with hmore | harmed'
    · exact .inl (Parked.woken_append_of_mem h.since_le hmore)
    · exact .inr harmed'

lemma Waits.change (h : Waits parked woken armed)
    (harmed : ¬ parked.Woken woken → armed → armed') : Waits parked woken armed' := by
  have hwake : Waits parked (woken ++ []) armed' :=
    h.wake fun hwoken harm => .inr (harmed hwoken harm)
  rwa [List.append_nil] at hwake

end

/-! ## Waiting for room -/

/-- How many waiters have left the list: they have been woken. -/
def unlisted (wakers : List Waker) (waiters : List Parked) : Nat :=
  waiters.countP fun p => p.waker ∉ wakers

structure WaitList (wakers woken : List Waker) (room : Nat) (waiters : List Parked) : Prop where
  nodup : wakers.Nodup
  owned : ∀ w ∈ wakers, ∃ p ∈ waiters, p.waker = w
  waits : ∀ p ∈ waiters, Waits p woken (p.waker ∈ wakers)
  enough : wakers = [] ∨ room ≤ unlisted wakers waiters

namespace WaitList

variable {wakers wakers' woken more : List Waker} {room room' : Nat}
  {waiters waiters' others : List Parked} {p : Parked} {w : Waker}

/-- If there is room, somebody who waits has been woken. -/
lemma exists_woken (h : WaitList wakers woken room waiters) (hroom : 0 < room)
    (hwaiters : waiters ≠ []) : ∃ p ∈ waiters, p.Woken woken := by
  obtain ⟨p, hp, hnot⟩ : ∃ p ∈ waiters, p.waker ∉ wakers := by
    rcases h.enough with rfl | henough
    · obtain ⟨p, hp⟩ := List.exists_mem_of_ne_nil waiters hwaiters
      exact ⟨p, hp, List.not_mem_nil⟩
    · obtain ⟨p, hp, hnot⟩ := List.countP_pos_iff.mp (Nat.lt_of_lt_of_le hroom henough)
      exact ⟨p, hp, of_decide_eq_true hnot⟩
  exact ⟨p, hp, (h.waits p hp).woken_or_armed.resolve_right hnot⟩

lemma empty (room : Nat) : WaitList [] woken room [] :=
  ⟨List.nodup_nil, by simp, by simp, .inl rfl⟩

lemma perm (h : WaitList wakers woken room waiters) (hperm : waiters.Perm waiters') :
    WaitList wakers woken room waiters' where
  nodup := h.nodup
  owned w hw := by
    obtain ⟨p, hp, hwaker⟩ := h.owned w hw
    exact ⟨p, hperm.mem_iff.mp hp, hwaker⟩
  waits p hp := h.waits p (hperm.mem_iff.mpr hp)
  enough := by
    rw [unlisted, ← hperm.countP_eq]
    exact h.enough

lemma mono (h : WaitList wakers woken room waiters) (hroom : room' ≤ room) :
    WaitList wakers woken room' waiters :=
  ⟨h.nodup, h.owned, h.waits, h.enough.imp_right fun henough => Nat.le_trans hroom henough⟩

/-- Other wake-ups do no harm. -/
lemma wake (h : WaitList wakers woken room waiters) (more : List Waker) :
    WaitList wakers (woken ++ more) room waiters :=
  ⟨h.nodup, h.owned, fun p hp => (h.waits p hp).wake fun _ harmed => .inr harmed, h.enough⟩

lemma unlisted_lt (hnot : w ∉ wakers) (hp : p ∈ waiters) (hwaker : p.waker = w) :
    unlisted (w :: wakers) waiters < unlisted wakers waiters := by
  have hsplit : unlisted wakers waiters =
      unlisted (w :: wakers) waiters + waiters.countP fun p => p.waker = w := by
    clear hp
    induction waiters with
    | nil => rfl
    | cons q waiters ih =>
      simp only [unlisted] at ih
      simp only [unlisted, List.countP_cons, ih]
      by_cases hq : q.waker = w
      · simp [hq, hnot]
        omega
      · simp [hq]
        omega
  have hpos : 0 < waiters.countP fun p => p.waker = w :=
    List.countP_pos_iff.mpr ⟨p, hp, decide_eq_true hwaker⟩
  omega

/-- Room is made, and the first of the list is woken. -/
lemma pop (h : WaitList wakers woken room waiters) :
    WaitList wakers.tail (woken ++ wakers.head?.toList) (room + 1) waiters := by
  cases wakers with
  | nil => exact ⟨List.nodup_nil, by simp, (h.wake []).waits, .inl rfl⟩
  | cons w wakers =>
    obtain ⟨hnot, hnodup⟩ := List.nodup_cons.mp h.nodup
    obtain ⟨p, hp, hwaker⟩ := h.owned w List.mem_cons_self
    refine ⟨hnodup, fun w' hw' => h.owned w' (List.mem_cons_of_mem w hw'), fun q hq => ?_, .inr ?_⟩
    · apply (h.waits q hq).wake
      intro _ harmed
      rcases List.mem_cons.mp harmed with hq' | hq'
      · exact .inl (List.mem_singleton.mpr hq')
      · exact .inr hq'
    · have henough := h.enough.resolve_left (List.cons_ne_nil w wakers)
      exact Nat.succ_le_of_lt (Nat.lt_of_le_of_lt henough (unlisted_lt hnot hp hwaker))

lemma unlisted_cons : unlisted wakers (p :: others) =
    unlisted wakers others + if p.waker ∈ wakers then 0 else 1 := by
  rw [unlisted, List.countP_cons, unlisted]
  by_cases hp : p.waker ∈ wakers <;> simp [hp]

/-- One of the waiters no longer waits. -/
lemma leave (h : WaitList wakers woken room (p :: others))
    (hshared : p.waker ∈ wakers → ∃ q ∈ others, q.waker = p.waker)
    (henough : wakers = [] ∨ room' ≤ unlisted wakers others) :
    WaitList wakers woken room' others := by
  refine ⟨h.nodup, fun w hw => ?_, fun q hq => h.waits q (List.mem_cons_of_mem p hq), henough⟩
  obtain ⟨q, hq, rfl⟩ := h.owned w hw
  rcases List.mem_cons.mp hq with rfl | hq
  · exact hshared hw
  · exact ⟨q, hq, rfl⟩

/-- Without room, a poll parks, perhaps one that waited before; its waker is put into the list if it
is not there. -/
lemma park {old : Option Parked} (h : WaitList wakers woken 0 (old.toList ++ others))
    (hshared : ∀ p, old = some p → p.waker ≠ w → p.waker ∈ wakers →
      ∃ q ∈ others, q.waker = p.waker)
    (hwakers : wakers' = wakers ∧ w ∈ wakers ∨ wakers' = wakers ++ [w] ∧ w ∉ wakers) :
    WaitList wakers' woken 0 (⟨w, woken.length⟩ :: others) := by
  have hmem : w ∈ wakers' ∧ ∀ w' ∈ wakers, w' ∈ wakers' := by
    rcases hwakers with ⟨rfl, hw⟩ | ⟨rfl, _⟩
    · exact ⟨hw, fun _ hw' => hw'⟩
    · exact ⟨by simp, fun _ hw' => List.mem_append_left _ hw'⟩
  refine ⟨?_, fun w' hw' => ?_, fun q hq => ?_, .inr (Nat.zero_le _)⟩
  · rcases hwakers with ⟨rfl, _⟩ | ⟨rfl, hw⟩
    · exact h.nodup
    · refine List.nodup_append.mpr ⟨h.nodup, List.nodup_singleton w, ?_⟩
      rintro a ha _ hb rfl
      exact hw (List.mem_singleton.mp hb ▸ ha)
  · by_cases hw : w' = w
    · exact ⟨_, List.mem_cons_self, hw.symm⟩
    · have hold : w' ∈ wakers := by
        rcases hwakers with ⟨rfl, _⟩ | ⟨rfl, _⟩
        · exact hw'
        · simpa [hw] using hw'
      obtain ⟨q, hq, rfl⟩ := h.owned w' hold
      rcases List.mem_append.mp hq with hq | hq
      · obtain ⟨q', hq', hwaker⟩ := hshared q (Option.mem_toList.mp hq) hw hold
        exact ⟨q', List.mem_cons_of_mem _ hq', hwaker⟩
      · exact ⟨q, List.mem_cons_of_mem _ hq, rfl⟩
  · rcases List.mem_cons.mp hq with rfl | hq
    · exact waits_now hmem.1
    · exact (h.waits q (List.mem_append_right _ hq)).change fun _ harmed => hmem.2 _ harmed

end WaitList

end AmlaSandbox.Async
