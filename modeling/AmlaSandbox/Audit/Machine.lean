import AmlaSandbox.Audit.Contents
import AmlaSandbox.Library.Reachability

/-!
# The audit buffer and its users

The runtime appends entries and the host drains bytes in any order; the level may be set at any
time. A step that would panic has no successor.
-/

namespace AmlaSandbox.Audit

open Library

variable {E : Type*}

/-- The JSONL line of an entry. -/
def EntryFormat.line (format : EntryFormat E) (e : E) : Option (List UInt8) :=
  (format.toVec e).map (· ++ [newline])

/-- `seen` and `fresh` are the lines of the entries accepted before and after the last drain, and
`drained` is all that was drained. The code does not keep these. -/
structure Machine where
  buf : AuditBuffer
  seen : List (List UInt8) := []
  fresh : List (List UInt8) := []
  drained : List UInt8 := []
deriving DecidableEq

inductive Event (E : Type*)
  | append (e : E)
  | drain (outLen : Nat)
  | setLevel (level : LogLevel)

namespace Machine

def new (capacity : Nat) : Machine := { buf := .withCapacity capacity }

variable (format : EntryFormat E) (m : Machine)

/-- All accepted lines. -/
def accepted : List (List UInt8) := m.seen ++ m.fresh

def step : Event E → Option Machine
  | .append e => do
    let (appended, buf) ← m.buf.append format e
    some { m with buf, fresh := m.fresh ++ if appended then (format.line e).toList else [] }
  | .drain outLen => do
    let (bytes, buf) ← m.buf.drain outLen
    some { buf, seen := m.accepted, fresh := [], drained := m.drained ++ bytes }
  | .setLevel level => some { m with buf := { m.buf with level } }

/-- One event that does not panic. -/
def Step (m : Machine) (e : Event E) (m' : Machine) : Prop := m.step format e = some m'

/-- The states of all runs of a new buffer whose events meet a condition. -/
abbrev Reachable (ok : Machine → Event E → Prop) (capacity : Nat) (m : Machine) : Prop :=
  Reach (Step format) ok (new capacity) m

/-- Any event is admitted. -/
def anyEvent (_ : Machine) (_ : Event E) : Prop := True

/-- The state after a list of events, if none of them panics. -/
def run (m : Machine) (events : List (Event E)) : Option Machine := events.foldlM (step format) m

lemma reach_run {format : EntryFormat E} {ok : Machine → Event E → Prop} {m m' : Machine}
    {events : List (Event E)} (h : run format m events = some m')
    (hok : ∀ m, ∀ e ∈ events, ok m e) : Reach (Step format) ok m m' :=
  reach_foldlM (meets_of_forall hok) h

end Machine

/-- The entries of ended sessions, whose ids are single letters. -/
def sessionEnds : EntryFormat ℕ where
  level _ := .info
  toVec k := some (
    [123, 34, 116, 121, 112, 101, 34, 58, 34, 115, 101, 115, 115, 105, 111, 110, 95, 101, 110, 100,
      34, 44, 34, 115, 101, 115, 115, 105, 111, 110, 95, 105, 100, 34, 58, 34] ++
    [UInt8.ofNat (97 + k % 26)] ++
    [34, 44, 34, 116, 105, 109, 101, 115, 116, 97, 109, 112, 34, 58, 34, 50, 48, 50, 52, 45, 48,
      49, 45, 48, 49, 84, 48, 48, 58, 48, 48, 58, 48, 48, 90, 34, 125])

lemma sessionEnds_compact : sessionEnds.Compact := by
  rintro k json hjson
  obtain rfl := Option.some.inj hjson
  have hletter : ∀ r < 26, newline ≠ UInt8.ofNat (97 + r) := by decide
  rw [List.mem_append, List.mem_append, List.mem_singleton]
  rintro ((hpre | hid) | hsuf)
  · revert hpre
    decide
  · exact hletter (k % 26) (Nat.mod_lt _ (by decide)) hid
  · revert hsuf
    decide

/-! ### What an append does -/

namespace AuditBuffer

variable {format : EntryFormat E} {b : AuditBuffer} {u line : List UInt8} {e : E}

lemma accepts_eq_some (h : b.accepts format e = some line) :
    format.line e = some line ∧ line.length ≤ b.capacity / 4 := by
  unfold accepts at h
  cases hjson : format.toVec e with
  | none => simp [hjson] at h
  | some json =>
    simp only [hjson] at h
    split_ifs at h with hlevel hlong
    cases h
    exact ⟨by simp [EntryFormat.line, hjson], Nat.le_of_not_lt hlong⟩

lemma isLine_of_line (hcompact : format.Compact) (h : format.line e = some line) :
    IsLine newline line := by
  obtain ⟨json, hjson, rfl⟩ := Option.map_eq_some_iff.mp h
  exact ⟨json, rfl, hcompact e json hjson⟩

/-- A line that is accepted is shorter than the buffer. -/
lemma length_lt_of_accepts (h : b.accepts format e = some line) : line.length < b.capacity := by
  obtain ⟨hline, hlen⟩ := accepts_eq_some h
  obtain ⟨json, _, rfl⟩ := Option.map_eq_some_iff.mp hline
  rw [List.length_append, List.length_singleton] at hlen ⊢
  omega

/-- An entry is refused, or its line is written behind the unread bytes that survive. -/
lemma Unread.append (h : b.Unread u) (hend : AtLineEnd newline u) (format : EntryFormat E)
    (e : E) :
    (b.accepts format e = none ∧ b.append format e = some (false, b)) ∨
      ∃ line buf, b.accepts format e = some line ∧ b.append format e = some (true, buf) ∧
        buf.capacity = b.capacity ∧
        buf.Unread (survivors b.capacity u line.length ++ line) := by
  cases haccepts : b.accepts format e with
  | none => exact .inl ⟨rfl, by simp [AuditBuffer.append, haccepts]⟩
  | some line =>
    obtain ⟨buffer, readPos, writePos, hwrite, hcap, hunread⟩ :=
      h.writeBytes hend (length_lt_of_accepts haccepts)
    refine .inr ⟨line, { b with buffer, readPos, writePos, seq := b.seq + 1 }, rfl, ?_, hcap, ?_⟩
    · simp [AuditBuffer.append, haccepts, hwrite]
    · obtain ⟨hread, hpos, hstored, hshort⟩ := hunread
      exact ⟨hread, hpos, hstored, hshort⟩

end AuditBuffer

namespace Machine

variable {format : EntryFormat E} {m m' : Machine} {u : List UInt8}

/-- No event panics on a buffer whose unread bytes end with a line. -/
lemma isSome_step (h : m.buf.Unread u) (hend : AtLineEnd newline u) (e : Event E) :
    (m.step format e).isSome = true := by
  cases e with
  | append e =>
    rcases h.append hend format e with ⟨_, happend⟩ | ⟨line, buf, _, happend, _⟩
    · simp [step, happend]
    · simp [step, happend]
  | drain outLen =>
    obtain ⟨readPos, hdrain, _⟩ := h.drain outLen
    simp [step, hdrain]
  | setLevel level => rfl

/-- The possible steps: a refused entry, an accepted one, a drain, and a new level. -/
lemma step_cases (h : m.buf.Unread u) (hend : AtLineEnd newline u) {e : Event E}
    (hstep : Step format m e m') :
    m' = m ∨
      (∃ entry line buf, e = .append entry ∧ m.buf.accepts format entry = some line ∧
        m' = { m with buf, fresh := m.fresh ++ [line] } ∧ buf.capacity = m.buf.capacity ∧
        buf.Unread (AuditBuffer.survivors m.buf.capacity u line.length ++ line)) ∨
      (∃ n readPos, e = .drain n ∧
        m' = {
          buf := { m.buf with readPos }
          seen := m.accepted
          fresh := []
          drained := m.drained ++ u.take n } ∧
        ({ m.buf with readPos } : AuditBuffer).Unread (u.drop n)) ∨
      ∃ level, e = .setLevel level ∧ m' = { m with buf := { m.buf with level } } := by
  cases e with
  | append entry =>
    rcases h.append hend format entry with
      ⟨_, happend⟩ | ⟨line, buf, haccepts, happend, hcap, hunread⟩
    · left
      have hsame : m.step format (.append entry) = some m := by simp [step, happend]
      exact Option.some.inj (hstep.symm.trans hsame)
    · right; left
      refine ⟨entry, line, buf, rfl, haccepts, ?_, hcap, hunread⟩
      have hnext : m.step format (.append entry) =
          some { m with buf, fresh := m.fresh ++ [line] } := by
        simp [step, happend, (AuditBuffer.accepts_eq_some haccepts).1]
      exact Option.some.inj (hstep.symm.trans hnext)
  | drain n =>
    obtain ⟨readPos, hdrain, hunread⟩ := h.drain n
    right; right; left
    refine ⟨n, readPos, rfl, ?_, hunread⟩
    simp only [Step, step, hdrain] at hstep
    exact (Option.some.inj hstep).symm
  | setLevel level => exact .inr (.inr (.inr ⟨level, rfl, (Option.some.inj hstep).symm⟩))

end Machine

end AmlaSandbox.Audit
