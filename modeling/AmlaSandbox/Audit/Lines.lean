import AmlaSandbox.Audit.Machine

/-!
# Lines in the audit buffer

While every drain takes all that is available, the unread bytes are the newest accepted entries, as
many as fit into the buffer less one byte.

A drain may stop inside a line. When the rest of that line is overwritten before the next drain, the
bytes drained so far are followed by another line; in all other runs the drained lines
are accepted ones.
-/

namespace AmlaSandbox.Audit

open Library

/-! ## The newest entries -/

section

variable {E : Type*}

namespace AuditBuffer

/-- What survives a write, in whole lines. -/
lemma survivors_flatten {ls : List (List UInt8)} {capacity n : Nat}
    (h : ∀ l ∈ ls, IsLine newline l) (hn : n < capacity) :
    ∃ t, t <:+ ls ∧ survivors capacity ls.flatten n = t.flatten ∧
      t.flatten.length + n < capacity ∧
      ∀ s, s <:+ ls → s.flatten.length + n < capacity → s <:+ t := by
  unfold survivors
  split_ifs with hlt
  · exact ⟨ls, List.suffix_refl _, rfl, hlt, fun s hs _ => hs⟩
  · obtain ⟨t, ht, hdrop, hlen, hlongest⟩ := dropLine_drop h
      (show ls.flatten.length + n - capacity < ls.flatten.length by omega)
    exact ⟨t, ht, hdrop, by omega, fun s hs hslen => hlongest s hs (by omega)⟩

end AuditBuffer

namespace Machine

variable {format : EntryFormat E} {capacity : Nat} {m m' : Machine}

/-- A drain takes everything that is available. -/
def DrainsAll (m : Machine) : Event E → Prop
  | .drain outLen => ∀ available, m.buf.available = some available → available ≤ outLen
  | _ => True

/-- The unread bytes are the newest lines accepted since the last drain. -/
structure Kept (capacity : Nat) (m : Machine) (kept : List (List UInt8)) : Prop where
  capacity_eq : m.buf.capacity = capacity
  newest : IsNewest (capacity - 1) m.fresh kept
  isLine : ∀ l ∈ kept, IsLine newline l
  unread : m.buf.Unread kept.flatten

lemma kept_new : (new capacity).Kept capacity [] where
  capacity_eq := List.length_replicate
  newest := isNewest_nil
  isLine := nofun
  unread := AuditBuffer.unread_withCapacity capacity

lemma Kept.atLineEnd {kept : List (List UInt8)} (h : m.Kept capacity kept) :
    AtLineEnd newline kept.flatten :=
  atLineEnd_flatten h.isLine

/-- An accepted line drops the oldest lines that do not fit with it. -/
lemma Kept.append (hcompact : format.Compact) {kept : List (List UInt8)}
    (h : m.Kept capacity kept) {entry : E} {line : List UInt8} {buf : AuditBuffer}
    (haccepts : m.buf.accepts format entry = some line) (hcap : buf.capacity = m.buf.capacity)
    (hunread : buf.Unread
      (AuditBuffer.survivors m.buf.capacity kept.flatten line.length ++ line)) :
    ∃ kept', ({ m with buf, fresh := m.fresh ++ [line] } : Machine).Kept capacity kept' := by
  have hline := AuditBuffer.length_lt_of_accepts haccepts
  rw [h.capacity_eq] at hline hcap hunread
  obtain ⟨t, ht, hflatten, hlen, hlongest⟩ :=
    AuditBuffer.survivors_flatten h.isLine hline
  rw [hflatten] at hunread
  refine ⟨t ++ [line], hcap, ?_, ?_, ?_⟩
  · apply h.newest.append ht (by omega)
    intro s hs hslen
    exact hlongest s hs (by omega)
  · intro l hl
    rcases List.mem_append.mp hl with hold | hnew
    · exact h.isLine l (ht.subset hold)
    · rw [List.mem_singleton.mp hnew]
      exact AuditBuffer.isLine_of_line hcompact (AuditBuffer.accepts_eq_some haccepts).1
  · rw [List.flatten_append, List.flatten_singleton]
    exact hunread

lemma Kept.step (hcompact : format.Compact) {kept : List (List UInt8)}
    (h : m.Kept capacity kept) {e : Event E} (hok : m.DrainsAll e)
    (hstep : Step format m e m') : ∃ kept', m'.Kept capacity kept' := by
  rcases step_cases h.unread h.atLineEnd hstep with rfl |
    ⟨entry, line, buf, rfl, haccepts, rfl, hcap, hunread⟩ | ⟨n, readPos, rfl, rfl, hunread⟩ |
    ⟨level, rfl, rfl⟩
  · exact ⟨kept, h⟩
  · exact h.append hcompact haccepts hcap hunread
  · refine ⟨[], h.capacity_eq, isNewest_nil, nofun, ?_⟩
    rwa [List.drop_of_length_le (hok _ h.unread.available)] at hunread
  · obtain ⟨hcap, hnewest, hisLine, ⟨hread, hwrite, hstored, hshort⟩⟩ := h
    exact ⟨kept, hcap, hnewest, hisLine, hread, hwrite, hstored, hshort⟩

/-- In every run whose drains take everything, the bytes available are exactly the longest suffix of
the lines accepted since the last drain whose total length is at most the capacity less one, and no
event panics. -/
theorem newest_kept (hcompact : format.Compact)
    (h : Reachable format DrainsAll capacity m) :
    (∃ kept, IsNewest (capacity - 1) m.fresh kept ∧
      m.buf.available = some kept.flatten.length ∧
      ∀ outLen, ∃ buf, m.buf.drain outLen = some (kept.flatten.take outLen, buf)) ∧
    ∀ e : Event E, (m.step format e).isSome = true := by
  have hkept : ∃ kept, m.Kept capacity kept := by
    refine h.invariant (I := fun m => ∃ kept, m.Kept capacity kept) ⟨[], kept_new⟩ ?_
    rintro m e m' ⟨kept, hm⟩ hok hstep
    exact hm.step hcompact hok hstep
  obtain ⟨kept, hkept⟩ := hkept
  refine ⟨⟨kept, hkept.newest, hkept.unread.available, ?_⟩,
    isSome_step hkept.unread hkept.atLineEnd⟩
  intro outLen
  obtain ⟨readPos, hdrain, _⟩ := hkept.unread.drain outLen
  exact ⟨_, hdrain⟩

/-- Five entries of 75 bytes in a buffer of 300 bytes. -/
theorem newest_kept_of_five :
    ∃ m, run sessionEnds (new 300) ((List.range 5).map fun k => .append k) = some m ∧
      ∃ kept, IsNewest 299 m.fresh kept ∧ m.buf.available = some kept.flatten.length := by
  have hrun : (run sessionEnds (new 300) ((List.range 5).map fun k => .append k)).isSome := by
    decide +kernel
  obtain ⟨m, hm⟩ := Option.isSome_iff_exists.mp hrun
  have hreach : Reachable sessionEnds DrainsAll 300 m := by
    refine reach_run hm fun m e he => ?_
    obtain ⟨k, _, rfl⟩ := List.mem_map.mp he
    trivial
  obtain ⟨⟨kept, hnewest, havailable, _⟩, _⟩ := newest_kept sessionEnds_compact hreach
  exact ⟨m, hm, kept, hnewest, havailable⟩

end Machine

end

/-! ## The lines that the host drains -/

variable {E : Type*} {format : EntryFormat E} {capacity : Nat} {m m' : Machine}

namespace Machine

/-- The complete lines drained so far are accepted lines, each once and in order. -/
def Untorn (m : Machine) : Prop := (lines newline m.drained).Sublist m.accepted

/-- Unread bytes are overwritten only when the host does not wait for the rest of a line. -/
def KeepsOpenLine (format : EntryFormat E) (m : Machine) : Event E → Prop
  | .append e =>
    ∀ line, m.buf.accepts format e = some line →
      AuditBuffer.wouldOverwrite m.buf.writePos
        ((m.buf.writePos + line.length) % m.buf.capacity) m.buf.readPos = true →
      AtLineEnd newline m.drained
  | _ => True

/-- What was drained and what is unread are the bytes of some of the accepted lines. -/
structure Streamed (m : Machine) (whole : List (List UInt8)) (u : List UInt8) : Prop where
  sublist : whole.Sublist m.accepted
  isLine : ∀ l ∈ whole, IsLine newline l
  stream : m.drained ++ u = whole.flatten
  unread : m.buf.Unread u

lemma streamed_new : (new capacity).Streamed [] [] where
  sublist := List.Sublist.refl _
  isLine := nofun
  stream := rfl
  unread := AuditBuffer.unread_withCapacity capacity

variable {whole : List (List UInt8)} {u : List UInt8}

lemma Streamed.atLineEnd (h : m.Streamed whole u) : AtLineEnd newline u := by
  have hend := atLineEnd_flatten h.isLine
  rw [← h.stream] at hend
  exact hend.of_append

lemma Streamed.untorn (h : m.Streamed whole u) : m.Untorn :=
  (isPrefix_lines h.isLine h.stream).sublist.trans h.sublist

/-- What survives an append continues the stream of lines. -/
lemma Streamed.survivors (h : m.Streamed whole u) {n : Nat} (hn : n < m.buf.capacity)
    (hend : m.buf.capacity ≤ u.length + n → AtLineEnd newline m.drained) :
    ∃ whole' : List (List UInt8), whole'.Sublist whole ∧
      m.drained ++ AuditBuffer.survivors m.buf.capacity u n = whole'.flatten := by
  by_cases hlt : u.length + n < m.buf.capacity
  · refine ⟨whole, List.Sublist.refl _, ?_⟩
    rw [AuditBuffer.survivors, if_pos hlt, h.stream]
  · -- the stream is cut at the end of a line, and lines survive behind the cut
    obtain ⟨ls₁, ls₂, rfl, hdrained, rfl⟩ :=
      exists_split_of_atLineEnd h.isLine h.stream (hend (Nat.le_of_not_lt hlt))
    obtain ⟨t, ht, hflatten, _⟩ := AuditBuffer.survivors_flatten
      (fun l hl => h.isLine l (List.mem_append_right _ hl)) hn
    refine ⟨ls₁ ++ t, ht.sublist.append_left _, ?_⟩
    rw [hflatten, hdrained, List.flatten_append]

lemma Streamed.append (hcompact : format.Compact) (h : m.Streamed whole u) {entry : E}
    {line : List UInt8} {buf : AuditBuffer} (hok : m.KeepsOpenLine format (.append entry))
    (haccepts : m.buf.accepts format entry = some line)
    (hunread : buf.Unread (AuditBuffer.survivors m.buf.capacity u line.length ++ line)) :
    ∃ whole' u', ({ m with buf, fresh := m.fresh ++ [line] } : Machine).Streamed whole' u' := by
  have hline := AuditBuffer.length_lt_of_accepts haccepts
  have hover := AuditBuffer.wouldOverwrite_iff (h.unread.read_lt (by omega))
    (h.unread.length_lt (by omega)) hline
  rw [← h.unread.write_eq] at hover
  obtain ⟨whole', hsub, hstream⟩ :=
    h.survivors hline fun hle => hok line haccepts (hover.mpr hle)
  refine ⟨whole' ++ [line], _, ?_, ?_, ?_, hunread⟩
  · show (whole' ++ [line]).Sublist (m.seen ++ (m.fresh ++ [line]))
    rw [← List.append_assoc]
    exact (hsub.trans h.sublist).append_right _
  · intro l hl
    rcases List.mem_append.mp hl with hold | hnew
    · exact h.isLine l (hsub.subset hold)
    · rw [List.mem_singleton.mp hnew]
      exact AuditBuffer.isLine_of_line hcompact (AuditBuffer.accepts_eq_some haccepts).1
  · show m.drained ++ (_ ++ line) = _
    rw [← List.append_assoc, hstream, List.flatten_append, List.flatten_singleton]

lemma Streamed.step (hcompact : format.Compact) (h : m.Streamed whole u) {e : Event E}
    (hok : m.KeepsOpenLine format e) (hstep : Step format m e m') :
    ∃ whole' u', m'.Streamed whole' u' := by
  rcases step_cases h.unread h.atLineEnd hstep with rfl |
    ⟨entry, line, buf, rfl, haccepts, rfl, _, hunread⟩ | ⟨n, readPos, rfl, rfl, hunread⟩ |
    ⟨level, rfl, rfl⟩
  · exact ⟨whole, u, h⟩
  · exact h.append hcompact hok haccepts hunread
  · refine ⟨whole, u.drop n, ?_, h.isLine, ?_, hunread⟩
    · show whole.Sublist (m.accepted ++ [])
      rw [List.append_nil]
      exact h.sublist
    · show (m.drained ++ u.take n) ++ u.drop n = _
      rw [List.append_assoc, List.take_append_drop, h.stream]
  · obtain ⟨hsub, hisLine, hstream, ⟨hread, hwrite, hstored, hshort⟩⟩ := h
    exact ⟨whole, u, hsub, hisLine, hstream, hread, hwrite, hstored, hshort⟩

/-- No line is torn in the runs that overwrite no line of which the host has a part. -/
theorem untorn_of_keepsOpenLine (hcompact : format.Compact)
    (h : Reachable format (KeepsOpenLine format) capacity m) : m.Untorn := by
  have hstreamed : ∃ whole u, m.Streamed whole u := by
    refine h.invariant (I := fun m => ∃ whole u, m.Streamed whole u) ⟨[], [], streamed_new⟩ ?_
    rintro m e m' ⟨whole, u, hm⟩ hok hstep
    exact hm.step hcompact hok hstep
  obtain ⟨whole, u, hstreamed⟩ := hstreamed
  exact hstreamed.untorn

instance (line : List UInt8) : Decidable (AtLineEnd newline line) :=
  inferInstanceAs (Decidable (∀ b ∈ line.getLast?, b = newline))

instance (m : Machine) : (e : Event E) → Decidable (KeepsOpenLine format m e)
  | .append e => inferInstanceAs (Decidable (∀ line ∈ m.buf.accepts format e,
      AuditBuffer.wouldOverwrite m.buf.writePos
        ((m.buf.writePos + line.length) % m.buf.capacity) m.buf.readPos = true →
      AtLineEnd newline m.drained))
  | .drain _ | .setLevel _ => inferInstanceAs (Decidable True)

/-- A line is drained in two parts, and another one is overwritten before the next drain. -/
theorem untorn_drained :
    ∃ m, run sessionEnds (new 300) [.append 0, .append 1, .append 2, .drain 2, .drain 73, .append 3,
        .append 4, .drain 300] = some m ∧ m.Untorn ∧
      m.accepted.length = 5 ∧ (lines newline m.drained).length = 4 := by
  have hok : Meets (KeepsOpenLine sessionEnds) (step sessionEnds) (new 300)
      [.append 0, .append 1, .append 2, .drain 2, .drain 73, .append 3, .append 4, .drain 300] := by
    decide +kernel
  have hrun : (run sessionEnds (new 300) [.append 0, .append 1, .append 2, .drain 2, .drain 73,
      .append 3, .append 4, .drain 300]).any fun m =>
        m.accepted.length == 5 && (lines newline m.drained).length == 4 := by
    decide +kernel
  obtain ⟨m, hm, hlengths⟩ := (Option.any_eq_true _ _).mp hrun
  exact ⟨m, hm, untorn_of_keepsOpenLine sessionEnds_compact (reach_foldlM hok hm),
    by simpa using hlengths⟩

/-- The rest of a line of which the host has two bytes is overwritten, and these two bytes are read
as the beginning of a later line. -/
theorem torn_line : ¬ ∀ (capacity : Nat) (m : Machine),
    Reachable sessionEnds anyEvent capacity m →
      ∀ line ∈ lines newline m.drained, line ∈ m.accepted := by
  intro h
  have hrun : (run sessionEnds (new 300) [.append 0, .append 1, .append 2, .drain 2, .append 3,
      .append 4, .drain 300]).any fun m =>
        (lines newline m.drained).any fun line => !m.accepted.contains line := by
    decide +kernel
  obtain ⟨m, hm, htorn⟩ := (Option.any_eq_true _ _).mp hrun
  obtain ⟨line, hline, hnot⟩ := List.any_eq_true.mp htorn
  have hmem := h 300 m (reach_run hm fun _ _ _ => trivial) line hline
  simp [hmem] at hnot

end Machine

end AmlaSandbox.Audit
