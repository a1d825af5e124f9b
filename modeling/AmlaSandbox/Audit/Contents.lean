import AmlaSandbox.Audit.Buffer

/-!
# The unread bytes

What is stored between the read and the write position. Draining takes its first bytes; writing
appends, after dropping what is overwritten together with the rest of its line.
-/

namespace AmlaSandbox.Audit.AuditBuffer

open Library

/-- The unread bytes of a buffer. -/
structure Unread (b : AuditBuffer) (u : List UInt8) : Prop where
  read_mod : b.readPos % b.capacity = b.readPos
  write_eq : b.writePos = (b.readPos + u.length) % b.capacity
  stored : Ring.slice b.buffer b.readPos u.length = u
  short : u = [] ∨ u.length < b.capacity

/-- What is left of the unread bytes when `n` bytes are written behind them. -/
def survivors (capacity : Nat) (u : List UInt8) (n : Nat) : List UInt8 :=
  if u.length + n < capacity then u else dropLine newline (u.drop (u.length + n - capacity))

variable {b : AuditBuffer} {u data body : List UInt8} {n pos fuel : Nat}

lemma unread_withCapacity (capacity : Nat) : (withCapacity capacity).Unread [] := by
  constructor <;> simp [withCapacity]

/-! ### Positions -/

lemma Unread.read_lt (h : b.Unread u) (hcap : 0 < b.capacity) : b.readPos < b.capacity := by
  rw [← h.read_mod]
  exact Nat.mod_lt _ hcap

lemma Unread.length_lt (h : b.Unread u) (hcap : 0 < b.capacity) : u.length < b.capacity := by
  rcases h.short with rfl | hlt
  · exact hcap
  · exact hlt

/-- A position reached from a position of the ring by at most one turn. -/
lemma mod_eq_or {read cap : Nat} (hread : read < cap) (hn : n < cap) :
    (read + n < cap ∧ (read + n) % cap = read + n) ∨
      (cap ≤ read + n ∧ (read + n) % cap = read + n - cap) := by
  rcases Nat.lt_or_ge (read + n) cap with hlt | hge
  · exact .inl ⟨hlt, Nat.mod_eq_of_lt hlt⟩
  · refine .inr ⟨hge, ?_⟩
    rw [Nat.mod_eq_sub_mod hge, Nat.mod_eq_of_lt (by omega)]

lemma Unread.available (h : b.Unread u) : b.available = some u.length := by
  rcases Nat.eq_zero_or_pos b.capacity with hzero | hpos
  · have hnil : u = [] := by
      rcases h.short with rfl | hlt
      · rfl
      · omega
    have hwrite := h.write_eq
    rw [hzero, Nat.mod_zero, hnil] at hwrite
    simp [AuditBuffer.available, checkedSub, hwrite, hnil]
  · have hread := h.read_lt hpos
    have hlen := h.length_lt hpos
    have hwrite := h.write_eq
    unfold AuditBuffer.available checkedSub
    rcases mod_eq_or hread hlen with ⟨hlt, heq⟩ | ⟨hge, heq⟩ <;> rw [heq] at hwrite
    · rw [if_pos (by omega), if_pos (by omega)]
      congr 1
      omega
    · rw [if_neg (by omega), if_pos (by omega)]
      show some _ = some _
      congr 1
      omega

/-- The read position is overwritten exactly when the unread and the new bytes do not fit. -/
lemma wouldOverwrite_iff {read cap : Nat} (hread : read < cap) (hlen : u.length < cap)
    (hn : n < cap) :
    wouldOverwrite ((read + u.length) % cap) (((read + u.length) % cap + n) % cap) read = true ↔
      cap ≤ u.length + n := by
  have hold : (read + u.length) % cap < cap := Nat.mod_lt _ (by omega)
  rcases mod_eq_or hread hlen with ⟨_, heq⟩ | ⟨_, heq⟩ <;> rw [heq] at hold ⊢ <;>
    rcases mod_eq_or hold hn with ⟨_, heq'⟩ | ⟨_, heq'⟩ <;> rw [heq'] <;>
    simp only [wouldOverwrite] <;> split_ifs <;> simp <;> omega

/-! ### Draining -/

lemma readRange_eq {buffer : List UInt8} (start n : Nat) (h : start + n ≤ buffer.length) :
    readRange buffer start (start + n) = some (Ring.slice buffer start n) := by
  rw [readRange, if_pos ⟨Nat.le_add_right _ _, h⟩, Nat.add_sub_cancel_left,
    Ring.slice_eq_take_drop h]

lemma Unread.advance (h : b.Unread u) (hn : n ≤ u.length) :
    ({ b with readPos := (b.readPos + n) % b.capacity } : AuditBuffer).Unread (u.drop n) where
  read_mod := Nat.mod_mod _ _
  write_eq := by
    show b.writePos = ((b.readPos + n) % b.capacity + (u.drop n).length) % b.capacity
    rw [Nat.mod_add_mod, h.write_eq, List.length_drop]
    congr 1
    omega
  stored := by
    show Ring.slice b.buffer ((b.readPos + n) % b.buffer.length) _ = _
    rw [Ring.slice_mod, List.length_drop, ← Ring.drop_slice hn, h.stored]
  short := by
    rcases h.short with rfl | hlt
    · exact .inl List.drop_nil
    · refine .inr (Nat.lt_of_le_of_lt ?_ hlt)
      rw [List.length_drop]
      exact Nat.sub_le _ _

/-- Both chunks of a drain, as one slice. -/
lemma Unread.drain_eq (h : b.Unread u) (hu : u ≠ []) (hn : n ≠ 0) :
    b.drain n = some (Ring.slice b.buffer b.readPos (min u.length n),
      { b with readPos := (b.readPos + min u.length n) % b.capacity }) := by
  have hlen : u.length ≠ 0 := fun hzero => hu (List.length_eq_zero_iff.mp hzero)
  have hlt : u.length < b.capacity := h.short.resolve_left hu
  have hread := h.read_lt (by omega)
  simp only [AuditBuffer.drain, h.available, checkedSub, checkedMod, Option.bind_eq_bind,
    Option.bind_some]
  rw [if_neg (by simp [hu, hn]), if_pos (by omega), Option.bind_some, if_neg (by omega)]
  rcases Nat.lt_or_ge (b.capacity - b.readPos) (min u.length n) with hwrap | hfit
  · have hend : b.readPos + (b.capacity - b.readPos) = b.capacity := by omega
    obtain ⟨r, hr⟩ := Nat.exists_eq_add_of_lt hwrap
    have hmod : (b.readPos + min u.length n) % b.capacity = r + 1 := by
      rw [Nat.mod_eq_sub_mod (by omega), Nat.mod_eq_of_lt (by omega)]
      omega
    have hsecond : readRange b.buffer 0 (r + 1) = some (Ring.slice b.buffer 0 (r + 1)) := by
      have hfits : 0 + (r + 1) ≤ b.buffer.length := by
        unfold capacity at *
        omega
      have hrange := readRange_eq 0 (r + 1) hfits
      rwa [Nat.zero_add] at hrange
    rw [Nat.min_eq_left (Nat.le_of_lt hwrap), readRange_eq _ _ (by rw [hend]; exact Nat.le_refl _),
      Option.bind_some, hend, Nat.mod_self, Option.bind_some, if_pos ⟨hwrap, rfl⟩, hmod]
    have hleft : min u.length n - (b.capacity - b.readPos) = r + 1 := by omega
    rw [hleft, hsecond, hr, Nat.add_assoc, Ring.slice_wrap hend]
    rfl
  · rw [Nat.min_eq_right hfit, readRange_eq _ _ (by unfold capacity at *; omega), Option.bind_some,
      Option.bind_some, if_neg (by omega)]

/-- A drain takes the first unread bytes. -/
lemma Unread.drain (h : b.Unread u) (n : Nat) :
    ∃ readPos, b.drain n = some (u.take n, { b with readPos }) ∧
      ({ b with readPos } : AuditBuffer).Unread (u.drop n) := by
  by_cases hnone : u = [] ∨ n = 0
  · have hdrain : b.drain n = some ([], b) := by
      rcases hnone with rfl | rfl <;>
        simp [AuditBuffer.drain, h.available]
    refine ⟨b.readPos, ?_, ?_⟩
    · rcases hnone with rfl | rfl
      · rw [hdrain, List.take_nil]
      · rw [hdrain, List.take_zero]
    · rcases hnone with rfl | rfl
      · rw [List.drop_nil]
        exact h
      · exact h
  · obtain ⟨hu, hn⟩ := not_or.mp hnone
    have htake : Ring.slice b.buffer b.readPos (min u.length n) = u.take n := by
      rw [← Ring.take_slice (Nat.min_le_left _ _), h.stored, Nat.min_comm,
        ← List.take_eq_take_min]
    have hdrop : u.drop (min u.length n) = u.drop n := by
      rcases Nat.le_total n u.length with hle | hle
      · rw [Nat.min_eq_right hle]
      · rw [Nat.min_eq_left hle, List.drop_length, List.drop_of_length_le hle]
    refine ⟨_, by rw [h.drain_eq hu hn, htake], ?_⟩
    rw [← hdrop]
    exact h.advance (Nat.min_le_left _ _)

/-! ### Writing -/

/-- One turn of the loop of `write_bytes` writes up to the end of the buffer. -/
lemma writeLoop_succ {buffer : List UInt8} (hpos : pos < buffer.length) (hne : data ≠ []) :
    writeLoop buffer.length (fuel + 1) buffer pos data =
      writeLoop buffer.length fuel
        (Ring.splice buffer pos (data.take (min data.length (buffer.length - pos))))
        ((pos + min data.length (buffer.length - pos)) % buffer.length)
        (data.drop (min data.length (buffer.length - pos))) := by
  cases data with
  | nil => exact absurd rfl hne
  | cons byte data =>
    have hfits : pos + ((byte :: data).take (min (byte :: data).length
        (buffer.length - pos))).length ≤ buffer.length := by
      rw [List.length_take]
      omega
    simp only [writeLoop, checkedSub, checkedMod, copyAt, Option.bind_eq_bind]
    rw [if_pos (by omega), Option.bind_some, if_pos hfits, Option.bind_some,
      if_neg (by omega), Option.bind_some]

/-- The loop writes all bytes around the end; `data.length` turns are enough. -/
lemma writeLoop_eq {cap : Nat} {buffer : List UInt8} (hcap : buffer.length = cap)
    (hpos : pos < cap) (hdata : data.length ≤ cap) (hfuel : data.length ≤ fuel) :
    ∃ buffer', writeLoop cap fuel buffer pos data = some (buffer', (pos + data.length) % cap) ∧
      Ring.Written buffer pos data buffer' := by
  induction fuel generalizing buffer pos data with
  | zero =>
    obtain rfl : data = [] := List.length_eq_zero_iff.mp (Nat.le_zero.mp hfuel)
    exact ⟨buffer, by simp [writeLoop, Nat.mod_eq_of_lt hpos], Ring.written_nil⟩
  | succ fuel ih =>
    by_cases hne : data = []
    · subst hne
      exact ⟨buffer, by simp [writeLoop, Nat.mod_eq_of_lt hpos], Ring.written_nil⟩
    · subst hcap
      have hlength : data.length ≠ 0 := fun hzero => hne (List.length_eq_zero_iff.mp hzero)
      rw [writeLoop_succ hpos hne]
      generalize hk : min data.length (buffer.length - pos) = k
      have htake : (data.take k).length = k := by
        rw [List.length_take]
        omega
      have hfits : pos + (data.take k).length ≤ buffer.length := by omega
      have hchunk := Ring.written_splice hfits
      have hnext : (pos + k) % buffer.length < buffer.length := Nat.mod_lt _ (by omega)
      have hdrop : (data.drop k).length = data.length - k := List.length_drop
      have hleft : (data.drop k).length ≤ buffer.length := by omega
      obtain ⟨buffer', hloop, hrest⟩ := ih hchunk.length_eq hnext hleft (by omega)
      have hend : ((pos + k) % buffer.length + (data.drop k).length) % buffer.length =
          (pos + data.length) % buffer.length := by
        rw [Nat.mod_add_mod, hdrop]
        congr 1
        omega
      refine ⟨buffer', by rw [hloop, hend], ?_⟩
      rw [← hchunk.length_eq, Ring.written_mod] at hrest
      have hbehind : Ring.Written (Ring.splice buffer pos (data.take k))
          (pos + (data.take k).length) (data.drop k) buffer' := by
        rw [htake]
        exact hrest
      have hboth := hchunk.append hbehind (by omega)
      rwa [List.take_append_drop] at hboth

/-- The search for the next entry stops behind the first newline. -/
lemma findNextLoop_eq {buffer : List UInt8} {writePos left : Nat} (hpos : pos < buffer.length)
    (hbody : newline ∉ body)
    (hline : Ring.slice buffer pos (body.length + 1) = body ++ [newline])
    (hleft : body.length < left) :
    findNextLoop buffer writePos left pos = some ((pos + body.length + 1) % buffer.length) := by
  obtain ⟨left, rfl⟩ := Nat.exists_eq_add_of_lt hleft
  have hcap : 0 < buffer.length := Nat.lt_of_le_of_lt (Nat.zero_le _) hpos
  have hbyte : ∀ {byte : UInt8}, Ring.at? buffer pos = some byte → buffer[pos]? = some byte := by
    intro byte hat
    rwa [Ring.at?, Nat.mod_eq_of_lt hpos] at hat
  induction body generalizing pos with
  | nil =>
    rw [List.length_nil, List.nil_append, Ring.slice_succ_eq_cons hcap] at hline
    rw [List.length_nil, Nat.zero_add, Nat.add_zero]
    simp [findNextLoop, hbyte hline.1, checkedMod, Nat.ne_of_gt hcap]
  | cons byte body ih =>
    rw [List.mem_cons, not_or] at hbody
    rw [List.length_cons, List.cons_append, Ring.slice_succ_eq_cons hcap] at hline
    obtain ⟨hat, hrest⟩ := hline
    have hnext : (pos + 1) % buffer.length < buffer.length := Nat.mod_lt _ hcap
    rw [← Ring.slice_mod] at hrest
    have hloop := ih hnext hbody.2 hrest (by omega) ?_
    · have hturn : (byte :: body).length + left + 1 = (body.length + left + 1) + 1 := by
        rw [List.length_cons]
        omega
      rw [hturn, findNextLoop]
      simp only [hbyte hat, checkedMod, Nat.ne_of_gt hcap, Ne.symm hbody.1, if_false,
        Option.bind_eq_bind, Option.bind_some]
      rw [hloop, List.length_cons, Nat.add_assoc, Nat.mod_add_mod]
      congr 2
      omega
    · intro byte' hat'
      rwa [Ring.at?, Nat.mod_eq_of_lt hnext] at hat'

/-- The bytes behind the written ones are the end of the unread ones, if these are overwritten. -/
lemma Unread.slice_behind (h : b.Unread u) {buffer : List UInt8}
    (hwritten : Ring.Written b.buffer (b.readPos + u.length) data buffer)
    (hfit : data.length ≤ b.capacity) (hover : b.capacity ≤ u.length + data.length) :
    Ring.slice buffer (b.readPos + u.length + data.length) (b.capacity - data.length) =
      u.drop (u.length + data.length - b.capacity) := by
  have hlen : u.length ≤ b.capacity := by
    rcases h.short with rfl | hlt
    · exact Nat.zero_le _
    · exact Nat.le_of_lt hlt
  unfold capacity at *
  have hpos : b.readPos + u.length + data.length =
      b.readPos + (u.length + data.length - b.buffer.length) + b.buffer.length := by
    omega
  have hdrop : (Ring.slice b.buffer b.readPos u.length).drop
        (u.length + data.length - b.buffer.length) =
      Ring.slice b.buffer (b.readPos + (u.length + data.length - b.buffer.length))
        (u.length - (u.length + data.length - b.buffer.length)) :=
    Ring.drop_slice (by omega)
  rw [h.stored] at hdrop
  rw [hwritten.slice_old (Nat.le_refl _) (by omega), hpos, Ring.slice_add_length, hdrop]
  congr 1
  omega

/-- Bytes between two positions of a ring are unread when the positions are set there. -/
lemma unread_of_slice {buffer v : List UInt8} {start : Nat} (hcap : buffer.length = b.capacity)
    (hstored : Ring.slice buffer start v.length = v) (hlt : v.length < b.capacity) :
    ({ b with
      buffer
      readPos := start % b.capacity
      writePos := (start + v.length) % b.capacity } : AuditBuffer).Unread v := by
  rw [← hcap] at hlt ⊢
  constructor
  · exact Nat.mod_mod _ _
  · exact (Nat.mod_add_mod _ _ _).symm
  · exact Ring.slice_mod.trans hstored
  · exact .inr hlt

/-- A run of cells that holds a line and a rest, with the written bytes behind it. -/
lemma slice_line {buffer rest : List UInt8} {start m : Nat} (hpos : 0 < buffer.length)
    (hline : Ring.slice buffer start m = body ++ newline :: rest)
    (hnew : Ring.slice buffer (start + m) data.length = data) :
    m = body.length + 1 + rest.length ∧
      Ring.slice buffer start (body.length + 1) = body ++ [newline] ∧
      Ring.slice buffer (start + (body.length + 1)) (rest ++ data).length = rest ++ data := by
  have hcount : (Ring.slice buffer start m).length = m := Ring.length_slice hpos
  rw [hline, List.length_append, List.length_cons] at hcount
  obtain rfl : m = body.length + 1 + rest.length := by omega
  have hsplit : body ++ newline :: rest = (body ++ [newline]) ++ rest := by simp
  have hfirst : (body ++ [newline]).length = body.length + 1 := by simp
  rw [Ring.slice_add, hsplit] at hline
  obtain ⟨hbody, hrest⟩ := List.append_inj hline (by rw [Ring.length_slice hpos, hfirst])
  refine ⟨rfl, hbody, ?_⟩
  rw [List.length_append, Ring.slice_add, hrest, Nat.add_assoc, hnew]

/-- The search for the next entry starts in the first line that is not overwritten completely, and
stops behind it. -/
lemma Unread.overwrite (h : b.Unread u) (hend : AtLineEnd newline u) {buffer : List UInt8}
    (hfit : data.length < b.capacity) (hover : b.capacity ≤ u.length + data.length)
    (hwritten : Ring.Written b.buffer (b.readPos + u.length) data buffer) :
    ∃ start, findNextLoop buffer b.writePos b.capacity
        ((b.readPos + u.length + data.length) % b.capacity) = some (start % b.capacity) ∧
      ({ b with
        buffer
        readPos := start % b.capacity
        writePos := (b.readPos + u.length + data.length) % b.capacity } : AuditBuffer).Unread
          (dropLine newline (u.drop (u.length + data.length - b.capacity)) ++ data) := by
  have hcap : buffer.length = b.capacity := hwritten.length_eq
  have hlen := h.length_lt (by omega)
  have hbehind := h.slice_behind hwritten (Nat.le_of_lt hfit) hover
  have hne : u.drop (u.length + data.length - b.capacity) ≠ [] := by
    rw [Ne, List.drop_eq_nil_iff]
    omega
  have hline : AtLineEnd newline (u.drop (u.length + data.length - b.capacity)) := by
    rw [← List.take_append_drop (u.length + data.length - b.capacity) u] at hend
    exact hend.of_append
  obtain ⟨body, hbody, hrest⟩ := exists_body (hline.mem hne)
  generalize dropLine newline (u.drop (u.length + data.length - b.capacity)) = rest at hrest ⊢
  have hnew : Ring.slice buffer
      (b.readPos + u.length + data.length + (b.capacity - data.length)) data.length = data := by
    have hpos : b.readPos + u.length + data.length + (b.capacity - data.length) =
        b.readPos + u.length + buffer.length := by
      omega
    rw [hpos, Ring.slice_add_length]
    exact hwritten.slice_new (Nat.le_of_lt hfit)
  obtain ⟨hcount, hfirst, hstored⟩ := slice_line (by omega) (hbehind.trans hrest) hnew
  refine ⟨b.readPos + u.length + data.length + (body.length + 1), ?_, ?_⟩
  · rw [← Ring.slice_mod] at hfirst
    rw [← hcap]
    rw [findNextLoop_eq (Nat.mod_lt _ (by omega)) hbody hfirst (by omega), Nat.add_assoc,
      Nat.mod_add_mod]
  · have hunread := unread_of_slice hcap hstored (by rw [List.length_append]; omega)
    have hturn : (b.readPos + u.length + data.length + (body.length + 1) +
        (rest ++ data).length) % b.capacity =
        (b.readPos + u.length + data.length) % b.capacity := by
      have hsum : b.readPos + u.length + data.length + (body.length + 1) +
          (rest.length + data.length) = b.readPos + u.length + data.length + b.capacity := by
        omega
      rw [List.length_append, hsum, Nat.add_mod_right]
    rwa [hturn] at hunread

/-- Writing drops the lines that are overwritten, at least in part, and appends. -/
lemma Unread.writeBytes (h : b.Unread u) (hend : AtLineEnd newline u)
    (hfit : data.length < b.capacity) :
    ∃ buffer readPos writePos, b.writeBytes data = some { b with buffer, readPos, writePos } ∧
      buffer.length = b.capacity ∧
      ({ b with buffer, readPos, writePos } : AuditBuffer).Unread
        (survivors b.capacity u data.length ++ data) := by
  have hread := h.read_lt (by omega)
  have hlen := h.length_lt (by omega)
  have hwrite : b.writePos < b.capacity := by
    rw [h.write_eq]
    exact Nat.mod_lt _ (by omega)
  have hexists : ∃ buffer, writeLoop b.capacity data.length b.buffer b.writePos data =
        some (buffer, (b.writePos + data.length) % b.capacity) ∧
      Ring.Written b.buffer b.writePos data buffer :=
    writeLoop_eq rfl hwrite (Nat.le_of_lt hfit) (Nat.le_refl _)
  obtain ⟨buffer, hloop, hwritten⟩ := hexists
  have hcap : buffer.length = b.capacity := hwritten.length_eq
  have hover := wouldOverwrite_iff hread hlen hfit
  have hmod : (b.writePos + data.length) % b.capacity =
      (b.readPos + u.length + data.length) % b.capacity := by
    rw [h.write_eq, Nat.mod_add_mod]
  rw [← h.write_eq, hmod] at hover
  rw [h.write_eq, capacity, Ring.written_mod] at hwritten
  simp only [AuditBuffer.writeBytes, survivors, hloop, hmod, Option.bind_eq_bind,
    Option.bind_some, findNextEntry]
  by_cases hlt : u.length + data.length < b.capacity
  · rw [if_neg (by rw [hover]; omega), if_pos hlt]
    have hstored : Ring.slice buffer b.readPos (u ++ data).length = u ++ data := by
      rw [List.length_append, Ring.slice_add, hwritten.slice_new (Nat.le_of_lt hfit),
        hwritten.slice_before (Nat.le_of_lt hlt), h.stored]
    have hunread := unread_of_slice hcap hstored (by rw [List.length_append]; exact hlt)
    rw [h.read_mod, List.length_append, ← Nat.add_assoc] at hunread
    exact ⟨buffer, _, _, rfl, hcap, hunread⟩
  · rw [if_pos (hover.mpr (Nat.le_of_not_lt hlt)), if_neg hlt]
    obtain ⟨start, hfind, hunread⟩ := h.overwrite hend hfit (Nat.le_of_not_lt hlt) hwritten
    rw [capacity, hcap, hfind]
    exact ⟨buffer, _, _, rfl, hcap, hunread⟩

end AmlaSandbox.Audit.AuditBuffer
