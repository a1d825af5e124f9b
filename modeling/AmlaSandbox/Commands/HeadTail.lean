import AmlaSandbox.Commands.Reading

/-!
# head and tail

Both read their input in chunks. `head` writes while it reads, and should stop when it has written
enough; `tail` keeps the last lines or bytes in a ring, which is allocated at once.
-/

namespace AmlaSandbox.Commands.HeadTail

open Library

/-- What a command does with its handles; the read at the end gives nothing. -/
inductive Event
  | read (bytes : List UInt8)
  | write (bytes : List UInt8)
deriving DecidableEq

namespace Event

def isRead : Event → Bool
  | read _ => true
  | write _ => false

def written : Event → List UInt8
  | read _ => []
  | write bytes => bytes

end Event

/-- All that is written. -/
def output (events : List Event) : List UInt8 := events.flatMap Event.written

/-! ### head -/

/-- The loop of `head -c`. -/
def headBytes (remaining : ℕ) (chunks : List (List UInt8)) : List Event :=
  if _hremaining : remaining = 0 then []
  else
    let r := read (min remaining bufferSize) chunks
    if _hread : r.1 = [] then [.read []]
    else .read r.1 :: .write r.1 :: headBytes (remaining - r.1.length) r.2
termination_by remaining
decreasing_by
  exact Nat.sub_lt (Nat.pos_of_ne_zero _hremaining) (List.length_pos_of_ne_nil _hread)

/-- A line with a newline at its end, which is written on its own if it is missing. -/
def writeLine (line : List UInt8) : List Event :=
  .write line :: if line.getLast? = some newline then [] else [.write [newline]]

/-- The loop over complete lines: the lines that are written, and what is left with their number,
unless the outer loop ends too. -/
def drainLines (n : ℕ) (pending : List UInt8) (linesOutput : ℕ) :
    List (List UInt8) × Option (List UInt8 × ℕ) :=
  if _h : newline ∈ pending then
    if n ≤ linesOutput then ([], none)
    else
      let r := drainLines n (dropLine newline pending) (linesOutput + 1)
      ((pending.takeWhile (· ≠ newline) ++ [newline]) :: r.1, r.2)
  else ([], some (pending, linesOutput))
termination_by pending.length
decreasing_by
  exact length_dropLine_lt _h

/-- The loop of `head -n` over what is read. -/
def headLines (n : ℕ) : List (List UInt8) → List UInt8 → ℕ → List Event
  | [], pending, linesOutput =>
    .read [] :: if pending ≠ [] ∧ linesOutput < n then writeLine pending else []
  | bytes :: pieces, pending, linesOutput =>
    .read bytes ::
      match drainLines n (pending ++ bytes) linesOutput with
      | (written, none) => written.map .write
      | (written, some (pending, linesOutput)) =>
        written.map .write ++ headLines n pieces pending linesOutput

/-! ### tail -/

/-- A ring that keeps the last elements. -/
def push {α : Type} (n : ℕ) (ring : List α) (a : α) : List α :=
  (if n ≤ ring.length then ring.tail else ring) ++ [a]

/-- The ring of the last lines, and the line that is not complete. -/
def drainToRing (n : ℕ) (ring : List (List UInt8)) (pending : List UInt8) :
    List (List UInt8) × List UInt8 :=
  if _h : newline ∈ pending then
    drainToRing n (push n ring (pending.takeWhile (· ≠ newline) ++ [newline]))
      (dropLine newline pending)
  else (ring, pending)
termination_by pending.length
decreasing_by
  exact length_dropLine_lt _h

/-- The loop of `tail -n` over what is read. -/
def tailLines (n : ℕ) :
    List (List UInt8) → List (List UInt8) → List UInt8 → List (List UInt8)
  | [], ring, pending => if pending = [] then ring else push n ring pending
  | bytes :: pieces, ring, pending =>
    let r := drainToRing n ring (pending ++ bytes)
    tailLines n pieces r.1 r.2

/-- Lines, or bytes. -/
inductive Selection
  | lines
  | bytes
deriving DecidableEq

def head (selection : Selection) (n : ℕ) (s : Stream) : List Event :=
  match selection with
  | .lines => headLines n (reads s.chunks) [] 0
  | .bytes => headBytes n s.chunks

/-- A line as `tail` writes it. -/
def terminated (line : List UInt8) : List UInt8 :=
  if line.getLast? = some newline then line else line ++ [newline]

/-- The largest allocation, and the size of a `Vec<u8>` without what it holds. -/
structure Platform where
  limit : ℕ
  vecSize : ℕ

/-- The size of an element of the ring. -/
def Platform.elementSize (platform : Platform) : Selection → ℕ
  | .lines => platform.vecSize
  | .bytes => 1

/-- What `tail` writes. It panics where the ring would be larger than an allocation can be. -/
def tail (platform : Platform) (selection : Selection) (n : ℕ) (s : Stream) :
    Option (List UInt8) :=
  if n * platform.elementSize selection ≤ platform.limit then
    match selection with
    | .lines => some ((tailLines n (reads s.chunks) [] []).flatMap terminated)
    | .bytes => some ((reads s.chunks).foldl (fun ring bytes => bytes.foldl (push n) ring) [])
  else none

/-! ### What they should select -/

def first (selection : Selection) (n : ℕ) (bytes : List UInt8) : List UInt8 :=
  match selection with
  | .lines => ((byteLines bytes).take n).flatMap terminated
  | .bytes => bytes.take n

def last (selection : Selection) (n : ℕ) (bytes : List UInt8) : List UInt8 :=
  match selection with
  | .lines => ((byteLines bytes).drop ((byteLines bytes).length - n)).flatMap terminated
  | .bytes => bytes.drop (bytes.length - n)

/-- The number of complete lines, or of bytes. -/
def amount (selection : Selection) (bytes : List UInt8) : ℕ :=
  match selection with
  | .lines => bytes.count newline
  | .bytes => bytes.length

/-- Once enough is written, nothing more is read. -/
def StopsAt (selection : Selection) (n : ℕ) (events : List Event) : Prop :=
  ∀ before after, events = before ++ after → n ≤ amount selection (output before) →
    ∀ event ∈ after, event.isRead = false

inductive Tool
  | head
  | tail
deriving DecidableEq

/-- The tool writes the first or the last lines or bytes, and `head` then reads no more. -/
def Selects (platform : Platform) (tool : Tool) (selection : Selection) (n : ℕ) (s : Stream) :
    Prop :=
  match tool with
  | .head =>
    output (head selection n s) = first selection n s.bytes ∧
      StopsAt selection n (head selection n s)
  | .tail => tail platform selection n s = some (last selection n s.bytes)

/-- The piece in which the lines are complete has another line that is complete. -/
def HasSpare (n : ℕ) (pieces : List (List UInt8)) : Prop :=
  ∀ before piece after, pieces = before ++ piece :: after → before.flatten.count newline < n →
    n ≤ (before.flatten ++ piece).count newline → n < (before.flatten ++ piece).count newline

/-- Where `head` knows in time that it is done, and where the ring can be allocated and an element
in it does no harm. -/
def IsRegular (platform : Platform) (tool : Tool) (selection : Selection) (n : ℕ) (s : Stream) :
    Prop :=
  match tool with
  | .head => selection = .lines → 0 < n ∧ HasSpare n (reads s.chunks)
  | .tail => n * platform.elementSize selection ≤ platform.limit ∧ (n = 0 → s.bytes = [])

/-! ### Events -/

section

variable {selection : Selection} {n : ℕ} {bytes : List UInt8} {events : List Event}

lemma output_read : output (.read bytes :: events) = output events := rfl

lemma output_write : output (.write bytes :: events) = bytes ++ output events := rfl

lemma output_writes (written : List (List UInt8)) :
    output (written.map .write ++ events) = written.flatten ++ output events := by
  induction written with
  | nil => rfl
  | cons bytes written ih =>
    rw [List.map_cons, List.cons_append, output_write, ih, List.flatten_cons, List.append_assoc]

lemma output_writeLine (line : List UInt8) : output (writeLine line) = terminated line := by
  rw [writeLine, terminated, output_write]
  split_ifs <;> simp [output, Event.written]

lemma amount_append (bytes bytes' : List UInt8) :
    amount selection (bytes ++ bytes') = amount selection bytes + amount selection bytes' := by
  cases selection with
  | lines => exact List.count_append
  | bytes => exact List.length_append

lemma amount_nil : amount selection [] = 0 := by cases selection <;> rfl

lemma stopsAt_nil : StopsAt selection n [] := by
  intro before after h _ event hevent
  obtain ⟨-, rfl⟩ := List.append_eq_nil_iff.mp h.symm
  exact absurd hevent List.not_mem_nil

lemma stopsAt_read :
    StopsAt selection n (.read bytes :: events) ↔ 0 < n ∧ StopsAt selection n events := by
  constructor
  · intro h
    refine ⟨Nat.pos_of_ne_zero fun hn => ?_, fun before after heq hle => ?_⟩
    · have hread := h [] _ rfl (by omega) (.read bytes) List.mem_cons_self
      cases hread
    · exact h (.read bytes :: before) after (by rw [heq, List.cons_append]) hle
  · rintro ⟨hn, h⟩ before after heq hle
    cases before with
    | nil =>
      rw [output, List.flatMap_nil, amount_nil] at hle
      omega
    | cons event before =>
      obtain ⟨rfl, hrest⟩ := List.cons.inj heq
      exact h before after hrest hle

lemma stopsAt_write :
    StopsAt selection n (.write bytes :: events) ↔
      StopsAt selection (n - amount selection bytes) events := by
  constructor
  · intro h before after heq hle
    refine h (.write bytes :: before) after (by rw [heq, List.cons_append]) ?_
    rw [output_write, amount_append]
    omega
  · intro h before after heq hle
    cases before with
    | nil =>
      obtain rfl : .write bytes :: events = after := heq
      rw [output, List.flatMap_nil, amount_nil] at hle
      refine List.forall_mem_cons.mpr ⟨rfl, h [] events rfl ?_⟩
      omega
    | cons event before =>
      obtain ⟨rfl, hrest⟩ := List.cons.inj heq
      rw [output_write, amount_append] at hle
      exact h before after hrest (by omega)

lemma stopsAt_writes (written : List (List UInt8)) :
    StopsAt selection n (written.map .write ++ events) ↔
      StopsAt selection (n - amount selection written.flatten) events := by
  induction written generalizing n with
  | nil => rw [List.flatten_nil, amount_nil]; rfl
  | cons bytes written ih =>
    rw [List.map_cons, List.cons_append, stopsAt_write, ih, List.flatten_cons, amount_append,
      Nat.sub_sub]

lemma stopsAt_writeLine (line : List UInt8) : StopsAt selection n (writeLine line) := by
  rw [writeLine, stopsAt_write]
  split_ifs
  · exact stopsAt_nil
  · exact stopsAt_write.mpr stopsAt_nil

end

/-! ### Bytes -/

section

variable {n : ℕ} {chunks : List (List UInt8)}

/-- `head -c` writes the first bytes, and reads no more. -/
lemma headBytes_spec (h : ∀ chunk ∈ chunks, chunk ≠ []) :
    output (headBytes n chunks) = chunks.flatten.take n ∧
      StopsAt .bytes n (headBytes n chunks) := by
  induction n using Nat.strong_induction_on generalizing chunks with
  | _ n ih =>
    rw [headBytes]
    dsimp only
    split_ifs with hn hread
    · subst hn
      exact ⟨rfl, stopsAt_nil⟩
    · have hpos : 0 < n := Nat.pos_of_ne_zero hn
      obtain rfl := read_ne_nil h (lt_min hpos (by decide)) hread
      refine ⟨by simp [output, Event.written], stopsAt_read.mpr ⟨hpos, stopsAt_nil⟩⟩
    · have hpos : 0 < n := Nat.pos_of_ne_zero hn
      have hlen := List.length_pos_of_ne_nil hread
      have hle : (read (min n bufferSize) chunks).1.length ≤ min n bufferSize :=
        length_read_le chunks
      have hflat := read_append (min n bufferSize) chunks
      obtain ⟨hout, hstop⟩ := ih (n - (read (min n bufferSize) chunks).1.length) (by omega)
        (ne_nil_of_mem_read h)
      refine ⟨?_, stopsAt_read.mpr ⟨hpos, stopsAt_write.mpr hstop⟩⟩
      rw [output_read, output_write, hout, ← hflat, List.take_append,
        List.take_of_length_le (hle.trans (min_le_left ..))]

end

/-! ### Lines -/

section

variable {n linesOutput : ℕ} {ls : List (List UInt8)} {pending rest : List UInt8}

lemma flatMap_terminated (h : ∀ x ∈ ls, IsLine newline x) : ls.flatMap terminated = ls.flatten := by
  induction ls with
  | nil => rfl
  | cons x ls ih =>
    obtain ⟨⟨body, rfl, -⟩, hls⟩ := List.forall_mem_cons.mp h
    rw [List.flatMap_cons, ih hls, List.flatten_cons, terminated,
      if_pos List.getLast?_concat]

/-- The inner loop of `head` writes lines until there are enough. -/
lemma drainLines_flatten (h : ∀ x ∈ ls, IsLine newline x) (hrest : newline ∉ rest)
    (hle : linesOutput ≤ n) :
    drainLines n (ls.flatten ++ rest) linesOutput =
      if linesOutput + ls.length ≤ n then (ls, some (rest, linesOutput + ls.length))
      else (ls.take (n - linesOutput), none) := by
  induction ls generalizing linesOutput with
  | nil =>
    rw [List.flatten_nil, List.nil_append, drainLines, dif_neg hrest, List.length_nil,
      Nat.add_zero, if_pos hle]
  | cons x ls ih =>
    obtain ⟨hx, hls⟩ := List.forall_mem_cons.mp h
    obtain ⟨hmem, htake, hdrop⟩ := takeWhile_line hx (ls.flatten ++ rest)
    rw [List.flatten_cons, List.append_assoc, drainLines, dif_pos hmem]
    split_ifs with hfull hfit hfit
    · rw [List.length_cons] at hfit
      omega
    · rw [Nat.sub_eq_zero_of_le hfull]
      rfl
    · rw [htake, hdrop, ih hls (by omega), if_pos (by rw [List.length_cons] at hfit; omega)]
      simp only [List.length_cons]
      congr 3
      omega
    · rw [htake, hdrop, ih hls (by omega), if_neg (by rw [List.length_cons] at hfit; omega)]
      obtain ⟨m, hm⟩ : ∃ m, n - linesOutput = m + 1 := ⟨n - linesOutput - 1, by omega⟩
      rw [hm, List.take_succ_cons, show n - (linesOutput + 1) = m by omega]

lemma drainLines_eq (pending : List UInt8) (hle : linesOutput ≤ n) :
    drainLines n pending linesOutput =
      if linesOutput + (lines newline pending).length ≤ n then
        (lines newline pending,
          some (unfinished newline pending, linesOutput + (lines newline pending).length))
      else ((lines newline pending).take (n - linesOutput), none) := by
  obtain ⟨ls, r, hls, hr, rfl⟩ := exists_lines newline pending
  rw [drainLines_flatten hls hr hle, lines_flatten_append hls, lines_of_notMem hr, List.append_nil,
    unfinished_flatten_append hls, unfinished_of_notMem hr]

variable {pieces : List (List UInt8)}

lemma headLines_cons (bytes : List UInt8) (hle : linesOutput ≤ n) :
    headLines n (bytes :: pieces) pending linesOutput =
      .read bytes ::
        if linesOutput + (lines newline (pending ++ bytes)).length ≤ n then
          (lines newline (pending ++ bytes)).map .write ++
            headLines n pieces (unfinished newline (pending ++ bytes))
              (linesOutput + (lines newline (pending ++ bytes)).length)
        else ((lines newline (pending ++ bytes)).take (n - linesOutput)).map .write := by
  rw [headLines, drainLines_eq _ hle]
  split_ifs <;> rfl

/-- `head -n` writes the first lines. -/
lemma output_headLines (hpending : newline ∉ pending) (hle : linesOutput ≤ n) :
    output (headLines n pieces pending linesOutput) =
      ((byteLines (pending ++ pieces.flatten)).take (n - linesOutput)).flatMap terminated := by
  induction pieces generalizing pending linesOutput with
  | nil =>
    rw [headLines, output_read, List.flatten_nil, List.append_nil, byteLines_of_notMem hpending]
    by_cases hempty : pending = []
    · simp [hempty, output]
    · rw [if_neg hempty]
      split_ifs with hlt
      · rw [output_writeLine, List.take_of_length_le (by rw [List.length_singleton]; omega)]
        simp
      · rw [show n - linesOutput = 0 by
          have := not_and.mp hlt hempty
          omega]
        rfl
  | cons bytes pieces ih =>
    have hlines : ∀ x ∈ lines newline (pending ++ bytes), IsLine newline x :=
      fun x hx => isLine_of_mem_lines hx
    rw [headLines_cons bytes hle, output_read, List.flatten_cons, ← List.append_assoc,
      byteLines_append]
    split_ifs with hfit
    · have htake : (lines newline (pending ++ bytes)).take (n - linesOutput) =
          lines newline (pending ++ bytes) := List.take_of_length_le (by omega)
      rw [output_writes, ih (notMem_unfinished _) hfit, List.take_append, List.flatMap_append,
        htake, flatMap_terminated hlines, Nat.sub_sub]
    · have houtput : output _ = _ ++ output [] :=
        output_writes ((lines newline (pending ++ bytes)).take (n - linesOutput))
      rw [List.append_nil] at houtput
      rw [houtput, List.take_append_of_le_length (by omega),
        flatMap_terminated fun x hx => hlines x (List.mem_of_mem_take hx)]
      exact List.append_nil _

lemma hasSpare_cons (bytes : List UInt8) (hn : 0 < n) :
    HasSpare n (bytes :: pieces) ↔
      bytes.count newline ≠ n ∧
        (bytes.count newline < n → HasSpare (n - bytes.count newline) pieces) := by
  constructor
  · intro h
    refine ⟨fun heq => ?_, fun hlt before piece after hpieces hbefore hpiece => ?_⟩
    · have hspare := h [] bytes pieces rfl hn (by rw [List.flatten_nil, List.nil_append, heq])
      rw [List.flatten_nil, List.nil_append, heq] at hspare
      exact lt_irrefl _ hspare
    · have hspare := h (bytes :: before) piece after (by rw [hpieces, List.cons_append])
      simp only [List.flatten_cons, List.count_append] at hspare hpiece ⊢
      have := hspare (by omega) (by omega)
      omega
  · rintro ⟨hne, h⟩ before piece after hpieces hbefore hpiece
    cases before with
    | nil =>
      obtain ⟨rfl, -⟩ := List.cons.inj hpieces
      rw [List.flatten_nil, List.nil_append] at hpiece ⊢
      omega
    | cons x before =>
      obtain ⟨rfl, hrest⟩ := List.cons.inj hpieces
      simp only [List.flatten_cons, List.count_append] at hbefore hpiece ⊢
      have hspare := h (by omega) before piece after hrest (by omega)
      rw [List.count_append] at hspare
      have := hspare (by omega)
      omega

/-- `head -n` reads on unless the piece that completes its lines has another one. -/
lemma stopsAt_headLines (hpending : newline ∉ pending) (hle : linesOutput ≤ n) :
    StopsAt .lines (n - linesOutput) (headLines n pieces pending linesOutput) ↔
      linesOutput < n ∧ HasSpare (n - linesOutput) pieces := by
  induction pieces generalizing pending linesOutput with
  | nil =>
    have hspare : HasSpare (n - linesOutput) [] := by
      intro before piece after h
      exact absurd h.symm (by simp)
    have htail : StopsAt .lines (n - linesOutput)
        (if pending ≠ [] ∧ linesOutput < n then writeLine pending else []) := by
      split_ifs
      · exact stopsAt_writeLine pending
      · exact stopsAt_nil
    rw [headLines, stopsAt_read]
    constructor
    · exact fun h => ⟨by omega, hspare⟩
    · exact fun h => ⟨by omega, htail⟩
  | cons bytes pieces ih =>
    have hlines : ∀ x ∈ lines newline (pending ++ bytes), IsLine newline x :=
      fun x hx => isLine_of_mem_lines hx
    have hcount : (lines newline (pending ++ bytes)).length = bytes.count newline := by
      rw [length_lines, List.count_append, List.count_eq_zero.mpr hpending, Nat.zero_add]
    have hamount : amount .lines (lines newline (pending ++ bytes)).flatten =
        bytes.count newline := (count_flatten hlines).trans hcount
    rw [headLines_cons bytes hle, stopsAt_read, hcount]
    split_ifs with hfit
    · rw [stopsAt_writes, hamount, Nat.sub_sub, ih (notMem_unfinished _) hfit, ← Nat.sub_sub]
      constructor
      · rintro ⟨hpos, hlt, hspare⟩
        exact ⟨by omega, (hasSpare_cons bytes hpos).mpr ⟨by omega, fun _ => hspare⟩⟩
      · rintro ⟨hlt, hspare⟩
        obtain ⟨hne, hrest⟩ := (hasSpare_cons bytes (by omega)).mp hspare
        exact ⟨by omega, by omega, hrest (by omega)⟩
    · have hwrites : StopsAt .lines (n - linesOutput) (_ ++ []) ↔ _ :=
        stopsAt_writes ((lines newline (pending ++ bytes)).take (n - linesOutput))
      rw [List.append_nil] at hwrites
      constructor
      · rintro ⟨hpos, -⟩
        exact ⟨by omega, (hasSpare_cons bytes hpos).mpr ⟨by omega, fun hlt => by omega⟩⟩
      · rintro ⟨hlt, -⟩
        exact ⟨by omega, hwrites.mpr stopsAt_nil⟩

end

/-! ### The ring -/

section

variable {α : Type} {n : ℕ}

/-- A ring keeps the last elements, and at least one. -/
lemma push_drop (seen : List α) (a : α) :
    push n (seen.drop (seen.length - max n 1)) a =
      (seen ++ [a]).drop ((seen ++ [a]).length - max n 1) := by
  rw [push, List.length_drop, List.length_append, List.length_singleton]
  by_cases hfull : max n 1 ≤ seen.length
  · rw [if_pos (by omega), List.tail_drop, List.drop_append_of_le_length (by omega)]
    congr 2
    omega
  · rw [show seen.length - max n 1 = 0 by omega, show seen.length + 1 - max n 1 = 0 by omega]
    split_ifs with hn
    · obtain rfl : seen = [] := List.length_eq_zero_iff.mp (by omega)
      rfl
    · rfl

lemma foldl_push (seen items : List α) :
    items.foldl (push n) (seen.drop (seen.length - max n 1)) =
      (seen ++ items).drop ((seen ++ items).length - max n 1) := by
  induction items generalizing seen with
  | nil => rw [List.append_nil]; rfl
  | cons a items ih =>
    rw [List.foldl_cons, push_drop, ih, List.append_assoc, List.singleton_append]

lemma foldl_push_nil (items : List α) :
    items.foldl (push n) [] = items.drop (items.length - max n 1) := by
  have h : items.foldl (push n) (List.drop _ []) = _ := foldl_push [] items
  rwa [List.drop_nil, List.nil_append] at h

variable {ring ls : List (List UInt8)} {pending rest : List UInt8}

lemma drainToRing_flatten (h : ∀ x ∈ ls, IsLine newline x) (hrest : newline ∉ rest) :
    drainToRing n ring (ls.flatten ++ rest) = (ls.foldl (push n) ring, rest) := by
  induction ls generalizing ring with
  | nil => rw [List.flatten_nil, List.nil_append, drainToRing, dif_neg hrest]; rfl
  | cons x ls ih =>
    obtain ⟨hx, hls⟩ := List.forall_mem_cons.mp h
    obtain ⟨hmem, htake, hdrop⟩ := takeWhile_line hx (ls.flatten ++ rest)
    rw [List.flatten_cons, List.append_assoc, drainToRing, dif_pos hmem, htake, hdrop, ih hls]
    rfl

lemma drainToRing_eq (pending : List UInt8) :
    drainToRing n ring pending =
      ((lines newline pending).foldl (push n) ring, unfinished newline pending) := by
  obtain ⟨ls, r, hls, hr, rfl⟩ := exists_lines newline pending
  rw [drainToRing_flatten hls hr, lines_flatten_append hls, lines_of_notMem hr, List.append_nil,
    unfinished_flatten_append hls, unfinished_of_notMem hr]

/-- All lines go through the ring. -/
lemma tailLines_eq (pieces : List (List UInt8)) (hpending : newline ∉ pending) :
    tailLines n pieces ring pending =
      (byteLines (pending ++ pieces.flatten)).foldl (push n) ring := by
  induction pieces generalizing ring pending with
  | nil =>
    rw [tailLines, List.flatten_nil, List.append_nil, byteLines_of_notMem hpending]
    split_ifs <;> rfl
  | cons bytes pieces ih =>
    rw [tailLines, drainToRing_eq]
    dsimp only
    rw [ih (notMem_unfinished _), List.flatten_cons, ← List.append_assoc,
      byteLines_append (pending ++ bytes), List.foldl_append]

/-- The ring of `tail` is right unless it should be empty. -/
lemma flatMap_drop_eq_iff {β : Type} {f : α → List β} (hf : ∀ a, f a ≠ []) (l : List α) :
    (l.drop (l.length - max n 1)).flatMap f = (l.drop (l.length - n)).flatMap f ↔
      (n = 0 → l = []) := by
  constructor
  · rintro h rfl
    rw [Nat.sub_zero, List.drop_length, List.flatMap_nil, List.flatMap_eq_nil_iff] at h
    have hdrop : l.drop (l.length - max 0 1) = [] :=
      List.eq_nil_iff_forall_not_mem.mpr fun a ha => hf a (h a ha)
    rw [List.drop_eq_nil_iff] at hdrop
    exact List.length_eq_zero_iff.mp (by omega)
  · intro h
    by_cases hn : n = 0
    · rw [h hn, List.drop_nil, List.drop_nil]
    · rw [max_eq_left (by omega)]

end

/-! ### The result -/

lemma terminated_ne_nil (line : List UInt8) : terminated line ≠ [] := by
  rw [terminated]
  split_ifs with h
  · rintro rfl
    cases h
  · simp

lemma byteLines_eq_nil_iff (bytes : List UInt8) : byteLines bytes = [] ↔ bytes = [] := by
  constructor
  · intro h
    rw [byteLines, List.append_eq_nil_iff] at h
    obtain ⟨hlines, hunfinished⟩ := h
    have hnil : unfinished newline bytes = [] := by
      by_contra hne
      rw [if_neg hne] at hunfinished
      cases hunfinished
    obtain ⟨ls, r, hls, hr, rfl⟩ := exists_lines newline bytes
    rw [lines_flatten_append hls, lines_of_notMem hr, List.append_nil] at hlines
    rw [unfinished_flatten_append hls, unfinished_of_notMem hr] at hnil
    rw [hlines, hnil]
    rfl
  · rintro rfl
    rfl

/-- `tail` selects the last lines or bytes. -/
lemma tail_eq_last_iff (platform : Platform) (selection : Selection) (n : ℕ) (s : Stream) :
    tail platform selection n s = some (last selection n s.bytes) ↔
      n * platform.elementSize selection ≤ platform.limit ∧ (n = 0 → s.bytes = []) := by
  rw [tail.eq_def]
  split_ifs with hlimit
  · rw [and_iff_right hlimit]
    cases selection with
    | lines =>
      dsimp only
      rw [tailLines_eq _ List.not_mem_nil, flatten_reads s.ne_nil, List.nil_append,
        foldl_push_nil, Option.some_inj, ← byteLines_eq_nil_iff]
      exact flatMap_drop_eq_iff terminated_ne_nil (byteLines s.bytes)
    | bytes =>
      dsimp only
      have hiff := flatMap_drop_eq_iff (n := n) (List.cons_ne_nil · ([] : List UInt8)) s.bytes
      rw [List.flatMap_singleton', List.flatMap_singleton'] at hiff
      rw [← List.foldl_flatten, flatten_reads s.ne_nil, foldl_push_nil, Option.some_inj]
      exact hiff
  · exact ⟨False.elim, fun h => absurd h.1 hlimit⟩

/-- `head` and `tail` select what they should exactly on regular inputs. -/
theorem selects_iff (platform : Platform) (tool : Tool) (selection : Selection) (n : ℕ)
    (s : Stream) :
    Selects platform tool selection n s ↔ IsRegular platform tool selection n s := by
  cases tool with
  | head =>
    cases selection with
    | lines =>
      have hout : output (headLines n (reads s.chunks) [] 0) = _ :=
        output_headLines List.not_mem_nil (Nat.zero_le n)
      rw [List.nil_append, flatten_reads s.ne_nil, Nat.sub_zero] at hout
      have hstop : StopsAt .lines (n - 0) (headLines n (reads s.chunks) [] 0) ↔ _ :=
        stopsAt_headLines List.not_mem_nil (Nat.zero_le n)
      rw [Nat.sub_zero] at hstop
      exact ⟨fun h _ => hstop.mp h.2, fun h => ⟨hout, hstop.mpr (h rfl)⟩⟩
    | bytes => exact ⟨fun _ h => Selection.noConfusion h, fun _ => headBytes_spec s.ne_nil⟩
  | tail => exact tail_eq_last_iff platform selection n s

/-- `tail -n 0` writes the last line. -/
theorem not_selects_none :
    ¬ ∀ (platform : Platform) (tool : Tool) (selection : Selection) (n : ℕ) (s : Stream),
      Selects platform tool selection n s := by
  intro h
  have hline := h ⟨2 ^ 63 - 1, 24⟩ .tail .lines 0 ⟨[[newline]], by decide⟩
  revert hline
  unfold Selects
  decide +kernel

end AmlaSandbox.Commands.HeadTail
