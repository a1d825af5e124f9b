import AmlaSandbox.Library.Lines
import AmlaSandbox.Text.Utf8
import Mathlib.Data.List.TakeWhile
import Mathlib.Tactic.Common

/-!
# Reading input

What the commands share: streams that come in chunks, the loop over lines, and texts. Several
commands collect what they read until there is a whole line, and handle the rest at the end as a
line of its own.
-/

namespace AmlaSandbox.Commands

open Library

/-- The byte that ends a line. -/
def newline : UInt8 := 10

/-! ### Streams -/

/-- An input stream: the chunks that it has for readers with buffers large enough. -/
structure Stream where
  chunks : List (List UInt8)
  ne_nil : ∀ chunk ∈ chunks, chunk ≠ []

def Stream.bytes (s : Stream) : List UInt8 := s.chunks.flatten

/-- A read into a buffer of this size, and the chunks that are left. Nothing is read at the end. -/
def read (size : ℕ) : List (List UInt8) → List UInt8 × List (List UInt8)
  | [] => ([], [])
  | chunk :: chunks =>
    if chunk.length ≤ size then (chunk, chunks) else (chunk.take size, chunk.drop size :: chunks)

/-- The size of the buffer. -/
def bufferSize : ℕ := 4096

lemma read_append (size : ℕ) (chunks : List (List UInt8)) :
    (read size chunks).1 ++ (read size chunks).2.flatten = chunks.flatten := by
  cases chunks with
  | nil => rfl
  | cons chunk chunks =>
    rw [read]
    split_ifs
    · rfl
    · rw [List.flatten_cons, ← List.append_assoc, List.take_append_drop, List.flatten_cons]

lemma length_read_le {size : ℕ} (chunks : List (List UInt8)) :
    (read size chunks).1.length ≤ size := by
  cases chunks with
  | nil => exact Nat.zero_le _
  | cons chunk chunks =>
    rw [read]
    split_ifs with h
    · exact h
    · exact List.length_take_le ..

/-- A read takes something, unless the stream is at its end. -/
lemma read_ne_nil {size : ℕ} {chunks : List (List UInt8)} (h : ∀ chunk ∈ chunks, chunk ≠ [])
    (hsize : 0 < size) (hread : (read size chunks).1 = []) : chunks = [] := by
  cases chunks with
  | nil => rfl
  | cons chunk chunks =>
    obtain ⟨hchunk, -⟩ := List.forall_mem_cons.mp h
    rw [read] at hread
    split_ifs at hread with hlen
    · exact absurd hread hchunk
    · have hpos := List.length_pos_of_ne_nil hchunk
      have hnil := congrArg List.length hread
      rw [List.length_take, List.length_nil] at hnil
      omega

lemma ne_nil_of_mem_read {size : ℕ} {chunks : List (List UInt8)}
    (h : ∀ chunk ∈ chunks, chunk ≠ []) : ∀ chunk ∈ (read size chunks).2, chunk ≠ [] := by
  cases chunks with
  | nil => exact h
  | cons chunk chunks =>
    obtain ⟨hchunk, hchunks⟩ := List.forall_mem_cons.mp h
    rw [read]
    split_ifs with hlen
    · exact hchunks
    · refine List.forall_mem_cons.mpr ⟨fun hdrop => ?_, hchunks⟩
      exact hlen (List.drop_eq_nil_iff.mp hdrop)

/-- What reads into the whole buffer give, up to the end. -/
def reads (chunks : List (List UInt8)) : List (List UInt8) :=
  if _h : (read bufferSize chunks).1 = [] then []
  else (read bufferSize chunks).1 :: reads (read bufferSize chunks).2
termination_by chunks.flatten.length
decreasing_by
  rw [← read_append bufferSize chunks, List.length_append]
  exact Nat.lt_add_of_pos_left (List.length_pos_of_ne_nil _h)

variable {chunks : List (List UInt8)} {pending rest : List UInt8}

lemma flatten_reads (h : ∀ chunk ∈ chunks, chunk ≠ []) :
    (reads chunks).flatten = chunks.flatten := by
  induction hm : chunks.flatten.length using Nat.strong_induction_on generalizing chunks with
  | _ m ih =>
    rw [reads]
    split_ifs with hread
    · obtain rfl := read_ne_nil h (by decide) hread
      rfl
    · have hflat := read_append bufferSize chunks
      have hlen := congrArg List.length hflat
      rw [List.length_append] at hlen
      have hpos := List.length_pos_of_ne_nil hread
      rw [List.flatten_cons, ih _ (by omega) (ne_nil_of_mem_read h) rfl, hflat]

def readAll (stream : Stream) : List UInt8 := (reads stream.chunks).flatten

/-! ### Texts -/

/-- `String::from_utf8_lossy`, where what it does with other bytes is a parameter. -/
def fromUtf8Lossy (lossy : List UInt8 → Text) (bytes : List UInt8) : Text :=
  match String.fromUTF8? bytes.toByteArray with
  | some s => s.toList
  | none => lossy bytes

lemma fromUtf8Lossy_utf8 {lossy : List UInt8 → Text} {text : Text} :
    fromUtf8Lossy lossy (Text.utf8 text) = text := by
  have hdecode : String.fromUTF8? (Text.utf8 text).toByteArray = some (String.ofList text) :=
    dif_pos ByteArray.isValidUTF8_utf8Encode
  rw [fromUtf8Lossy, hdecode]
  exact String.toList_ofList

/-- A line without its end. -/
def stripEnd (line : Text) : Text :=
  if line.dropLast.getLast? = some '\r' then line.dropLast.dropLast else line.dropLast

/-- `str::lines` -/
def strLines (s : Text) : List Text :=
  (lines '\n' s).map stripEnd ++ if unfinished '\n' s = [] then [] else [unfinished '\n' s]

lemma strLines_cons {text rest : Text} (hnot : '\n' ∉ text) :
    strLines (text ++ '\n' :: rest) = stripEnd (text ++ ['\n']) :: strLines rest := by
  have hline : IsLine '\n' (text ++ ['\n']) := ⟨text, rfl, hnot⟩
  have happend : text ++ '\n' :: rest = (text ++ ['\n']) ++ rest := by simp
  rw [strLines, happend, lines_append hline, unfinished_append hline]
  rfl

/-! ### Lines -/

lemma length_dropLine_lt {pending : List UInt8} (h : newline ∈ pending) :
    (dropLine newline pending).length < pending.length := by
  obtain ⟨body, -, hpending⟩ := exists_body h
  have hlen := congrArg List.length hpending
  rw [List.length_append, List.length_cons] at hlen
  omega

/-- The lines of a text, of which the last one need not be complete. -/
def byteLines (bytes : List UInt8) : List (List UInt8) :=
  lines newline bytes ++ if unfinished newline bytes = [] then [] else [unfinished newline bytes]

lemma byteLines_append (bytes bytes' : List UInt8) :
    byteLines (bytes ++ bytes') =
      lines newline bytes ++ byteLines (unfinished newline bytes ++ bytes') := by
  rw [byteLines, lines_append_eq, unfinished_append_eq, List.append_assoc, byteLines]

lemma byteLines_of_notMem (h : newline ∉ pending) :
    byteLines pending = if pending = [] then [] else [pending] := by
  rw [byteLines, lines_of_notMem h, unfinished_of_notMem h, List.nil_append]

/-- The line that is taken from the front. -/
lemma takeWhile_line {x : List UInt8} (hx : IsLine newline x) (rest : List UInt8) :
    newline ∈ x ++ rest ∧ (x ++ rest).takeWhile (· ≠ newline) ++ [newline] = x ∧
      dropLine newline (x ++ rest) = rest := by
  obtain ⟨body, rfl, hbody⟩ := hx
  refine ⟨by simp, ?_, ?_⟩
  · rw [List.append_assoc, List.takeWhile_append_of_pos]
    · simp
    · intro b hb
      exact decide_eq_true (ne_of_mem_of_not_mem hb hbody)
  · rw [List.append_assoc, List.singleton_append, dropLine_append hbody]

variable {σ : Type} {m : Type → Type} [Monad m]

/-- The loop over complete lines. The lines are handled without their newlines. -/
def drainEach (step : σ → List UInt8 → m σ) (pending : List UInt8) (s : σ) :
    m (List UInt8 × σ) :=
  if _h : newline ∈ pending then do
    let s ← step s (pending.takeWhile (· ≠ newline))
    drainEach step (dropLine newline pending) s
  else pure (pending, s)
termination_by pending.length
decreasing_by
  exact length_dropLine_lt _h

/-- The loop over what is read. -/
def eachLine (step : σ → List UInt8 → m σ) : List (List UInt8) → List UInt8 → σ → m σ
  | [], pending, s => if pending = [] then pure s else step s pending
  | bytes :: pieces, pending, s => do
    let r ← drainEach step (pending ++ bytes) s
    eachLine step pieces r.1 r.2

/-- The lines of the input without their newlines. -/
def bareLines (bytes : List UInt8) : List (List UInt8) :=
  (byteLines bytes).map fun line => line.takeWhile (· ≠ newline)

variable {step : σ → List UInt8 → m σ} {ls pieces : List (List UInt8)} {pending rest : List UInt8}
  {s : σ}

lemma takeWhile_of_notMem (h : newline ∉ rest) : rest.takeWhile (· ≠ newline) = rest := by
  rw [List.takeWhile_eq_self_iff]
  exact fun b hb => decide_eq_true (ne_of_mem_of_not_mem hb h)

/-- What is behind a line does not belong to it. -/
lemma takeWhile_append_line {x : List UInt8} (hx : IsLine newline x) (rest : List UInt8) :
    (x ++ rest).takeWhile (· ≠ newline) = x.takeWhile (· ≠ newline) := by
  obtain ⟨-, hwhole, -⟩ := takeWhile_line hx rest
  obtain ⟨-, halone, -⟩ := takeWhile_line hx []
  rw [List.append_nil] at halone
  exact List.append_cancel_right (hwhole.trans halone.symm)

lemma bareLines_of_notMem (h : newline ∉ pending) (hne : pending ≠ []) :
    bareLines pending = [pending] := by
  rw [bareLines, byteLines_of_notMem h, if_neg hne, List.map_singleton, takeWhile_of_notMem h]

variable [LawfulMonad m]

lemma drainEach_flatten (h : ∀ x ∈ ls, IsLine newline x) (hrest : newline ∉ rest) :
    drainEach step (ls.flatten ++ rest) s =
      (rest, ·) <$> (ls.map fun line => line.takeWhile (· ≠ newline)).foldlM step s := by
  induction ls generalizing s with
  | nil =>
    rw [List.flatten_nil, List.nil_append, drainEach, dif_neg hrest]
    simp
  | cons x ls ih =>
    obtain ⟨hx, hls⟩ := List.forall_mem_cons.mp h
    obtain ⟨hmem, -, hdrop⟩ := takeWhile_line hx (ls.flatten ++ rest)
    rw [List.flatten_cons, List.append_assoc, drainEach, dif_pos hmem, hdrop,
      takeWhile_append_line hx, List.map_cons, List.foldlM_cons, map_bind]
    simp only [ih hls]

lemma drainEach_eq (pending : List UInt8) :
    drainEach step pending s = (unfinished newline pending, ·) <$>
      ((lines newline pending).map fun line => line.takeWhile (· ≠ newline)).foldlM step s := by
  obtain ⟨ls, r, hls, hr, rfl⟩ := exists_lines newline pending
  rw [drainEach_flatten hls hr, lines_flatten_append hls, lines_of_notMem hr, List.append_nil,
    unfinished_flatten_append hls, unfinished_of_notMem hr]

/-- However the input is cut into pieces, the lines of the whole input are handled. -/
lemma eachLine_eq (h : newline ∉ pending) :
    eachLine step pieces pending s = (bareLines (pending ++ pieces.flatten)).foldlM step s := by
  induction pieces generalizing pending s with
  | nil =>
    rw [eachLine, List.flatten_nil, List.append_nil]
    split_ifs with hnil
    · subst hnil
      rfl
    · rw [bareLines_of_notMem h hnil]
      simp
  | cons bytes pieces ih =>
    rw [eachLine, drainEach_eq, List.flatten_cons, ← List.append_assoc, bareLines, byteLines_append,
      List.map_append, List.foldlM_append]
    simp only [bind_map_left, ih (notMem_unfinished _)]
    rfl

/-- The lines of a stream, one by one. -/
def forLines (step : σ → List UInt8 → m σ) (stream : Stream) (s : σ) : m σ :=
  eachLine step (reads stream.chunks) [] s

theorem forLines_eq (stream : Stream) :
    forLines step stream s = (bareLines stream.bytes).foldlM step s := by
  rw [forLines, eachLine_eq List.not_mem_nil, flatten_reads stream.ne_nil]
  rfl

end AmlaSandbox.Commands
