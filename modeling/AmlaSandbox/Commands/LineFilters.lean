import AmlaSandbox.Commands.Cut
import AmlaSandbox.Commands.Reading
import AmlaSandbox.Text.Utf8
import Mathlib.Data.List.SplitBy

/-!
# Line filters

What `uniq`, `cut` and `wc` do with an input, however it is delivered. `uniq` keeps the first line
of the current run and the length of the run, and prints when another line comes. The counts of
`wc` are taken byte by byte, with a flag for whether the last byte belongs to a word.
-/

namespace AmlaSandbox.Commands

open Text

/-! ## uniq -/

namespace Uniq

open Library

structure UniqOptions where
  count : Bool
  onlyDuplicates : Bool
  onlyUnique : Bool
  ignoreCase : Bool

/-- A number in a field of seven characters. -/
def padded (n : ℕ) : Text :=
  List.replicate (7 - (Nat.toDigits 10 n).length) ' ' ++ Nat.toDigits 10 n

def emitLine (opts : UniqOptions) (line : Text) (count : ℕ) : Text :=
  let isDuplicate := 1 < count
  let isUnique := count = 1
  if opts.onlyDuplicates ∧ ¬ isDuplicate then []
  else if opts.onlyUnique ∧ ¬ isUnique then []
  else if opts.count then padded count ++ ' ' :: line ++ ['\n']
  else line ++ ['\n']

structure State where
  prevLine : Option Text
  prevCount : ℕ
  output : Text

section

-- `str::to_lowercase`
variable (toLowercase : Text → Text) (lossy : List UInt8 → Text) (opts : UniqOptions)

/-- What is compared of a line. -/
def compareLine (line : Text) : Text := if opts.ignoreCase then toLowercase line else line

def processUniqLine (s : State) (line : Text) : State :=
  if s.prevLine.map (compareLine toLowercase opts) = some (compareLine toLowercase opts line) then
    { s with prevCount := s.prevCount + 1 }
  else
    { prevLine := some line
      prevCount := 1
      output := match s.prevLine with
        | some prev => s.output ++ emitLine opts prev s.prevCount
        | none => s.output }

/-- The last line is printed at the end. -/
def flush (s : State) : Text :=
  match s.prevLine with
  | some prev => s.output ++ emitLine opts prev s.prevCount
  | none => s.output

def uniqFromHandle (stream : Stream) : List UInt8 :=
  let s := Id.run <| forLines (fun s line =>
    pure (processUniqLine toLowercase opts s (fromUtf8Lossy lossy line))) stream ⟨none, 0, []⟩
  utf8 (flush opts s)

/-! ### What should be printed -/

/-- The lines of a text, without their ends. -/
def textLines (text : Text) : List Text :=
  (lines '\n' text ++ if unfinished '\n' text = [] then [] else [unfinished '\n' text]).map
    fun line => line.takeWhile (· ≠ '\n')

/-- The maximal runs of lines that compare equal. -/
def runs (ls : List Text) : List (List Text) :=
  ls.splitBy fun line line' =>
    compareLine toLowercase opts line == compareLine toLowercase opts line'

/-- Whether a run of this length is printed. -/
def isPrinted (length : ℕ) : Bool :=
  (!opts.onlyDuplicates || 1 < length) && (!opts.onlyUnique || length = 1)

/-- The first line of a run, with the length. -/
def printRun (run : List Text) : Text :=
  if isPrinted opts run.length then
    (if opts.count then padded run.length ++ [' '] else []) ++ run.headD [] ++ ['\n']
  else []

end

/-! ### Lines of UTF-8 -/

section

variable {text : Text} {lossy : List UInt8 → Text}

lemma isLine_utf8 {line : Text} (h : IsLine '\n' line) : IsLine newline (utf8 line) ∧
    (utf8 line).takeWhile (· ≠ newline) = utf8 (line.takeWhile (· ≠ '\n')) := by
  obtain ⟨body, rfl, hbody⟩ := h
  have hmem : newline ∉ utf8 body := fun hmem => hbody ((mem_utf8_iff (c := '\n') rfl).mp hmem)
  have hutf8 : utf8 (body ++ ['\n']) = utf8 body ++ [newline] := utf8_append
  have hchars : ∀ c ∈ body, decide (c ≠ '\n') = true :=
    fun c hc => decide_eq_true (ne_of_mem_of_not_mem hc hbody)
  have hbytes : ∀ b ∈ utf8 body, decide (b ≠ newline) = true :=
    fun b hb => decide_eq_true (ne_of_mem_of_not_mem hb hmem)
  refine ⟨⟨utf8 body, hutf8, hmem⟩, ?_⟩
  rw [hutf8, List.takeWhile_append_of_pos hbytes, List.takeWhile_append_of_pos hchars]
  simp

lemma bareLines_utf8 : bareLines (utf8 text) = (textLines text).map utf8 := by
  obtain ⟨ls, rest, hls, hrest, rfl⟩ := exists_lines '\n' text
  have hmem : newline ∉ utf8 rest := fun hmem => hrest ((mem_utf8_iff (c := '\n') rfl).mp hmem)
  have hflat : utf8 ls.flatten = (ls.map utf8).flatten := by
    induction ls with
    | nil => rfl
    | cons line ls ih =>
      rw [List.flatten_cons, utf8_append, ih fun l hl => hls l (List.mem_cons_of_mem _ hl)]
      rfl
  have hlines : ∀ x ∈ ls.map utf8, IsLine newline x := by
    intro x hx
    obtain ⟨line, hline, rfl⟩ := List.mem_map.mp hx
    exact (isLine_utf8 (hls line hline)).1
  rw [bareLines, byteLines, utf8_append, hflat, lines_flatten_append hlines, lines_of_notMem hmem,
    unfinished_flatten_append hlines, unfinished_of_notMem hmem, textLines,
    lines_flatten_append hls, lines_of_notMem hrest, unfinished_flatten_append hls,
    unfinished_of_notMem hrest]
  have hbody : (ls.map utf8).map (fun line => line.takeWhile (· ≠ newline)) =
      (ls.map fun line => line.takeWhile (· ≠ '\n')).map utf8 := by
    rw [List.map_map, List.map_map]
    exact List.map_congr_left fun line hline => (isLine_utf8 (hls line hline)).2
  have htake : rest.takeWhile (· ≠ '\n') = rest :=
    List.takeWhile_eq_self_iff.mpr fun c hc => decide_eq_true (ne_of_mem_of_not_mem hc hrest)
  have hnil : utf8 rest = [] ↔ rest = [] := utf8_injective.eq_iff (b := [])
  rw [List.append_nil, List.append_nil, List.map_append, List.map_append, List.map_append, hbody]
  congr 1
  simp only [hnil]
  split_ifs
  · rfl
  · simp only [List.map_singleton, takeWhile_of_notMem hmem, htake]

end

/-! ### Runs -/

section

variable {toLowercase : Text → Text} {lossy : List UInt8 → Text} {opts : UniqOptions}
  {run ls : List Text} {line : Text} {output : Text}

lemma processUniqLine_of_eq {next : Text} {n : ℕ}
    (h : compareLine toLowercase opts line = compareLine toLowercase opts next) :
    processUniqLine toLowercase opts ⟨some line, n, output⟩ next =
      ⟨some line, n + 1, output⟩ :=
  if_pos (congrArg some h)

lemma processUniqLine_of_ne {next : Text} {n : ℕ}
    (h : compareLine toLowercase opts line ≠ compareLine toLowercase opts next) :
    processUniqLine toLowercase opts ⟨some line, n, output⟩ next =
      ⟨some next, 1, output ++ emitLine opts line n⟩ :=
  if_neg fun heq => h (Option.some.inj heq)

lemma printRun_cons : printRun opts (line :: run) = emitLine opts line (line :: run).length := by
  rw [printRun, emitLine, isPrinted]
  cases opts.onlyDuplicates <;> cases opts.onlyUnique <;> cases opts.count <;> simp <;>
    split_ifs <;> simp_all

lemma runs_of_equal (hrun : ∀ line' ∈ run, compareLine toLowercase opts line' =
      compareLine toLowercase opts line) :
    runs toLowercase opts (line :: run) = [line :: run] := by
  refine List.splitBy_of_isChain (List.cons_ne_nil line run) (List.Pairwise.isChain ?_)
  have hall : ∀ x ∈ line :: run,
      compareLine toLowercase opts x = compareLine toLowercase opts line :=
    List.forall_mem_cons.mpr ⟨rfl, hrun⟩
  refine List.pairwise_of_forall_mem_list fun x hx y hy => ?_
  rw [hall x hx, hall y hy, beq_self_eq_true]

/-- What is printed from the middle of a run on. -/
lemma flush_foldl (hrun : ∀ line' ∈ run, compareLine toLowercase opts line' =
      compareLine toLowercase opts line) :
    flush opts (ls.foldl (processUniqLine toLowercase opts)
        ⟨some line, (line :: run).length, output⟩) =
      output ++ (runs toLowercase opts (line :: run ++ ls)).flatMap (printRun opts) := by
  induction ls generalizing run line output with
  | nil =>
    rw [List.append_nil, runs_of_equal hrun, List.flatMap_singleton, printRun_cons]
    rfl
  | cons next ls ih =>
    rw [List.foldl_cons]
    by_cases hkey : compareLine toLowercase opts line = compareLine toLowercase opts next
    · have hrun' : ∀ line' ∈ run ++ [next], compareLine toLowercase opts line' =
          compareLine toLowercase opts line := by
        intro line' hline
        obtain hline | hline := List.mem_append.mp hline
        · exact hrun line' hline
        · rw [List.mem_singleton.mp hline, hkey]
      have hlen : (line :: (run ++ [next])).length = (line :: run).length + 1 := by simp
      have happend : line :: (run ++ [next]) ++ ls = line :: run ++ next :: ls := by simp
      rw [processUniqLine_of_eq hkey, ← hlen, ih hrun', happend]
    · have hsplit : runs toLowercase opts (line :: run ++ next :: ls) =
          runs toLowercase opts (line :: run) ++ runs toLowercase opts (next :: ls) := by
        refine List.splitBy_append fun x hx y hy => ?_
        obtain rfl := Option.some.inj hy
        obtain rfl | hx := List.mem_cons.mp (List.mem_of_getLast? hx)
        · exact beq_eq_false_iff_ne.mpr hkey
        rw [hrun x hx]
        exact beq_eq_false_iff_ne.mpr hkey
      rw [processUniqLine_of_ne hkey, hsplit, runs_of_equal hrun,
        List.flatMap_append, List.flatMap_singleton, printRun_cons, ← List.append_assoc]
      have hnil : ∀ line' ∈ ([] : List Text), compareLine toLowercase opts line' =
          compareLine toLowercase opts next := List.forall_mem_nil _
      exact ih hnil

/-- `uniq` prints the first line of each run that the options ask for. -/
lemma uniqFromHandle_eq {stream : Stream} {text : Text} (h : stream.bytes = utf8 text) :
    uniqFromHandle toLowercase lossy opts stream =
      utf8 ((runs toLowercase opts (textLines text)).flatMap (printRun opts)) := by
  have hloop (ls : List Text) (s : State) :
      Id.run ((ls.map utf8).foldlM (fun s line =>
        pure (processUniqLine toLowercase opts s (fromUtf8Lossy lossy line))) s) =
        ls.foldl (processUniqLine toLowercase opts) s := by
    rw [List.foldlM_pure, List.foldl_map]
    simp only [fromUtf8Lossy_utf8]
    rfl
  rw [uniqFromHandle, forLines_eq, h, bareLines_utf8, hloop]
  cases textLines text with
  | nil => rfl
  | cons line ls =>
    have hnil : ∀ line' ∈ ([] : List Text), compareLine toLowercase opts line' =
        compareLine toLowercase opts line := List.forall_mem_nil _
    exact congrArg utf8 ((flush_foldl hnil).trans (List.nil_append _))

end

end Uniq

/-! ## wc -/

namespace Wc

structure Counts where
  lines : ℕ
  words : ℕ
  bytes : ℕ
  chars : ℕ
deriving DecidableEq

/-- `u8::is_ascii_whitespace` -/
def isAsciiWhitespace (b : UInt8) : Bool := b = 9 ∨ b = 10 ∨ b = 12 ∨ b = 13 ∨ b = 32

/-- A byte that does not continue a character. -/
def startsChar (b : UInt8) : Bool := b &&& 0xC0 ≠ 0x80

/-- The body of the loop over bytes. -/
def countByte (s : Counts × Bool) (b : UInt8) : Counts × Bool :=
  let (counts, inWord) := s
  let counts := if b = newline then { counts with lines := counts.lines + 1 } else counts
  let counts := if startsChar b then { counts with chars := counts.chars + 1 } else counts
  if inWord && isAsciiWhitespace b then (counts, false)
  else if !inWord && !isAsciiWhitespace b then ({ counts with words := counts.words + 1 }, true)
  else (counts, inWord)

/-- The body of the loop over reads. -/
def countRead (s : Counts × Bool) (bytes : List UInt8) : Counts × Bool :=
  bytes.foldl countByte ({ s.1 with bytes := s.1.bytes + bytes.length }, s.2)

def countFromHandle (stream : Stream) : Counts :=
  ((reads stream.chunks).foldl countRead (⟨0, 0, 0, 0⟩, false)).1

/-- The maximal runs of bytes that are not whitespace. -/
def wordRuns (bytes : List UInt8) : List (List UInt8) :=
  (bytes.splitOnP isAsciiWhitespace).filter (· ≠ [])

variable {counts : Counts} {inWord : Bool} {b : UInt8} {bytes : List UInt8}

/-- The runs but for one that has begun already. -/
def moreRuns (inWord : Bool) (bytes : List UInt8) : ℕ :=
  if inWord then ((bytes.splitOnP isAsciiWhitespace).tail.filter (· ≠ [])).length
  else (wordRuns bytes).length

lemma moreRuns_of_whitespace (h : isAsciiWhitespace b = true) :
    moreRuns inWord (b :: bytes) = moreRuns false bytes := by
  rw [moreRuns, moreRuns, wordRuns, wordRuns, List.splitOnP_cons_eq_if_modifyHead, if_pos h]
  cases inWord <;> simp

lemma moreRuns_of_not (h : isAsciiWhitespace b = false) :
    moreRuns inWord (b :: bytes) = (if inWord then 0 else 1) + moreRuns true bytes := by
  have hsplit : (b :: bytes).splitOnP isAsciiWhitespace =
      (bytes.splitOnP isAsciiWhitespace).modifyHead (b :: ·) := by
    rw [List.splitOnP_cons_eq_if_modifyHead, h, if_neg Bool.false_ne_true]
  rw [moreRuns, moreRuns, wordRuns, hsplit]
  cases hruns : bytes.splitOnP isAsciiWhitespace with
  | nil => exact absurd hruns (List.splitOnP_ne_nil _ _)
  | cons run runs => cases inWord <;> simp [Nat.add_comm]

lemma countByte_eq : countByte (counts, inWord) b =
    (⟨counts.lines + if b = newline then 1 else 0,
      counts.words + if inWord || isAsciiWhitespace b then 0 else 1, counts.bytes,
      counts.chars + if startsChar b then 1 else 0⟩, !isAsciiWhitespace b) := by
  unfold countByte
  cases inWord <;> cases isAsciiWhitespace b <;> dsimp only [Bool.not_true, Bool.not_false,
    Bool.and_true, Bool.and_false, Bool.true_and, Bool.false_and, Bool.or_true, Bool.or_false] <;>
      split_ifs <;> simp_all

lemma foldl_countByte : (bytes.foldl countByte (counts, inWord)).1 =
    ⟨counts.lines + bytes.count newline, counts.words + moreRuns inWord bytes, counts.bytes,
      counts.chars + bytes.countP startsChar⟩ := by
  induction bytes generalizing counts inWord with
  | nil => cases inWord <;> rfl
  | cons b bytes ih =>
    have hruns : (if inWord || isAsciiWhitespace b then 0 else 1) +
        moreRuns (!isAsciiWhitespace b) bytes = moreRuns inWord (b :: bytes) := by
      cases hb : isAsciiWhitespace b with
      | true =>
        rw [moreRuns_of_whitespace hb, Bool.or_true, if_pos rfl, Nat.zero_add, Bool.not_true]
      | false => rw [moreRuns_of_not hb, Bool.or_false, Bool.not_false]
    rw [List.foldl_cons, countByte_eq, ih, List.count_cons, List.countP_cons, ← hruns]
    simp only [beq_iff_eq, Nat.add_assoc, Nat.add_comm, Nat.add_left_comm]

lemma foldl_countByte_bytes (k : ℕ) (s : Counts × Bool) :
    bytes.foldl countByte ({ s.1 with bytes := k }, s.2) =
      ({ (bytes.foldl countByte s).1 with bytes := k }, (bytes.foldl countByte s).2) := by
  induction bytes generalizing s with
  | nil => rfl
  | cons b bytes ih =>
    have hstep : countByte ({ s.1 with bytes := k }, s.2) b =
        ({ (countByte s b).1 with bytes := k }, (countByte s b).2) := by
      obtain ⟨counts, inWord⟩ := s
      rw [countByte_eq, countByte_eq]
    rw [List.foldl_cons, List.foldl_cons, hstep, ih]

/-- The counts do not depend on where the input is cut. -/
lemma foldl_countRead (pieces : List (List UInt8)) (s : Counts × Bool) :
    pieces.foldl countRead s =
      ({ (pieces.flatten.foldl countByte s).1 with bytes := s.1.bytes + pieces.flatten.length },
        (pieces.flatten.foldl countByte s).2) := by
  induction pieces generalizing s with
  | nil => rfl
  | cons bytes pieces ih =>
    have hread : countRead s bytes = ({ (bytes.foldl countByte s).1 with
        bytes := s.1.bytes + bytes.length }, (bytes.foldl countByte s).2) :=
      foldl_countByte_bytes _ s
    rw [List.foldl_cons, ih, hread, foldl_countByte_bytes, List.flatten_cons, List.foldl_append,
      List.length_append, ← Nat.add_assoc]

/-! ### Characters -/

lemma startsChar_next (b : UInt8) : startsChar (b &&& 0x3f ||| 0x80) = false := by
  have h : ∀ n : Fin 256, startsChar (UInt8.ofFin n &&& 0x3f ||| 0x80) = false := by
    decide +kernel
  exact h b.toFin

/-- The first byte of two, of three and of four. -/
lemma startsChar_first (b : UInt8) : startsChar (b &&& 0x1f ||| 0xc0) = true ∧
    startsChar (b &&& 0x0f ||| 0xe0) = true ∧ startsChar (b &&& 0x07 ||| 0xf0) = true := by
  have h : ∀ n : Fin 256, startsChar (UInt8.ofFin n &&& 0x1f ||| 0xc0) = true ∧
      startsChar (UInt8.ofFin n &&& 0x0f ||| 0xe0) = true ∧
        startsChar (UInt8.ofFin n &&& 0x07 ||| 0xf0) = true := by
    decide +kernel
  exact h b.toFin

lemma startsChar_of_lt (h : b < 128) : startsChar b = true := by
  have hall : ∀ n : Fin 256, UInt8.ofFin n < 128 → startsChar (UInt8.ofFin n) = true := by
    decide +kernel
  exact hall b.toFin h

/-- A character has one byte that does not continue it. -/
lemma countP_encode (c : Char) : (String.utf8EncodeChar c).countP startsChar = 1 := by
  obtain hsize | hsize | hsize | hsize := Char.utf8Size_eq c
  · have hascii : isAscii c = true := by
      have hle := UInt32.le_iff_toNat_le.mp (Char.utf8Size_eq_one_iff.mp hsize)
      exact decide_eq_true (Nat.lt_succ_of_le hle)
    rw [encode_of_isAscii hascii, List.countP_singleton, if_pos (startsChar_of_lt
      (toUInt8_lt hascii))]
  · rw [String.utf8EncodeChar_eq_cons_cons hsize]
    simp [startsChar_next, startsChar_first]
  · rw [String.utf8EncodeChar_eq_cons_cons_cons hsize]
    simp [startsChar_next, startsChar_first]
  · rw [String.utf8EncodeChar_eq_cons_cons_cons_cons hsize]
    simp [startsChar_next, startsChar_first]

lemma countP_utf8 (text : Text) : (utf8 text).countP startsChar = text.length := by
  induction text with
  | nil => rfl
  | cons c text ih =>
    rw [utf8_cons, List.countP_append, countP_encode, ih, List.length_cons, Nat.add_comm]

lemma count_newline_encode (c : Char) :
    (String.utf8EncodeChar c).count newline = if c = '\n' then 1 else 0 := by
  split_ifs with hc
  · rw [hc]
    rfl
  · refine List.count_eq_zero_of_not_mem fun hmem => hc ?_
    obtain ⟨hascii, heq⟩ := eq_of_mem_encode hmem (by decide)
    exact (toUInt8_inj hascii rfl).mp heq.symm

lemma count_newline_utf8 (text : Text) : (utf8 text).count newline = text.count '\n' := by
  induction text with
  | nil => rfl
  | cons c text ih =>
    rw [utf8_cons, List.count_append, count_newline_encode, ih, List.count_cons, Nat.add_comm]
    simp

/-- `wc` counts the newlines, the words, the bytes and the characters of its input. -/
lemma countFromHandle_eq {stream : Stream} {text : Text} (h : stream.bytes = utf8 text) :
    countFromHandle stream =
      ⟨text.count '\n', (wordRuns stream.bytes).length, stream.bytes.length, text.length⟩ := by
  have hchars : stream.bytes.countP startsChar = text.length := by rw [h, countP_utf8]
  have hlines : stream.bytes.count newline = text.count '\n' := by rw [h, count_newline_utf8]
  rw [countFromHandle, foldl_countRead, flatten_reads stream.ne_nil]
  rw [← Stream.bytes, foldl_countByte, hchars, hlines]
  simp [moreRuns]

end Wc

/-! ## The filters together -/

/-- The filters do what their lines, or their words and characters, say. -/
structure LineWise (toLowercase : Text → Text) (lossy : List UInt8 → Text)
    (opts : Uniq.UniqOptions) (usizeMax : ℕ) (mode : Cut.CutMode) (selectors : List Cut.Selector)
    (delimiter : UInt8) (onlyDelimited : Bool) (text : Text) (stream : Stream) : Prop where
  uniq : Uniq.uniqFromHandle toLowercase lossy opts stream =
    utf8 ((Uniq.runs toLowercase opts (Uniq.textLines text)).flatMap (Uniq.printRun opts))
  cut : Cut.cutFromHandle mode (Cut.parseRanges usizeMax (Cut.selectorsText selectors)) delimiter
      onlyDelimited stream =
    (bareLines stream.bytes).flatMap (Cut.cutLine mode selectors delimiter onlyDelimited)
  wc : Wc.countFromHandle stream =
    ⟨text.count '\n', (Wc.wordRuns stream.bytes).length, stream.bytes.length, text.length⟩

/-- `uniq` and `wc` always do, and `cut` if and only if no part of a line is selected by ranges with
a start beyond `usize` only. A line is shorter than `usize`. -/
theorem lineWise_iff (toLowercase : Text → Text) (lossy : List UInt8 → Text)
    (opts : Uniq.UniqOptions) (usizeMax : ℕ) (mode : Cut.CutMode) (selectors : List Cut.Selector)
    (delimiter : UInt8) (onlyDelimited : Bool) (text : Text) (stream : Stream)
    (hbytes : stream.bytes = utf8 text)
    (hlines : ∀ line ∈ bareLines stream.bytes, line.length < usizeMax) :
    LineWise toLowercase lossy opts usizeMax mode selectors delimiter onlyDelimited text stream ↔
      ∀ line ∈ bareLines stream.bytes,
        Cut.Kept usizeMax mode selectors delimiter onlyDelimited line := by
  rw [← Cut.cutFromHandle_iff hlines]
  constructor
  · exact LineWise.cut
  · intro hcut
    exact ⟨Uniq.uniqFromHandle_eq hbytes, hcut, Wc.countFromHandle_eq hbytes⟩

namespace Cut

def two : Position := ⟨['2'], by decide, List.all_eq_true.mp (by decide)⟩

/-- The first position beyond 64 bits. -/
def beyond : Position :=
  ⟨"18446744073709551616".toList, by decide, List.all_eq_true.mp (by decide)⟩

end Cut

/-- Two lines of two characters, cut within a character. -/
def umlauts : Stream := ⟨[[195], [164, 195, 164, 10, 97], [98]], by decide⟩

/-- The second byte of each line, and what is behind it. -/
theorem lineWise_umlauts :
    LineWise id (fun _ => []) ⟨true, false, false, true⟩ 18446744073709551615 .bytes
      [.onward Cut.two] 9 false "ää\nab".toList umlauts :=
  (lineWise_iff id (fun _ => []) ⟨true, false, false, true⟩ 18446744073709551615 .bytes
    [.onward Cut.two] 9 false "ää\nab".toList umlauts (by decide +kernel) (by decide +kernel)).mpr
    (by unfold Cut.Kept; decide +kernel)

/-- Nothing is behind the first position beyond `usize`, but everything is printed. -/
theorem not_lineWise :
    ¬ LineWise id (fun _ => []) ⟨true, false, false, true⟩ 18446744073709551615 .bytes
      [.onward Cut.beyond] 9 false "ää\nab".toList umlauts := by
  intro h
  have hkept := (Cut.cutFromHandle_iff (by decide +kernel)).mp h.cut
  revert hkept
  unfold Cut.Kept
  decide +kernel

end AmlaSandbox.Commands
