import AmlaSandbox.Commands.Reading

/-!
# xxd

A hex dump and back. The reverse finds the bytes of a line between its first colon and the first two
spaces behind it.
-/

namespace AmlaSandbox.Commands.Xxd

open Text Library

structure Options where
  cols : ℕ
  cols_pos : 0 < cols
  group : ℕ
  uppercase : Bool
  plain : Bool
  cInclude : Bool
  length : Option ℕ
  seek : ℕ

/-! ### Dumps -/

/-- A half of a byte. -/
def hexChar (uppercase : Bool) (n : ℕ) : Char :=
  (if uppercase then "0123456789ABCDEF" else "0123456789abcdef").toList.getD n '0'

def hexPair (uppercase : Bool) (byte : UInt8) : Text :=
  [hexChar uppercase (byte >>> 4).toNat, hexChar uppercase (byte &&& 0x0f).toNat]

/-- `format!("{offset:08x}")` -/
def offsetText (offset : ℕ) : Text :=
  List.replicate (8 - (Nat.toDigits 16 offset).length) '0' ++ Nat.toDigits 16 offset

def asciiChar (byte : UInt8) : Char :=
  if 0x20 ≤ byte ∧ byte ≤ 0x7e then Char.ofNat byte.toNat else '.'

/-- The bytes of a line from the `i`th on, with a space after each group. -/
def hexGroups (opts : Options) (i : ℕ) : List UInt8 → Text
  | [] => []
  | byte :: data =>
    hexPair opts.uppercase byte ++
      (if 0 < opts.group ∧ (i + 1) % opts.group = 0 ∧ i + 1 < opts.cols then [' '] else []) ++
        hexGroups opts (i + 1) data

def expectedHexLen (opts : Options) : ℕ :=
  let groupsPerLine :=
    if 0 < opts.group then (opts.cols + opts.group - 1) / opts.group else 1
  opts.cols * 2 + (groupsPerLine - 1)

def outputLine (opts : Options) (data : List UInt8) (offset : ℕ) : Text :=
  if opts.cInclude then
    "  ".toList ++
      ", ".toList.intercalate (data.map fun byte => '0' :: 'x' :: hexPair false byte) ++ [',', '\n']
  else if opts.plain then data.flatMap (hexPair opts.uppercase) ++ ['\n']
  else
    let hexPart := hexGroups opts 0 data
    offsetText offset ++ ':' :: ' ' :: hexPart ++
      List.replicate (expectedHexLen opts - hexPart.length) ' ' ++ ' ' :: ' ' ::
        data.map asciiChar ++ ['\n']

/-- A read while there is something to skip. -/
def skip (skipRemaining : ℕ) (chunks : List (List UInt8)) : List (List UInt8) :=
  if _hskip : skipRemaining = 0 then chunks
  else
    let r := read (min skipRemaining bufferSize) chunks
    if _hread : r.1 = [] then r.2 else skip (skipRemaining - r.1.length) r.2
termination_by skipRemaining
decreasing_by
  exact Nat.sub_lt (Nat.pos_of_ne_zero _hskip) (List.length_pos_of_ne_nil _hread)

/-- The loop over complete lines: their text, and what is left with its offset. -/
def drainCols (opts : Options) (pending : List UInt8) (offset : ℕ) : Text × List UInt8 × ℕ :=
  if _h : opts.cols ≤ pending.length then
    let r := drainCols opts (pending.drop opts.cols) (offset + opts.cols)
    (outputLine opts (pending.take opts.cols) offset ++ r.1, r.2)
  else ([], pending, offset)
termination_by pending.length
decreasing_by
  have hpos := opts.cols_pos
  rw [List.length_drop]
  omega

/-- The remaining bytes. -/
def outputRest (opts : Options) (pending : List UInt8) (offset : ℕ) : Text :=
  if pending ≠ [] then outputLine opts pending offset else []

/-- The loop over what is read: the text, and how many bytes it is of. -/
def outputPieces (opts : Options) (maxBytes : ℕ) :
    List (List UInt8) → List UInt8 → ℕ → ℕ → Text × ℕ
  | [], pending, bytesOutput, offset => (outputRest opts pending offset, bytesOutput)
  | bytes :: pieces, pending, bytesOutput, offset =>
    let take := min bytes.length (maxBytes - bytesOutput)
    let r := drainCols opts (pending ++ bytes.take take) offset
    if maxBytes ≤ bytesOutput + take then
      (r.1 ++ outputRest opts r.2.1 r.2.2, bytesOutput + take)
    else
      let s := outputPieces opts maxBytes pieces r.2.1 (bytesOutput + take) r.2.2
      (r.1 ++ s.1, s.2)

/-- Binary to hex dump. `varName` is for C. -/
def forwardXxd (usizeMax : ℕ) (opts : Options) (varName : Text) (stream : Stream) : Text :=
  let maxBytes := opts.length.getD usizeMax
  let r := outputPieces opts maxBytes (reads (skip opts.seek stream.chunks)) [] 0 opts.seek
  (if opts.cInclude then "unsigned char ".toList ++ varName ++ "[] = \x7b\n".toList else []) ++
    r.1 ++ if opts.cInclude then
      "\x7d;\nunsigned int ".toList ++ varName ++ "_len = ".toList ++ Nat.toDigits 10 r.2 ++
        [';', '\n']
    else []

/-! ### Reverse -/

def isAsciiHexdigit (c : Char) : Bool :=
  ('0' ≤ c && c ≤ '9') || ('a' ≤ c && c ≤ 'f') || ('A' ≤ c && c ≤ 'F')

/-- `c.to_digit(16)` -/
def toDigit (c : Char) : Option ℕ :=
  if '0' ≤ c ∧ c ≤ '9' then some (c.toNat - 48)
  else if 'a' ≤ c ∧ c ≤ 'f' then some (c.toNat - 87)
  else if 'A' ≤ c ∧ c ≤ 'F' then some (c.toNat - 55)
  else none

/-- The loop over two digits at a time. -/
def parsePairs : List Char → List UInt8
  | h :: l :: chars =>
    match toDigit h, toDigit l with
    | some hv, some lv => UInt8.ofNat (hv <<< 4 ||| lv) :: parsePairs chars
    | _, _ => parsePairs chars
  | _ => []

def parsePlainHex (input : Text) : List UInt8 := parsePairs (input.filter isAsciiHexdigit)

/-- What is before the first two spaces. -/
def beforeSpaces : Text → Text
  | ' ' :: ' ' :: _ => []
  | c :: s => c :: beforeSpaces s
  | [] => []

/-- What is behind the first colon. -/
def afterColon (line : Text) : Text :=
  if ':' ∈ line then (line.dropWhile (· ≠ ':')).tail else line

def parseLine (line : Text) : List UInt8 :=
  let line := trim line
  if line = [] then [] else parsePlainHex (beforeSpaces (afterColon line))

def parseXxdHex (input : Text) : List UInt8 := (strLines input).flatMap parseLine

def reverseXxd (lossy : List UInt8 → Text) (plain : Bool) (stream : Stream) : List UInt8 :=
  let input := fromUtf8Lossy lossy (readAll stream)
  if plain then parsePlainHex input else parseXxdHex input

/-- The bytes from the offset on, at most so many. -/
def selected (opts : Options) (bytes : List UInt8) : List UInt8 :=
  match opts.length with
  | some length => (bytes.drop opts.seek).take length
  | none => bytes.drop opts.seek

/-! ### Lines of a dump -/

/-- The lines of some bytes, from an offset on. -/
def dump (opts : Options) (offset : ℕ) (data : List UInt8) : Text :=
  let r := drainCols opts data offset
  r.1 ++ outputRest opts r.2.1 r.2.2

variable {opts : Options} {data pending rest : List UInt8} {offset n : ℕ}
  {chunks pieces : List (List UInt8)} {stream : Stream}

lemma dump_of_lt (h : data.length < opts.cols) :
    dump opts offset data = outputRest opts data offset := by
  rw [dump, drainCols, dif_neg (Nat.not_le_of_lt h)]
  rfl

lemma dump_of_le (h : opts.cols ≤ data.length) :
    dump opts offset data = outputLine opts (data.take opts.cols) offset ++
      dump opts (offset + opts.cols) (data.drop opts.cols) := by
  rw [dump, drainCols, dif_pos h, dump, List.append_assoc]

/-- What has been put out does not depend on what comes later. -/
lemma dump_append (pending rest : List UInt8) (offset : ℕ) :
    dump opts offset (pending ++ rest) = (drainCols opts pending offset).1 ++
      dump opts (drainCols opts pending offset).2.2
        ((drainCols opts pending offset).2.1 ++ rest) := by
  fun_induction drainCols opts pending offset with
  | case1 pending offset h r ih =>
    have hlen : opts.cols ≤ (pending ++ rest).length := by
      rw [List.length_append]
      omega
    rw [dump_of_le hlen, List.take_append_of_le_length h, List.drop_append_of_le_length h, ih,
      List.append_assoc]
  | case2 => rfl

lemma skip_spec (h : ∀ chunk ∈ chunks, chunk ≠ []) :
    (skip n chunks).flatten = chunks.flatten.drop n ∧ ∀ chunk ∈ skip n chunks, chunk ≠ [] := by
  fun_induction skip n chunks with
  | case1 => exact ⟨List.drop_zero.symm, h⟩
  | case2 n chunks hpos r hread =>
    obtain rfl := read_ne_nil h (lt_min (Nat.pos_of_ne_zero hpos) (by decide)) hread
    exact ⟨List.drop_nil.symm, h⟩
  | case3 n chunks hpos r hread ih =>
    obtain ⟨hflat, hne⟩ := ih (ne_nil_of_mem_read h)
    have hlen : r.1.length ≤ n := (length_read_le chunks).trans (min_le_left ..)
    refine ⟨?_, hne⟩
    rw [hflat, ← read_append (min n bufferSize) chunks, List.drop_append,
      List.drop_eq_nil_of_le hlen, List.nil_append]

lemma length_drainCols (data : List UInt8) (offset : ℕ) :
    (drainCols opts data offset).2.1.length < opts.cols := by
  fun_induction drainCols opts data offset with
  | case1 _ _ _ _ ih => exact ih
  | case2 _ _ h => exact Nat.lt_of_not_le h

/-- The bytes are dumped as they are read, up to the limit. -/
lemma outputPieces_eq {maxBytes bytesOutput : ℕ} (hpending : pending.length < opts.cols) :
    outputPieces opts maxBytes pieces pending bytesOutput offset =
      (dump opts offset (pending ++ pieces.flatten.take (maxBytes - bytesOutput)),
        bytesOutput + min pieces.flatten.length (maxBytes - bytesOutput)) := by
  induction pieces generalizing pending bytesOutput offset with
  | nil =>
    rw [outputPieces, List.flatten_nil, List.take_nil, List.append_nil, dump_of_lt hpending,
      List.length_nil, Nat.zero_min, Nat.add_zero]
  | cons bytes pieces ih =>
    have htake : bytes.take (min bytes.length (maxBytes - bytesOutput)) =
        bytes.take (maxBytes - bytesOutput) := by
      rw [List.take_eq_take_iff]
      omega
    rw [outputPieces, htake, List.flatten_cons, List.take_append, ← List.append_assoc,
      dump_append, List.length_append]
    have hlt := @length_drainCols opts (pending ++ bytes.take (maxBytes - bytesOutput)) offset
    dsimp only
    split_ifs with hmax
    · have hzero : maxBytes - bytesOutput - bytes.length = 0 := by omega
      rw [hzero, List.take_zero, List.append_nil, dump_of_lt hlt]
      congr 1
      omega
    · have hrest : maxBytes - (bytesOutput + min bytes.length (maxBytes - bytesOutput)) =
        maxBytes - bytesOutput - bytes.length := by omega
      rw [ih hlt, hrest]
      congr 1
      omega

/-- The selected bytes are dumped, however they are delivered. -/
lemma forwardXxd_eq {usizeMax : ℕ} {varName : Text} (hinclude : opts.cInclude = false)
    (hfit : opts.seek + (selected opts stream.bytes).length ≤ usizeMax) :
    forwardXxd usizeMax opts varName stream =
      dump opts opts.seek (selected opts stream.bytes) := by
  obtain ⟨hflat, hne⟩ := skip_spec (n := opts.seek) stream.ne_nil
  have htake : (stream.bytes.drop opts.seek).take (opts.length.getD usizeMax) =
      selected opts stream.bytes := by
    rw [selected] at hfit ⊢
    cases hlength : opts.length with
    | some length => rfl
    | none =>
      rw [hlength] at hfit
      exact List.take_of_length_le ((Nat.le_add_left ..).trans hfit)
  have hpos : ([] : List UInt8).length < opts.cols := opts.cols_pos
  rw [forwardXxd, outputPieces_eq hpos, flatten_reads hne, hflat]
  simp only [hinclude, Bool.false_eq_true, if_false, List.nil_append, List.append_nil, Nat.sub_zero]
  exact congrArg _ htake

/-! ### Digits -/

lemma hexChar_spec : ∀ uppercase, ∀ n < 16, isAsciiHexdigit (hexChar uppercase n) = true ∧
    toDigit (hexChar uppercase n) = some n := by decide +kernel

lemma byte_halves (byte : UInt8) : (byte >>> 4).toNat < 16 ∧ (byte &&& 0x0f).toNat < 16 ∧
    UInt8.ofNat ((byte >>> 4).toNat <<< 4 ||| (byte &&& 0x0f).toNat) = byte := by
  have hall : ∀ n < 256, (UInt8.ofNat n >>> 4).toNat < 16 ∧ (UInt8.ofNat n &&& 0x0f).toNat < 16 ∧
      UInt8.ofNat ((UInt8.ofNat n >>> 4).toNat <<< 4 ||| (UInt8.ofNat n &&& 0x0f).toNat) =
        UInt8.ofNat n := by decide +kernel
  have hbyte := hall byte.toNat byte.toNat_lt
  rwa [UInt8.ofNat_toNat] at hbyte

lemma isAsciiHexdigit_of_mem_hexPair {uppercase : Bool} {byte : UInt8} {c : Char}
    (h : c ∈ hexPair uppercase byte) : isAsciiHexdigit c = true := by
  obtain ⟨hhigh, hlow, -⟩ := byte_halves byte
  rcases List.mem_pair.mp h with rfl | rfl
  · exact (hexChar_spec uppercase _ hhigh).1
  · exact (hexChar_spec uppercase _ hlow).1

lemma parsePairs_hexPair (uppercase : Bool) (byte : UInt8) (chars : List Char) :
    parsePairs (hexPair uppercase byte ++ chars) = byte :: parsePairs chars := by
  obtain ⟨hhigh, hlow, hbyte⟩ := byte_halves byte
  have hparse : parsePairs (hexPair uppercase byte ++ chars) =
      UInt8.ofNat ((byte >>> 4).toNat <<< 4 ||| (byte &&& 0x0f).toNat) :: parsePairs chars := by
    rw [hexPair, List.cons_append, List.cons_append, List.nil_append, parsePairs,
      (hexChar_spec uppercase _ hhigh).2, (hexChar_spec uppercase _ hlow).2]
  rw [hparse, hbyte]

lemma parsePairs_flatMap (uppercase : Bool) (data : List UInt8) :
    parsePairs (data.flatMap (hexPair uppercase)) = data := by
  induction data with
  | nil => rfl
  | cons byte data ih => rw [List.flatMap_cons, parsePairs_hexPair, ih]

lemma filter_hexPair (uppercase : Bool) (byte : UInt8) :
    (hexPair uppercase byte).filter isAsciiHexdigit = hexPair uppercase byte :=
  List.filter_eq_self.mpr fun _ => isAsciiHexdigit_of_mem_hexPair

lemma isAsciiHexdigit_of_mem_toDigits {c : Char} (h : c ∈ Nat.toDigits 16 n) :
    isAsciiHexdigit c = true := by
  have hdigit : ∀ n < 16, isAsciiHexdigit n.digitChar = true := by decide
  induction n using Nat.strong_induction_on with
  | _ n ih =>
    rw [Nat.toDigits_eq_if (by decide)] at h
    split_ifs at h with hlt
    · rw [List.mem_singleton.mp h]
      exact hdigit n hlt
    · rcases List.mem_append.mp h with hmem | hmem
      · exact ih (n / 16) (by omega) hmem
      · rw [List.mem_singleton.mp hmem]
        exact hdigit _ (Nat.mod_lt _ (by decide))

/-! ### Plain format -/

/-- A dump is made of lines, each with some of the bytes. -/
lemma exists_outputLines (opts : Options) (offset : ℕ) (data : List UInt8) :
    ∃ ls : List (List UInt8 × ℕ), (∀ line ∈ ls, line.1 ≠ []) ∧ ls.flatMap Prod.fst = data ∧
      dump opts offset data = ls.flatMap fun line => outputLine opts line.1 line.2 := by
  have hpos := opts.cols_pos
  induction hm : data.length using Nat.strong_induction_on generalizing offset data with
  | _ m ih =>
    by_cases hle : opts.cols ≤ data.length
    · obtain ⟨ls, hne, hdata, hdump⟩ := ih (m - opts.cols) (by omega) (offset + opts.cols)
        (data.drop opts.cols) (by rw [List.length_drop, hm])
      refine ⟨(data.take opts.cols, offset) :: ls, List.forall_mem_cons.mpr ⟨?_, hne⟩, ?_, ?_⟩
      · apply List.ne_nil_of_length_pos
        rw [List.length_take]
        omega
      · rw [List.flatMap_cons, hdata]
        exact List.take_append_drop ..
      · rw [dump_of_le hle, hdump, List.flatMap_cons]
    · rw [dump_of_lt (Nat.lt_of_not_le hle), outputRest]
      split_ifs with hnil
      · exact ⟨[(data, offset)], by simpa using hnil, by simp, by simp⟩
      · exact ⟨[], by simp, by simpa using (not_not.mp hnil).symm, rfl⟩

lemma filter_outputLine (hinclude : opts.cInclude = false) (hplain : opts.plain = true)
    (data : List UInt8) (offset : ℕ) :
    (outputLine opts data offset).filter isAsciiHexdigit =
      data.flatMap (hexPair opts.uppercase) := by
  rw [outputLine, hinclude, hplain, if_neg Bool.false_ne_true, if_pos rfl, List.filter_append,
    List.filter_flatMap]
  simp only [filter_hexPair]
  exact List.append_nil _

lemma parsePlainHex_dump (hinclude : opts.cInclude = false) (hplain : opts.plain = true)
    (offset : ℕ) (data : List UInt8) : parsePlainHex (dump opts offset data) = data := by
  obtain ⟨ls, -, rfl, hdump⟩ := exists_outputLines opts offset data
  rw [parsePlainHex, hdump, List.filter_flatMap]
  simp only [filter_outputLine hinclude hplain]
  rw [← List.flatMap_assoc, parsePairs_flatMap]

/-! ### Spaces and colons -/

variable {s t w : Text} {c : Char}

lemma beforeSpaces_cons (h : c ≠ ' ') (s : Text) : beforeSpaces (c :: s) = c :: beforeSpaces s := by
  rw [beforeSpaces]
  intro s' heq
  exact absurd heq h

lemma beforeSpaces_space (h : s.head? ≠ some ' ') :
    beforeSpaces (' ' :: s) = ' ' :: beforeSpaces s := by
  rw [beforeSpaces]
  intro s' _ heq
  rw [heq] at h
  exact h rfl

lemma beforeSpaces_sublist (s : Text) : (beforeSpaces s).Sublist s := by
  fun_induction beforeSpaces s with
  | case1 => exact List.nil_sublist _
  | case2 c s _ ih => exact ih.cons_cons c
  | case3 => exact List.Sublist.refl _

/-- Whitespace at the end of a line makes no difference. -/
lemma filter_beforeSpaces_append (h : ∀ c ∈ w, isAsciiHexdigit c = false) (s : Text) :
    (beforeSpaces (s ++ w)).filter isAsciiHexdigit = (beforeSpaces s).filter isAsciiHexdigit := by
  fun_induction beforeSpaces s with
  | case1 s => rfl
  | case2 c s hne ih =>
    rw [List.cons_append]
    by_cases hspace : c = ' ' ∧ (s ++ w).head? = some ' '
    · obtain ⟨rfl, hhead⟩ := hspace
      cases s with
      | nil =>
        obtain ⟨w', rfl⟩ := List.head?_eq_some_iff.mp hhead
        rfl
      | cons d s =>
        obtain rfl : d = ' ' := Option.some.inj hhead
        exact absurd rfl (hne s rfl)
    · have hcons : beforeSpaces (c :: (s ++ w)) = c :: beforeSpaces (s ++ w) := by
        by_cases hc : c = ' '
        · subst hc
          exact beforeSpaces_space fun hhead => hspace ⟨rfl, hhead⟩
        · exact beforeSpaces_cons hc _
      rw [hcons, List.filter_cons, List.filter_cons, ih]
  | case3 =>
    rw [List.nil_append, List.filter_nil, List.filter_eq_nil_iff]
    intro c hc
    rw [h c ((beforeSpaces_sublist w).subset hc)]
    exact Bool.false_ne_true

lemma afterColon_append (h : ':' ∉ s) (t : Text) : afterColon (s ++ ':' :: t) = t := by
  have hs : ∀ c ∈ s, decide (c ≠ ':') = true :=
    fun c hc => decide_eq_true (ne_of_mem_of_not_mem hc h)
  rw [afterColon, if_pos (by simp), List.dropWhile_append_of_pos hs]
  rfl

/-! ### Standard format -/

lemma ne_of_isAsciiHexdigit {c d : Char} (h : isAsciiHexdigit c = true)
    (hd : isAsciiHexdigit d = false) : c ≠ d := by
  rintro rfl
  exact absurd (h.symm.trans hd) Bool.true_eq_false.mp

lemma beforeSpaces_append (h : ∀ c ∈ s, isAsciiHexdigit c = true) (t : Text) :
    beforeSpaces (s ++ t) = s ++ beforeSpaces t := by
  induction s with
  | nil => rfl
  | cons c s ih =>
    obtain ⟨hc, hs⟩ := List.forall_mem_cons.mp h
    rw [List.cons_append, beforeSpaces_cons (ne_of_isAsciiHexdigit hc (by decide)), ih hs]
    rfl

/-- What is behind the bytes starts with two spaces. -/
lemma beforeSpaces_padding (k : ℕ) (rest : Text) :
    beforeSpaces (List.replicate k ' ' ++ ' ' :: ' ' :: rest) = [] ∧
      beforeSpaces (' ' :: (List.replicate k ' ' ++ ' ' :: ' ' :: rest)) = [] := by
  rcases k with _ | _ | k
  · exact ⟨rfl, rfl⟩
  · exact ⟨rfl, rfl⟩
  · exact ⟨rfl, rfl⟩

lemma head?_hexGroups (opts : Options) (i : ℕ) (byte : UInt8) (data : List UInt8) (t : Text) :
    (hexGroups opts i (byte :: data) ++ t).head? ≠ some ' ' := by
  have hdigit := @isAsciiHexdigit_of_mem_hexPair opts.uppercase byte _ List.mem_cons_self
  intro hhead
  exact ne_of_isAsciiHexdigit hdigit (by decide) (Option.some.inj hhead)

/-- The digits of the bytes are those before the first two spaces. -/
lemma filter_beforeSpaces_hexGroups (i k : ℕ) (data : List UInt8) (rest : Text) :
    (beforeSpaces (hexGroups opts i data ++ (List.replicate k ' ' ++ ' ' :: ' ' :: rest))).filter
      isAsciiHexdigit = data.flatMap (hexPair opts.uppercase) := by
  induction data generalizing i with
  | nil =>
    rw [hexGroups, List.nil_append, (beforeSpaces_padding k rest).1]
    rfl
  | cons byte data ih =>
    rw [hexGroups, List.flatMap_cons, List.append_assoc, List.append_assoc,
      beforeSpaces_append fun _ => isAsciiHexdigit_of_mem_hexPair, List.filter_append,
      filter_hexPair, ← ih (i + 1)]
    congr 1
    split_ifs with hgroup
    · cases data with
      | nil =>
        rw [hexGroups, List.nil_append, List.singleton_append, (beforeSpaces_padding k rest).1,
          (beforeSpaces_padding k rest).2]
      | cons byte' data =>
        -- the space is between two groups
        rw [List.singleton_append, beforeSpaces_space (head?_hexGroups _ _ _ _ _)]
        rfl
    · rw [List.nil_append]

lemma isAsciiHexdigit_of_mem_offsetText (h : c ∈ offsetText n) : isAsciiHexdigit c = true := by
  rcases List.mem_append.mp h with hmem | hmem
  · rw [List.eq_of_mem_replicate hmem]
    decide
  · exact isAsciiHexdigit_of_mem_toDigits hmem

lemma isWhitespace_of_isAsciiHexdigit (h : isAsciiHexdigit c = true) : isWhitespace c = false := by
  simp only [isAsciiHexdigit, Bool.or_eq_true, Bool.and_eq_true, decide_eq_true_eq, Char.le_def,
    UInt32.le_iff_toNat_le] at h
  simp only [isWhitespace, Bool.or_eq_false_iff, Bool.and_eq_false_iff, decide_eq_false_iff_not,
    beq_eq_false_iff_ne, ne_eq, ← UInt32.toNat_inj, UInt32.le_iff_toNat_le, UInt32.reduceToNat]
  have hrange : (48 ≤ c.val.toNat ∧ c.val.toNat ≤ 57 ∨ 97 ≤ c.val.toNat ∧ c.val.toNat ≤ 102) ∨
    65 ≤ c.val.toNat ∧ c.val.toNat ≤ 70 := h
  omega

/-- Only what is at the ends of a line is trimmed off. -/
lemma parseLine_append (hdigits : ∀ c ∈ s, isAsciiHexdigit c = true) (hne : s ≠ []) (t : Text) :
    parseLine (s ++ ':' :: t) = parsePlainHex (beforeSpaces t) := by
  have hhead : ∀ c ∈ s.head?, isWhitespace c = false :=
    fun c hc => isWhitespace_of_isAsciiHexdigit (hdigits c (List.mem_of_mem_head? hc))
  have hcolon : ':' ∉ s := fun hmem => absurd (hdigits _ hmem) (by decide)
  have hwhite : ∀ c ∈ (s ++ ':' :: t).rtakeWhile isWhitespace, isWhitespace c = true :=
    fun c hc => List.mem_rtakeWhile_imp hc
  have hsplit := List.rdropWhile_append_rtakeWhile (p := isWhitespace) (l := s ++ ':' :: t)
  rw [parseLine, trim, dropWhile_isWhitespace_append hne hhead]
  generalize (s ++ ':' :: t).rdropWhile isWhitespace = line at hsplit ⊢
  generalize (s ++ ':' :: t).rtakeWhile isWhitespace = w at hsplit hwhite
  have hdigit : ∀ c ∈ w, isAsciiHexdigit c = false := fun c hc => by
    by_contra hdigit
    have hnot := isWhitespace_of_isAsciiHexdigit (Bool.not_eq_false _ ▸ hdigit)
    exact absurd (hnot.symm.trans (hwhite c hc)) Bool.false_ne_true
  rcases List.append_eq_append_iff.mp hsplit with ⟨u, -, hw⟩ | ⟨u, hline, hu⟩
  · exact absurd (hwhite ':' (by rw [hw]; simp)) (by decide)
  · cases u with
    | nil =>
      have hw : w = ':' :: t := hu.symm
      exact absurd (hwhite ':' (hw ▸ List.mem_cons_self)) (by decide)
    | cons c u =>
      obtain ⟨rfl, rfl⟩ := List.cons.inj hu
      rw [hline, if_neg (List.append_ne_nil_of_left_ne_nil hne _), afterColon_append hcolon,
        parsePlainHex, parsePlainHex]
      exact congrArg _ (filter_beforeSpaces_append hdigit u).symm

/-- A line in the standard format, without its end. -/
def lineText (opts : Options) (data : List UInt8) (offset : ℕ) : Text :=
  offsetText offset ++ ':' :: ' ' :: (hexGroups opts 0 data ++
    (List.replicate (expectedHexLen opts - (hexGroups opts 0 data).length) ' ' ++
      ' ' :: ' ' :: data.map asciiChar))

lemma outputLine_eq (hinclude : opts.cInclude = false) (hplain : opts.plain = false) :
    outputLine opts data offset = lineText opts data offset ++ ['\n'] := by
  simp [outputLine, lineText, hinclude, hplain]

lemma parseLine_lineText (hne : data ≠ []) : parseLine (lineText opts data offset) = data := by
  have hoffset : offsetText offset ≠ [] :=
    List.append_ne_nil_of_right_ne_nil _ Nat.toDigits_ne_nil
  rw [lineText, parseLine_append (fun _ => isAsciiHexdigit_of_mem_offsetText) hoffset,
    parsePlainHex]
  cases data with
  | nil => exact absurd rfl hne
  | cons byte data =>
    rw [beforeSpaces_space (head?_hexGroups _ _ _ _ _), List.filter_cons_of_neg (by decide),
      filter_beforeSpaces_hexGroups, parsePairs_flatMap]

lemma notMem_hexGroups (hdigit : isAsciiHexdigit c = false) (hspace : c ≠ ' ') (i : ℕ)
    (data : List UInt8) : c ∉ hexGroups opts i data := by
  induction data generalizing i with
  | nil => exact List.not_mem_nil
  | cons byte data ih =>
    have hpair : c ∉ hexPair opts.uppercase byte := fun hmem =>
      absurd ((isAsciiHexdigit_of_mem_hexPair hmem).symm.trans hdigit) Bool.true_eq_false.mp
    have hgroup : c ∉ if 0 < opts.group ∧ (i + 1) % opts.group = 0 ∧ i + 1 < opts.cols then [' ']
        else [] := by
      split_ifs
      · exact fun hmem => hspace (List.mem_singleton.mp hmem)
      · exact List.not_mem_nil
    rw [hexGroups, List.mem_append, List.mem_append]
    rintro ((hmem | hmem) | hmem)
    · exact hpair hmem
    · exact hgroup hmem
    · exact ih (i + 1) hmem

lemma asciiChar_ne : ∀ byte, asciiChar byte ≠ '\n' ∧ asciiChar byte ≠ '\r' := by
  have hall : ∀ n < 256, asciiChar (UInt8.ofNat n) ≠ '\n' ∧ asciiChar (UInt8.ofNat n) ≠ '\r' := by
    decide +kernel
  intro byte
  have hbyte := hall byte.toNat byte.toNat_lt
  rwa [UInt8.ofNat_toNat] at hbyte

/-- A character that ends lines is not in them. -/
lemma notMem_lineText (hdigit : isAsciiHexdigit c = false) (hspace : c ≠ ' ') (hcolon : c ≠ ':')
    (hascii : ∀ byte, asciiChar byte ≠ c) : c ∉ lineText opts data offset := by
  have hoffset : c ∉ offsetText offset := fun hmem =>
    absurd ((isAsciiHexdigit_of_mem_offsetText hmem).symm.trans hdigit) Bool.true_eq_false.mp
  have hgroups := @notMem_hexGroups opts c hdigit hspace 0 data
  simp [lineText, hoffset, hgroups, hspace, hcolon, hascii]

lemma strLines_dump (hinclude : opts.cInclude = false) (hplain : opts.plain = false)
    (ls : List (List UInt8 × ℕ)) :
    strLines (ls.flatMap fun line => outputLine opts line.1 line.2) =
      ls.map fun line => lineText opts line.1 line.2 := by
  induction ls with
  | nil => rfl
  | cons line ls ih =>
    have hnewline : '\n' ∉ lineText opts line.1 line.2 :=
      notMem_lineText (by decide) (by decide) (by decide) fun byte => (asciiChar_ne byte).1
    have hreturn : '\r' ∉ lineText opts line.1 line.2 :=
      notMem_lineText (by decide) (by decide) (by decide) fun byte => (asciiChar_ne byte).2
    have hlast : (lineText opts line.1 line.2).getLast? ≠ some '\r' := fun hlast =>
      hreturn (List.mem_of_getLast? hlast)
    rw [List.flatMap_cons, outputLine_eq hinclude hplain, List.append_assoc, List.singleton_append,
      strLines_cons hnewline, ih, stripEnd, List.dropLast_concat, if_neg hlast, List.map_cons]

lemma parseXxdHex_dump (hinclude : opts.cInclude = false) (hplain : opts.plain = false)
    (offset : ℕ) (data : List UInt8) : parseXxdHex (dump opts offset data) = data := by
  obtain ⟨ls, hne, rfl, hdump⟩ := exists_outputLines opts offset data
  rw [parseXxdHex, hdump, strLines_dump hinclude hplain, List.flatMap_map]
  exact List.flatMap_congr fun line hline => parseLine_lineText (hne line hline)

/-- The reverse of a dump is what was selected, however both are delivered. -/
theorem reverseXxd_forwardXxd {usizeMax : ℕ} {varName : Text} {lossy : List UInt8 → Text}
    {stream dumped : Stream} (hinclude : opts.cInclude = false)
    (hfit : opts.seek + (selected opts stream.bytes).length ≤ usizeMax)
    (hdumped : dumped.bytes = utf8 (forwardXxd usizeMax opts varName stream)) :
    reverseXxd lossy opts.plain dumped = selected opts stream.bytes := by
  have hread : readAll dumped = utf8 (dump opts opts.seek (selected opts stream.bytes)) := by
    rw [readAll, flatten_reads dumped.ne_nil, ← forwardXxd_eq hinclude hfit, ← hdumped]
    rfl
  rw [reverseXxd, hread, fromUtf8Lossy_utf8]
  cases hplain : opts.plain with
  | true => exact parsePlainHex_dump hinclude hplain _ _
  | false => exact parseXxdHex_dump hinclude hplain _ _

/-- Two bytes with a line each, and the dump read in two pieces. -/
theorem reverseXxd_hi :
    reverseXxd (fun _ => []) false
        ⟨[utf8 "00000000: 68  h\n0000".toList, utf8 "0001: 69  i\n".toList], by decide +kernel⟩ =
      [104, 105] :=
  @reverseXxd_forwardXxd ⟨1, by decide, 2, false, false, false, none, 0⟩ 4294967295 []
    (fun _ => []) ⟨[[104, 105]], by decide⟩ _ rfl (by decide) (by decide +kernel)

end AmlaSandbox.Commands.Xxd
