import AmlaSandbox.Commands.Reading
import AmlaSandbox.Json.Value

/-!
# jq

`jq` reads its input as one JSON text, and where that fails as one text a line; with `-s` it is
always one text a line. What it prints is indented, unless `-c` is given.
-/

namespace AmlaSandbox.Commands.Jq

open Json Library Text

/-! ### Printing JSON -/

/-- The escape of a control character. -/
def controlEscape (n : ℕ) : Text :=
  match n with
  | 8 => "\\b".toList
  | 9 => "\\t".toList
  | 10 => "\\n".toList
  | 12 => "\\f".toList
  | 13 => "\\r".toList
  | n => "\\u00".toList ++ [Nat.digitChar (n / 16), Nat.digitChar (n % 16)]

def escapeChar (c : Char) : Text :=
  if c = '"' then ['\\', '"']
  else if c = '\\' then ['\\', '\\']
  else if c.toNat < 32 then controlEscape c.toNat
  else [c]

def quote (s : Text) : Text := '"' :: s.flatMap escapeChar ++ ['"']

def indentation (n : ℕ) : Text := List.replicate (2 * n) ' '

/-- The items on lines of their own, if there are any. -/
def block (opening closing : Char) (n : ℕ) (items : List Text) : Text :=
  if items = [] then [opening, closing]
  else opening :: '\n' :: [',', '\n'].intercalate (items.map (indentation (n + 1) ++ ·)) ++
    '\n' :: indentation n ++ [closing]

section

-- how `serde_json` prints a number
variable (printNumber : Number → Text)

mutual

/-- `serde_json::to_string` -/
def compactText : Value → Text
  | .null => "null".toList
  | .bool b => if b then "true".toList else "false".toList
  | .number n => printNumber n
  | .string s => quote s.toList
  | .array list => '[' :: [','].intercalate (compactItems list) ++ [']']
  | .object map => '{' :: [','].intercalate (compactEntries map) ++ ['}']

def compactItems : List Value → List Text
  | [] => []
  | v :: list => compactText v :: compactItems list

def compactEntries : List (String × Value) → List Text
  | [] => []
  | (key, v) :: map => (quote key.toList ++ ':' :: compactText v) :: compactEntries map

end

mutual

/-- `serde_json::to_string_pretty`, at this depth -/
def prettyText (n : ℕ) : Value → Text
  | .null => "null".toList
  | .bool b => if b then "true".toList else "false".toList
  | .number x => printNumber x
  | .string s => quote s.toList
  | .array list => block '[' ']' n (prettyItems (n + 1) list)
  | .object map => block '{' '}' n (prettyEntries (n + 1) map)

def prettyItems (n : ℕ) : List Value → List Text
  | [] => []
  | v :: list => prettyText n v :: prettyItems n list

def prettyEntries (n : ℕ) : List (String × Value) → List Text
  | [] => []
  | (key, v) :: map => (quote key.toList ++ ':' :: ' ' :: prettyText n v) :: prettyEntries n map

end

def formatVal (val : Value) (compact : Bool) : Text :=
  if compact then compactText printNumber val else prettyText printNumber 0 val

/-- What is printed for the values. -/
def printed (compact : Bool) (values : List Value) : Text :=
  values.flatMap fun val => formatVal printNumber val compact ++ ['\n']

end

example : String.ofList (prettyText (fun _ => ['1']) 0
    (.object [("a", .array [.null, .array []]), ("b\n", .object [])])) =
  "\x7b\n  \"a\": [\n    null,\n    []\n  ],\n  \"b\\n\": \x7b\x7d\n\x7d" := by decide +kernel

/-! ### Reading -/

section

-- `serde_json::from_str`, and `String::from_utf8_lossy` of what is not UTF-8
variable (fromStr : Text → Except Text Value) (lossy : List UInt8 → Text)

/-- The loop over lines: the values up to the first line that is not one, and its error. -/
def parseLines : List Text → List Value × Option Text
  | [] => ([], none)
  | line :: ls =>
    let trimmed := trim line
    if trimmed = [] then parseLines ls
    else
      match fromStr trimmed with
      | .ok json => (json :: (parseLines ls).1, (parseLines ls).2)
      | .error e => ([], some ("JSON parse error: ".toList ++ e))

/-- The values that are processed, and the error at the end, if there is one. -/
def processHandle (slurp : Bool) (stream : Stream) : List Value × Option Text :=
  let inputStr := fromUtf8Lossy lossy (readAll stream)
  if slurp then
    match parseLines fromStr (strLines inputStr) with
    | (values, none) => ([.array values], none)
    | (_, some e) => ([], some e)
  else
    let trimmed := trim inputStr
    if trimmed = [] then ([], none)
    else
      match fromStr trimmed with
      | .ok json => ([json], none)
      | .error _ => parseLines fromStr (strLines inputStr)

end

/-- The text of the values, however it is delivered, is read as these values, and with `-s` as their
array. -/
def ReadsOwnOutput (printNumber : Number → Text) (fromStr : Text → Except Text Value)
    (lossy : List UInt8 → Text) (compact : Bool) (values : List Value) : Prop :=
  ∀ stream : Stream, stream.bytes = utf8 (printed printNumber compact values) →
    processHandle fromStr lossy false stream = (values, none) ∧
      processHandle fromStr lossy true stream = ([.array values], none)

/-- An array or an object with entries. -/
def hasEntries : Value → Bool
  | .array list => !list.isEmpty
  | .object map => !map.isEmpty
  | _ => false

/-! ### Lines -/

/-- A line with something on it, and no whitespace around it. -/
structure IsBare (text : Text) : Prop where
  ne_nil : text ≠ []
  newline : '\n' ∉ text
  head : ∀ c ∈ text.head?, isWhitespace c = false
  last : ∀ c ∈ text.getLast?, isWhitespace c = false

variable {text rest : Text} {c : Char}

lemma isBare_of_any (hne : text ≠ []) (hnewline : '\n' ∉ text)
    (hhead : text.head?.any isWhitespace = false) (hlast : text.getLast?.any isWhitespace = false) :
    IsBare text := by
  refine ⟨hne, hnewline, fun c hc => ?_, fun c hc => ?_⟩
  · rw [Option.mem_def.mp hc] at hhead
    exact hhead
  · rw [Option.mem_def.mp hc] at hlast
    exact hlast

lemma IsBare.rdropWhile (h : IsBare text) : text.rdropWhile isWhitespace = text := by
  rw [List.rdropWhile_eq_self_iff]
  intro hne
  rw [h.last _ (List.getLast_mem_getLast? hne)]
  exact Bool.false_ne_true

lemma IsBare.trim_eq (h : IsBare text) : trim text = text := by
  have hfront := @dropWhile_isWhitespace_append text [] h.ne_nil h.head
  rw [List.append_nil] at hfront
  rw [trim, hfront, h.rdropWhile]

lemma IsBare.trim_append_newline (h : IsBare text) : trim (text ++ ['\n']) = text := by
  rw [trim, dropWhile_isWhitespace_append h.ne_nil h.head,
    List.rdropWhile_concat_pos _ _ _ (by decide), h.rdropWhile]

lemma IsBare.trim_append_ne_nil (h : IsBare text) : trim (text ++ rest) ≠ [] := by
  rw [trim, dropWhile_isWhitespace_append h.ne_nil h.head, ne_eq, List.rdropWhile_eq_nil_iff]
  intro hall
  cases text with
  | nil => exact h.ne_nil rfl
  | cons c text =>
    have hwhite := hall c (List.mem_cons_self ..)
    rw [h.head c rfl] at hwhite
    exact Bool.false_ne_true hwhite

lemma IsBare.stripEnd_eq (h : IsBare text) : stripEnd (text ++ ['\n']) = text := by
  have hcr : text.getLast? ≠ some '\r' := by
    intro hlast
    have hwhite := h.last _ hlast
    revert hwhite
    decide
  rw [stripEnd, List.dropLast_concat, if_neg hcr]

section

variable {fromStr : Text → Except Text Value} {values : List Value} {f : Value → Text} {v : Value}

lemma parseLines_cons (h : IsBare text) (hparse : fromStr text = .ok v) (ls : List Text) :
    parseLines fromStr (text :: ls) =
      (v :: (parseLines fromStr ls).1, (parseLines fromStr ls).2) := by
  rw [parseLines, h.trim_eq]
  simp only [h.ne_nil, if_false, hparse]

/-- Values on lines of their own are read back. -/
lemma parseLines_flatMap (hbare : ∀ v ∈ values, IsBare (f v))
    (hparse : ∀ v ∈ values, fromStr (f v) = .ok v) :
    parseLines fromStr (strLines (values.flatMap fun v => f v ++ ['\n'])) = (values, none) := by
  induction values with
  | nil => rfl
  | cons v values ih =>
    obtain ⟨hv, hbare⟩ := List.forall_mem_cons.mp hbare
    obtain ⟨hok, hparse⟩ := List.forall_mem_cons.mp hparse
    rw [List.flatMap_cons, List.append_assoc, List.singleton_append, strLines_cons hv.newline,
      hv.stripEnd_eq, parseLines_cons hv hok, ih hbare hparse]

end

/-! ### The texts of values -/

lemma newline_notMem_escapeChar (c : Char) : '\n' ∉ escapeChar c := by
  rw [escapeChar]
  split_ifs with hquote hslash hcontrol
  · decide
  · decide
  · have hall : ∀ n : Fin 32, '\n' ∉ controlEscape n := by decide
    exact hall ⟨c.toNat, hcontrol⟩
  · rw [List.mem_singleton]
    rintro rfl
    exact hcontrol (by decide)

lemma newline_notMem_quote (s : Text) : '\n' ∉ quote s := by
  have hbody : '\n' ∉ s.flatMap escapeChar := by
    rw [List.mem_flatMap]
    rintro ⟨c, -, hc⟩
    exact newline_notMem_escapeChar c hc
  simp [quote, hbody]

lemma newline_notMem_intercalate {items : List Text} (h : ∀ item ∈ items, '\n' ∉ item) :
    '\n' ∉ [','].intercalate items := by
  induction items with
  | nil => exact List.not_mem_nil
  | cons item items ih =>
    obtain ⟨hitem, hitems⟩ := List.forall_mem_cons.mp h
    cases items with
    | nil => simpa using hitem
    | cons next items =>
      rw [List.intercalate_cons_cons]
      simp [hitem, ih hitems]

section

variable {printNumber : Number → Text}

lemma newline_notMem_compactText (hnumber : ∀ n, IsBare (printNumber n)) (v : Value) :
    '\n' ∉ compactText printNumber v := by
  refine @Value.rec (fun v => '\n' ∉ compactText printNumber v)
    (fun list => ∀ item ∈ compactItems printNumber list, '\n' ∉ item)
    (fun map => ∀ item ∈ compactEntries printNumber map, '\n' ∉ item)
    (fun entry => '\n' ∉ compactText printNumber entry.2) ?_ ?_ ?_ ?_ ?_ ?_ ?_ ?_ ?_ ?_ ?_ v
  · rw [compactText]
    decide
  · intro b
    rw [compactText]
    cases b <;> decide
  · intro n
    rw [compactText]
    exact (hnumber n).newline
  · intro s
    rw [compactText]
    exact newline_notMem_quote _
  · intro list ih
    rw [compactText]
    simp [newline_notMem_intercalate ih]
  · intro map ih
    rw [compactText]
    simp [newline_notMem_intercalate ih]
  · rw [compactItems]
    exact List.forall_mem_nil _
  · intro v list hv hlist
    rw [compactItems]
    exact List.forall_mem_cons.mpr ⟨hv, hlist⟩
  · rw [compactEntries]
    exact List.forall_mem_nil _
  · intro entry map hentry hmap
    rw [compactEntries]
    refine List.forall_mem_cons.mpr ⟨?_, hmap⟩
    simp [newline_notMem_quote, hentry]
  · intro key v hv
    exact hv

/-- What begins and ends with these characters. -/
lemma isBare_of_ends {opening closing : Char} (hopening : isWhitespace opening = false)
    (hclosing : isWhitespace closing = false) (h : '\n' ∉ opening :: text ++ [closing]) :
    IsBare (opening :: text ++ [closing]) := by
  refine ⟨List.cons_ne_nil _ _, h, ?_, ?_⟩
  · rintro c ⟨⟩
    exact hopening
  · intro c hc
    rw [List.getLast?_concat] at hc
    cases hc
    exact hclosing

lemma isBare_compactText (hnumber : ∀ n, IsBare (printNumber n)) (v : Value) :
    IsBare (compactText printNumber v) := by
  have hnot := newline_notMem_compactText hnumber v
  cases v with
  | null =>
    rw [compactText]
    exact isBare_of_any (by decide) (by decide) (by decide) (by decide)
  | bool b =>
    rw [compactText]
    cases b <;> exact isBare_of_any (by decide) (by decide) (by decide) (by decide)
  | number n =>
    rw [compactText]
    exact hnumber n
  | string s =>
    rw [compactText] at hnot ⊢
    exact isBare_of_ends (by decide) (by decide) hnot
  | array list =>
    rw [compactText] at hnot ⊢
    exact isBare_of_ends (by decide) (by decide) hnot
  | object map =>
    rw [compactText] at hnot ⊢
    exact isBare_of_ends (by decide) (by decide) hnot

/-- What has no entries is printed on one line. -/
lemma prettyText_of_not {v : Value} (h : hasEntries v = false) (n : ℕ) :
    prettyText printNumber n v = compactText printNumber v := by
  cases v with
  | null => rw [prettyText, compactText]
  | bool b => rw [prettyText, compactText]
  | number n => rw [prettyText, compactText]
  | string s => rw [prettyText, compactText]
  | array list =>
    cases list with
    | nil => rw [prettyText, compactText, prettyItems, compactItems]; rfl
    | cons v list => cases h
  | object map =>
    cases map with
    | nil => rw [prettyText, compactText, prettyEntries, compactEntries]; rfl
    | cons entry map => cases h

/-- The first line of what has entries is a bracket. -/
lemma prettyText_of_hasEntries (printNumber : Number → Text) {v : Value} (h : hasEntries v = true)
    (n : ℕ) :
    ∃ opening rest, (opening = '[' ∨ opening = '{') ∧
      prettyText printNumber n v = opening :: '\n' :: rest := by
  cases v with
  | null => cases h
  | bool b => cases h
  | number n => cases h
  | string s => cases h
  | array list =>
    cases list with
    | nil => cases h
    | cons v list =>
      rw [prettyText, prettyItems]
      exact ⟨'[', _, .inl rfl, if_neg (List.cons_ne_nil _ _)⟩
  | object map =>
    cases map with
    | nil => cases h
    | cons entry map =>
      rw [prettyText, prettyEntries]
      exact ⟨'{', _, .inr rfl, if_neg (List.cons_ne_nil _ _)⟩

end

/-! ### Input and output -/

section

variable {printNumber : Number → Text} {fromStr : Text → Except Text Value}
  {lossy : List UInt8 → Text} {compact : Bool} {values : List Value}

lemma isBare_formatVal (hnumber : ∀ n, IsBare (printNumber n)) {v : Value}
    (h : compact = true ∨ hasEntries v = false) : IsBare (formatVal printNumber v compact) := by
  have hcompact : formatVal printNumber v compact = compactText printNumber v := by
    rw [formatVal]
    obtain hcompact | hentries := h
    · rw [if_pos hcompact]
    · rw [prettyText_of_not hentries, ite_self]
  rw [hcompact]
  exact isBare_compactText hnumber v

/-- The first line of a value with entries is no JSON text. -/
lemma parseLines_of_hasEntries (hnumber : ∀ n, IsBare (printNumber n))
    (hparse : ∀ v ∈ values, fromStr (formatVal printNumber v false) = .ok v)
    (hopening : ∀ c, c = '[' ∨ c = '{' → ∃ e, fromStr [c] = .error e)
    (h : ∃ v ∈ values, hasEntries v = true) :
    (parseLines fromStr (strLines (printed printNumber false values))).2 ≠ none := by
  induction values with
  | nil =>
    obtain ⟨v, hv, -⟩ := h
    exact absurd hv List.not_mem_nil
  | cons v values ih =>
    obtain ⟨hok, hparse⟩ := List.forall_mem_cons.mp hparse
    rw [printed, List.flatMap_cons, ← printed, List.append_assoc, List.singleton_append]
    cases hv : hasEntries v with
    | true =>
      obtain ⟨opening, rest, hbracket, htext⟩ := prettyText_of_hasEntries printNumber hv 0
      have hbare : IsBare [opening] := by
        obtain rfl | rfl := hbracket <;>
          exact isBare_of_any (by decide) (by decide) (by decide) (by decide)
      obtain ⟨e, he⟩ := hopening opening hbracket
      have hlines : formatVal printNumber v false ++ '\n' :: printed printNumber false values =
          [opening] ++ '\n' :: (rest ++ '\n' :: printed printNumber false values) := by
        rw [formatVal, if_neg Bool.false_ne_true, htext]
        rfl
      rw [hlines, strLines_cons hbare.newline, hbare.stripEnd_eq, parseLines, hbare.trim_eq]
      simp [he]
    | false =>
      have hbare : IsBare (formatVal printNumber v false) := isBare_formatVal hnumber (.inr hv)
      rw [strLines_cons hbare.newline, hbare.stripEnd_eq, parseLines_cons hbare hok]
      refine ih hparse ?_
      obtain ⟨w, hw, hentries⟩ := h
      obtain rfl | hw := List.mem_cons.mp hw
      · rw [hv] at hentries
        cases hentries
      · exact ⟨w, hw, hentries⟩

/-- What is read where all values are on lines of their own. -/
lemma processHandle_of_bare {stream : Stream}
    (hbytes : stream.bytes = utf8 (printed printNumber compact values))
    (hbare : ∀ v ∈ values, IsBare (formatVal printNumber v compact))
    (hparse : ∀ v ∈ values, fromStr (formatVal printNumber v compact) = .ok v)
    (htrailing : ∀ v ∈ values, ∀ rest, trim rest ≠ [] →
      ∃ e, fromStr (trim (formatVal printNumber v compact ++ '\n' :: rest)) = .error e) :
    processHandle fromStr lossy false stream = (values, none) ∧
      processHandle fromStr lossy true stream = ([.array values], none) := by
  have hinput : fromUtf8Lossy lossy (readAll stream) = printed printNumber compact values := by
    rw [readAll, flatten_reads stream.ne_nil, ← Stream.bytes, hbytes, fromUtf8Lossy_utf8]
  have hlines : parseLines fromStr (strLines (printed printNumber compact values)) =
      (values, none) :=
    parseLines_flatMap hbare hparse
  refine ⟨?_, by simp [processHandle, hinput, hlines]⟩
  simp only [processHandle, hinput, hlines, Bool.false_eq_true, if_false]
  cases values with
  | nil => rfl
  | cons v values =>
    obtain ⟨hv, hbare⟩ := List.forall_mem_cons.mp hbare
    obtain ⟨hok, hparse⟩ := List.forall_mem_cons.mp hparse
    have htext (v : Value) (values : List Value) : printed printNumber compact (v :: values) =
        formatVal printNumber v compact ++ '\n' :: printed printNumber compact values := by
      rw [printed, List.flatMap_cons, ← printed, List.append_assoc, List.singleton_append]
    rw [htext, if_neg hv.trim_append_ne_nil]
    cases values with
    | nil =>
      have hone : trim (formatVal printNumber v compact ++ '\n' :: printed printNumber compact []) =
          formatVal printNumber v compact := hv.trim_append_newline
      rw [hone, hok]
    | cons w values =>
      have hw := (List.forall_mem_cons.mp hbare).1
      obtain ⟨e, he⟩ := htrailing v (List.mem_cons_self ..)
        (printed printNumber compact (w :: values)) (by rw [htext]; exact hw.trim_append_ne_nil)
      rw [he]

lemma exists_stream (bytes : List UInt8) : ∃ stream : Stream, stream.bytes = bytes := by
  by_cases hnil : bytes = []
  · exact ⟨⟨[], List.forall_mem_nil _⟩, hnil.symm⟩
  · exact ⟨⟨[bytes], by simpa using hnil⟩, by simp [Stream.bytes]⟩

/-- With `-s` brackets on lines of their own are an error. -/
lemma not_processHandle {stream : Stream}
    (hbytes : stream.bytes = utf8 (printed printNumber false values))
    (hlines : (parseLines fromStr (strLines (printed printNumber false values))).2 ≠ none) :
    processHandle fromStr lossy true stream ≠ ([.array values], none) := by
  have hinput : fromUtf8Lossy lossy (readAll stream) = printed printNumber false values := by
    rw [readAll, flatten_reads stream.ne_nil, ← Stream.bytes, hbytes, fromUtf8Lossy_utf8]
  rw [processHandle, hinput, if_pos rfl]
  generalize parseLines fromStr (strLines (printed printNumber false values)) = outcome at hlines ⊢
  obtain ⟨read, e⟩ := outcome
  cases e with
  | none => exact absurd rfl hlines
  | some e => simp

end

/-- The output is read back, with `-s` and without, if and only if it was printed with `-c` or no
value has entries. A number is printed without whitespace, printed values are parsed as they were,
something behind a value is an error, and so is an opening bracket alone. -/
theorem readsOwnOutput_iff (printNumber : Number → Text) (fromStr : Text → Except Text Value)
    (lossy : List UInt8 → Text) (compact : Bool) (values : List Value)
    (hnumber : ∀ n, IsBare (printNumber n))
    (hparse : ∀ v ∈ values, fromStr (formatVal printNumber v compact) = .ok v)
    (htrailing : ∀ v ∈ values, ∀ rest, trim rest ≠ [] →
      ∃ e, fromStr (trim (formatVal printNumber v compact ++ '\n' :: rest)) = .error e)
    (hopening : ∀ c, c = '[' ∨ c = '{' → ∃ e, fromStr [c] = .error e) :
    ReadsOwnOutput printNumber fromStr lossy compact values ↔
      compact = true ∨ ∀ v ∈ values, hasEntries v = false := by
  constructor
  · intro hreads
    by_contra hnot
    rw [not_or, Bool.not_eq_true] at hnot
    obtain ⟨rfl, hentries⟩ := hnot
    have hexists : ∃ v ∈ values, hasEntries v = true := by
      simpa using hentries
    obtain ⟨stream, hstream⟩ := exists_stream (utf8 (printed printNumber false values))
    exact not_processHandle hstream (parseLines_of_hasEntries hnumber hparse hopening hexists)
      (hreads stream hstream).2
  · intro h stream hstream
    refine processHandle_of_bare hstream (fun v hv => ?_) hparse htrailing
    exact isBare_formatVal hnumber (h.imp_right fun h => h v hv)

/-- Whitespace is only dropped at the ends. -/
lemma newline_mem_trim (h : IsBare text) (hrest : trim rest ≠ []) :
    '\n' ∈ trim (text ++ '\n' :: rest) := by
  have hkept : rest.rdropWhile isWhitespace ≠ [] := by
    intro hnil
    have hall := List.rdropWhile_eq_nil_iff.mp hnil
    refine hrest (List.rdropWhile_eq_nil_iff.mpr fun c hc => hall c ?_)
    exact (List.dropWhile_sublist isWhitespace).subset hc
  have happend : (text ++ '\n' :: rest).rdropWhile isWhitespace =
      text ++ '\n' :: rest.rdropWhile isWhitespace := by
    have hfront : text ++ '\n' :: rest = (text ++ ['\n']) ++ rest := by simp
    have hreverse : ((rest.reverse).dropWhile isWhitespace).isEmpty = false := by
      rw [List.rdropWhile, ne_eq, List.reverse_eq_nil_iff] at hkept
      simpa using hkept
    rw [hfront, List.rdropWhile, List.reverse_append, List.dropWhile_append, hreverse]
    simp [List.rdropWhile]
  rw [trim, dropWhile_isWhitespace_append h.ne_nil h.head, happend]
  simp

/-- What is parsed is in a table. -/
def parseTable (table : List (Text × Value)) (text : Text) : Except Text Value :=
  match table.lookup text with
  | some v => .ok v
  | none => .error "expected value".toList

lemma parseTable_of_newline {table : List (Text × Value)} (h : ∀ entry ∈ table, '\n' ∉ entry.1)
    (htext : '\n' ∈ text) : ∃ e, parseTable table text = .error e := by
  have hnone : table.lookup text = none := by
    rw [List.lookup_eq_none_iff]
    intro entry hentry
    rw [bne_iff_ne]
    rintro rfl
    exact h entry hentry htext
  rw [parseTable, hnone]
  exact ⟨_, rfl⟩

/-- Values without entries. -/
def flatTable : List (Text × Value) := [("null".toList, .null), ("[]".toList, .array [])]

lemma isBare_zero : IsBare ['0'] := isBare_of_any (by decide) (by decide) (by decide) (by decide)

theorem readsOwnOutput_flat :
    ReadsOwnOutput (fun _ => ['0']) (parseTable flatTable) (fun _ => []) false
      [.null, .array []] := by
  refine (readsOwnOutput_iff (fun _ => ['0']) (parseTable flatTable) (fun _ => []) false
    [.null, .array []] (fun _ => isBare_zero) (by decide +kernel)
    (fun v hv rest hrest => ?_) (by rintro c (rfl | rfl) <;> exact ⟨_, rfl⟩)).mpr
      (.inr (by decide))
  have hflat : hasEntries v = false := by
    revert v
    decide
  have hbare : IsBare (formatVal (fun _ => ['0']) v false) :=
    isBare_formatVal (fun _ => isBare_zero) (.inr hflat)
  exact parseTable_of_newline (by decide) (newline_mem_trim hbare hrest)

/-- An array with an entry is not read back with `-s`. -/
theorem not_readsOwnOutput :
    ¬ ReadsOwnOutput (fun _ => ['0']) (parseTable [("[\n  null\n]".toList, .array [.null])])
      (fun _ => []) false [.array [.null]] := by
  intro hreads
  obtain ⟨stream, hstream⟩ :=
    exists_stream (utf8 (printed (fun _ => ['0']) false [.array [.null]]))
  refine not_processHandle hstream (parseLines_of_hasEntries ?_ ?_ ?_ ?_) (hreads stream hstream).2
  · exact fun _ => isBare_zero
  · decide +kernel
  · rintro c (rfl | rfl) <;> exact ⟨_, rfl⟩
  · exact ⟨_, List.mem_singleton_self _, rfl⟩

end AmlaSandbox.Commands.Jq
