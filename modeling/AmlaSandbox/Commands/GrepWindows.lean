import AmlaSandbox.Commands.Grep
import Mathlib.Data.List.GetD

/-!
# Context windows

The lines around matches are those in a window around some match. When a match comes, a separator is
printed before its window although the window may begin where the last one ended.
-/

namespace AmlaSandbox.Commands.Grep

open Text

/-! ### What should be printed -/

section

variable (opts : GrepOptions) (matched : ℕ → Bool) (format : ℕ → Text)

/-- One of the first `n` lines is a match with the line in its window. -/
def inWindow (n i : ℕ) : Bool :=
  (List.range n).any fun m => matched m && i ≤ m + opts.afterContext && m ≤ i + opts.beforeContext

def shown (n : ℕ) : List ℕ := (List.range n).filter (inWindow opts matched n)

/-- A line that does not follow the one before it, if there is one, is separated from it. -/
def layout : Option ℕ → List ℕ → List Text
  | _, [] => []
  | prev, i :: is =>
    (if (0 < opts.beforeContext ∨ 0 < opts.afterContext) ∧ prev.any (· + 1 ≠ i) then ["--".toList]
      else []) ++ format i :: layout (some i) is

/-- A match is more than `-A` lines behind the last one, and its window begins where that of the
last one ends. -/
def Touches (n : ℕ) : Prop :=
  ∃ m k, m < k ∧ k < n ∧ matched m ∧ matched k ∧ (∀ i, m < i → i < k → matched i = false) ∧
    m + opts.afterContext + 1 < k ∧ k ≤ m + opts.afterContext + opts.beforeContext + 1

end

section

variable (toLowercase : Text → Text) (fromUtf8Lossy : List UInt8 → Text)
variable (opts : GrepOptions) (pattern : Text) (filename : Option Text)

def inputLines (stream : Stream) : List Text := (bareLines stream.bytes).map fromUtf8Lossy

/-- Whether the line with this index matches. -/
def matchedAt (lines : List Text) (i : ℕ) : Bool :=
  isMatch toLowercase opts pattern (lines.getD i [])

/-- The line as it is printed, with the mark of a match or of a context line. -/
def formatAt (lines : List Text) (i : ℕ) : Text :=
  formatLine filename opts.lineNumbers
    (if matchedAt toLowercase opts pattern lines i then ':' else '-') ⟨i + 1, lines.getD i []⟩

/-- `grep` does not panic, and prints the lines in the windows. -/
def PrintsWindows (platform : Platform) (stream : Stream) : Prop :=
  let lines := inputLines fromUtf8Lossy stream
  ∃ s, grepFromHandle toLowercase fromUtf8Lossy opts pattern filename platform stream = some s ∧
    s.printed = layout opts (formatAt toLowercase opts pattern filename lines) none
      (shown opts (matchedAt toLowercase opts pattern lines) lines.length)

end

/-! ### Layout -/

section

variable {opts : GrepOptions} {matched : ℕ → Bool} {format : ℕ → Text} {prev : Option ℕ}
  {is js : List ℕ} {n i c : ℕ}

lemma layout_append : layout opts format prev (is ++ js) =
    layout opts format prev is ++ layout opts format (is.getLast?.or prev) js := by
  induction is generalizing prev with
  | nil => rfl
  | cons i is ih =>
    rw [List.cons_append, layout, layout, ih, List.append_assoc, List.cons_append]
    congr 3
    cases is with
    | nil => rfl
    | cons j is =>
      rw [List.getLast?_cons_cons]
      cases h : (j :: is).getLast? with
      | none => simp at h
      | some last => rfl

/-- Lines that follow each other are not separated. -/
lemma layout_range' (n : ℕ) : layout opts format prev (List.range' c (n + 1)) =
    (if (0 < opts.beforeContext ∨ 0 < opts.afterContext) ∧ prev.any (· + 1 ≠ c) then ["--".toList]
      else []) ++ (List.range' c (n + 1)).map format := by
  induction n generalizing c prev with
  | zero => rfl
  | succ n ih =>
    rw [List.range'_succ, layout, ih, List.map_cons, if_neg (c := _ ∧ (some c).any _)]
    · rfl
    · simp

/-! ### Windows -/

/-- The last match before a line. -/
def lastMatch (matched : ℕ → Bool) : ℕ → Option ℕ
  | 0 => none
  | n + 1 => if matched n then some n else lastMatch matched n

/-- The number of the first lines up to the last one that is printed. -/
def printedTo (opts : GrepOptions) (matched : ℕ → Bool) (n : ℕ) : ℕ :=
  match lastMatch matched n with
  | none => 0
  | some m => min n (m + opts.afterContext + 1)

lemma lastMatch_eq_some {m : ℕ} (h : lastMatch matched n = some m) :
    m < n ∧ matched m = true ∧ ∀ i, m < i → i < n → matched i = false := by
  induction n with
  | zero => cases h
  | succ n ih =>
    rw [lastMatch] at h
    split_ifs at h with hmatch
    · obtain rfl := Option.some.inj h
      exact ⟨Nat.lt_succ_self n, hmatch, fun i hi hlt => by omega⟩
    · obtain ⟨hlt, hm, hnone⟩ := ih h
      refine ⟨hlt.trans (Nat.lt_succ_self n), hm, fun i hi hlt => ?_⟩
      obtain hlt | rfl := Nat.lt_succ_iff_lt_or_eq.mp hlt
      · exact hnone i hi hlt
      · simpa using hmatch

lemma lastMatch_eq_none (h : lastMatch matched n = none) (i : ℕ) (hi : i < n) :
    matched i = false := by
  induction n with
  | zero => exact absurd hi (Nat.not_lt_zero i)
  | succ n ih =>
    rw [lastMatch] at h
    split_ifs at h with hmatch
    obtain hi | rfl := Nat.lt_succ_iff_lt_or_eq.mp hi
    · exact ih h hi
    · simpa using hmatch

lemma inWindow_iff : inWindow opts matched n i = true ↔
    ∃ m < n, matched m = true ∧ i ≤ m + opts.afterContext ∧ m ≤ i + opts.beforeContext := by
  simp [inWindow, List.any_eq_true, and_assoc]

lemma inWindow_succ : inWindow opts matched (n + 1) i =
    (inWindow opts matched n i ||
      (matched n && i ≤ n + opts.afterContext && n ≤ i + opts.beforeContext)) := by
  simp [inWindow, List.range_succ]

/-- How many lines the last match is still good for. -/
def remaining (opts : GrepOptions) (matched : ℕ → Bool) (n : ℕ) : ℕ :=
  match lastMatch matched n with
  | none => 0
  | some m => m + opts.afterContext + 1 - n

/-- Where the lines in the ring begin. -/
def ringStart (opts : GrepOptions) (matched : ℕ → Bool) (n : ℕ) : ℕ :=
  max (printedTo opts matched n) (n - opts.beforeContext)

lemma printedTo_le : printedTo opts matched n ≤ n := by
  rw [printedTo]
  split
  · exact Nat.zero_le n
  · exact min_le_left _ _

lemma ringStart_le : ringStart opts matched n ≤ n :=
  max_le printedTo_le (Nat.sub_le _ _)

lemma printedTo_of_remaining (h : 0 < remaining opts matched n) : printedTo opts matched n = n := by
  rw [remaining] at h
  rw [printedTo]
  cases hlast : lastMatch matched n with
  | none =>
    rw [hlast] at h
    exact absurd h (lt_irrefl 0)
  | some m =>
    rw [hlast] at h
    dsimp only at h ⊢
    omega

/-- Nothing is shown behind what the last match reaches. -/
lemma inWindow_of_printedTo_le (hi : printedTo opts matched n ≤ i) (hlt : i < n) :
    inWindow opts matched n i = false := by
  rw [← Bool.not_eq_true, inWindow_iff]
  rintro ⟨m, hm, hmatch, hafter, -⟩
  rw [printedTo] at hi
  cases hlast : lastMatch matched n with
  | none => simp [lastMatch_eq_none hlast m hm] at hmatch
  | some k =>
    rw [hlast] at hi
    dsimp only at hi
    have hnone := (lastMatch_eq_some hlast).2.2 m (by omega) hm
    simp [hnone] at hmatch

/-- The window of the last match. -/
lemma inWindow_of_lt_printedTo (hi : i < printedTo opts matched n)
    (hbefore : ∀ m ∈ lastMatch matched n, m ≤ i + opts.beforeContext) :
    inWindow opts matched n i = true := by
  rw [printedTo] at hi
  cases hlast : lastMatch matched n with
  | none =>
    rw [hlast] at hi
    exact absurd hi (Nat.not_lt_zero i)
  | some m =>
    rw [hlast] at hi
    dsimp only at hi
    obtain ⟨hm, hmatch, -⟩ := lastMatch_eq_some hlast
    exact inWindow_iff.mpr ⟨m, hm, hmatch, by omega, hbefore m hlast⟩

lemma inWindow_self :
    inWindow opts matched n n = decide (0 < remaining opts matched n) := by
  rw [Bool.eq_iff_iff, inWindow_iff, decide_eq_true_iff, remaining]
  cases hlast : lastMatch matched n with
  | none =>
    simp only [lt_irrefl, iff_false]
    rintro ⟨m, hm, hmatch, -⟩
    simp [lastMatch_eq_none hlast m hm] at hmatch
  | some k =>
    obtain ⟨hk, hmatch, hnone⟩ := lastMatch_eq_some hlast
    constructor
    · rintro ⟨m, hm, hmatch', hafter, -⟩
      have hle : m ≤ k := by
        by_contra hlt
        simp [hnone m (by omega) hm] at hmatch'
      simp only
      omega
    · intro hpos
      simp only at hpos
      exact ⟨k, hk, hmatch, by omega, by omega⟩

lemma shown_succ_of_not (hmatch : matched n = false) : shown opts matched (n + 1) =
    shown opts matched n ++ if 0 < remaining opts matched n then [n] else [] := by
  have hwindow (i : ℕ) : inWindow opts matched (n + 1) i = inWindow opts matched n i := by
    rw [inWindow_succ, hmatch]
    simp
  rw [shown, funext hwindow, List.range_succ, List.filter_append, shown]
  congr 1
  simp [List.filter_singleton, inWindow_self]

lemma range_eq_append (h : c ≤ n) : List.range n = List.range c ++ List.range' c (n - c) := by
  have happend := List.range'_append_1 (s := 0) (m := c) (n := n - c)
  rw [Nat.zero_add, Nat.add_sub_cancel' h] at happend
  rw [List.range_eq_range', List.range_eq_range', happend]

/-- A match shows the lines in the ring. -/
lemma shown_succ_of_match (hmatch : matched n = true) : shown opts matched (n + 1) =
    shown opts matched n ++
      List.range' (ringStart opts matched n) (n + 1 - ringStart opts matched n) := by
  have hwindow (i : ℕ) (hi : i ≤ n) : inWindow opts matched (n + 1) i =
      (inWindow opts matched n i || n ≤ i + opts.beforeContext) := by
    rw [inWindow_succ, hmatch]
    simp only [Bool.true_and]
    rw [decide_eq_true (by omega : i ≤ n + opts.afterContext), Bool.true_and]
  have hle : ringStart opts matched n ≤ n := ringStart_le
  have hold : (List.range (ringStart opts matched n)).filter (inWindow opts matched (n + 1)) =
      (List.range (ringStart opts matched n)).filter (inWindow opts matched n) := by
    refine List.filter_congr fun i hi => ?_
    have hlt := List.mem_range.mp hi
    rw [hwindow i (by omega)]
    by_cases hbefore : n ≤ i + opts.beforeContext
    · rw [ringStart] at hlt
      have hwindow' : inWindow opts matched n i = true := by
        refine inWindow_of_lt_printedTo (by omega) fun m hm => ?_
        have hm := (lastMatch_eq_some hm).1
        omega
      rw [hwindow', Bool.true_or]
    · rw [decide_eq_false hbefore, Bool.or_false]
  have hnew : (List.range' (ringStart opts matched n) (n + 1 - ringStart opts matched n)).filter
      (inWindow opts matched (n + 1)) =
        List.range' (ringStart opts matched n) (n + 1 - ringStart opts matched n) := by
    refine List.filter_eq_self.mpr fun i hi => ?_
    obtain ⟨hge, hlt⟩ := List.mem_range'_1.mp hi
    rw [ringStart] at hge
    rw [hwindow i (by omega), decide_eq_true (by omega : n ≤ i + opts.beforeContext), Bool.or_true]
  have hbehind : (List.range' (ringStart opts matched n) (n - ringStart opts matched n)).filter
      (inWindow opts matched n) = [] := by
    refine List.filter_eq_nil_iff.mpr fun i hi => ?_
    obtain ⟨hge, hlt⟩ := List.mem_range'_1.mp hi
    rw [ringStart] at hge
    rw [inWindow_of_printedTo_le (by omega) (by omega)]
    exact Bool.false_ne_true
  rw [shown, range_eq_append (by omega : ringStart opts matched n ≤ n + 1), List.filter_append,
    hold, hnew, shown, range_eq_append hle, List.filter_append, hbehind, List.append_nil]

/-- The last line that is shown. -/
lemma getLast?_shown : (shown opts matched n).getLast? =
    if printedTo opts matched n = 0 then none else some (printedTo opts matched n - 1) := by
  have hbehind : (List.range' (printedTo opts matched n) (n - printedTo opts matched n)).filter
      (inWindow opts matched n) = [] := by
    refine List.filter_eq_nil_iff.mpr fun i hi => ?_
    obtain ⟨hge, hlt⟩ := List.mem_range'_1.mp hi
    rw [inWindow_of_printedTo_le hge (by omega)]
    exact Bool.false_ne_true
  rw [shown, range_eq_append printedTo_le, List.filter_append, hbehind, List.append_nil]
  cases hprinted : printedTo opts matched n with
  | zero => rfl
  | succ last =>
    have hwindow : inWindow opts matched n last = true := by
      refine inWindow_of_lt_printedTo (by omega) fun m hm => ?_
      rw [printedTo, hm] at hprinted
      have hlt := (lastMatch_eq_some hm).1
      dsimp only at hprinted
      omega
    rw [List.range_succ, List.filter_append, List.filter_singleton, hwindow, if_neg (by omega)]
    exact List.getLast?_concat

lemma printedTo_succ_of_not (hmatch : matched n = false) : printedTo opts matched (n + 1) =
    if 0 < remaining opts matched n then n + 1 else printedTo opts matched n := by
  rw [printedTo, printedTo, remaining, lastMatch, hmatch, if_neg Bool.false_ne_true]
  cases hlast : lastMatch matched n with
  | none => rfl
  | some m =>
    have hm := (lastMatch_eq_some hlast).1
    dsimp only
    split_ifs <;> omega

lemma printedTo_succ_of_match (hmatch : matched n = true) :
    printedTo opts matched (n + 1) = n + 1 := by
  rw [printedTo, lastMatch, if_pos hmatch]
  dsimp only
  omega

/-- The window of a match begins where the window of the last match ends. -/
def TouchesAt (opts : GrepOptions) (matched : ℕ → Bool) (n : ℕ) : Prop :=
  matched n = true ∧ ∃ m ∈ lastMatch matched n,
    m + opts.afterContext + 1 < n ∧ n ≤ m + opts.afterContext + opts.beforeContext + 1

lemma lastMatch_of {m : ℕ} (hlt : m < n) (hmatch : matched m = true)
    (hnone : ∀ i, m < i → i < n → matched i = false) : lastMatch matched n = some m := by
  induction n with
  | zero => exact absurd hlt (Nat.not_lt_zero m)
  | succ n ih =>
    rw [lastMatch]
    obtain hlt | rfl := Nat.lt_succ_iff_lt_or_eq.mp hlt
    · rw [hnone n hlt (Nat.lt_succ_self n), if_neg Bool.false_ne_true]
      exact ih hlt fun i hi hin => hnone i hi (hin.trans (Nat.lt_succ_self n))
    · rw [if_pos hmatch]

lemma touches_succ : Touches opts matched (n + 1) ↔
    Touches opts matched n ∨ TouchesAt opts matched n := by
  constructor
  · rintro ⟨m, k, hmk, hk, hm, hmatch, hnone, hgap, htouch⟩
    obtain hk | rfl := Nat.lt_succ_iff_lt_or_eq.mp hk
    · exact .inl ⟨m, k, hmk, hk, hm, hmatch, hnone, hgap, htouch⟩
    · exact .inr ⟨hmatch, m, lastMatch_of hmk hm hnone, hgap, htouch⟩
  · rintro (⟨m, k, hmk, hk, hrest⟩ | ⟨hmatch, m, hlast, hgap, htouch⟩)
    · exact ⟨m, k, hmk, hk.trans (Nat.lt_succ_self n), hrest⟩
    · obtain ⟨hlt, hm, hnone⟩ := lastMatch_eq_some hlast
      exact ⟨m, n, hlt, Nat.lt_succ_self n, hm, hmatch, hnone, hgap, htouch⟩

/-- No line between the last match and this one is a match. -/
lemma matched_of_ringStart_le (hge : ringStart opts matched n ≤ i) (hlt : i < n) :
    matched i = false := by
  have hge : printedTo opts matched n ≤ i := (le_max_left _ _).trans hge
  rw [printedTo] at hge
  cases hlast : lastMatch matched n with
  | none => exact lastMatch_eq_none hlast i hlt
  | some m =>
    rw [hlast] at hge
    dsimp only at hge
    exact (lastMatch_eq_some hlast).2.2 i (by omega) hlt

/-- Where the window of a match does not touch the last one, there is a separator before it if there
is a line between them. -/
lemma separated_iff (hmatch : matched n = true) :
    ((0 < opts.beforeContext ∨ 0 < opts.afterContext) ∧ 0 < printedTo opts matched n ∧
      printedTo opts matched n + 1 < n + 1) ↔
    ((0 < opts.beforeContext ∨ 0 < opts.afterContext) ∧ 0 < printedTo opts matched n ∧
      printedTo opts matched n < ringStart opts matched n) ∨ TouchesAt opts matched n := by
  have hle : printedTo opts matched n ≤ n := printedTo_le
  have hprinted : printedTo opts matched n = match lastMatch matched n with
    | none => 0
    | some m => min n (m + opts.afterContext + 1) := rfl
  rw [TouchesAt, ringStart]
  cases hlast : lastMatch matched n with
  | none =>
    rw [hlast] at hprinted
    simp [hprinted]
  | some m =>
    rw [hlast] at hprinted
    dsimp only at hprinted
    have hm := (lastMatch_eq_some hlast).1
    simp only [hmatch, Option.mem_def, Option.some.injEq, exists_eq_left', true_and]
    clear hle
    obtain hle | hlt := le_or_gt n (m + opts.afterContext + 1)
    · rw [hprinted, min_eq_left hle]
      omega
    · rw [hprinted, min_eq_right hlt.le]
      omega

lemma ringStart_of_touchesAt (h : TouchesAt opts matched n) :
    ringStart opts matched n = printedTo opts matched n := by
  obtain ⟨-, m, hlast, hgap, htouch⟩ := h
  rw [ringStart, printedTo, hlast]
  dsimp only
  omega

end

/-! ### The run -/

section

variable {toLowercase : Text → Text} {fromUtf8Lossy : List UInt8 → Text} {opts : GrepOptions}
  {pattern : Text} {filename : Option Text} {lines : List Text} {s : State} {n : ℕ}

/-- A line, without the ways out. -/
def advance (toLowercase : Text → Text) (opts : GrepOptions) (pattern : Text)
    (filename : Option Text) (s : State) (content : Text) : State :=
  let s := { s with lineNum := s.lineNum + 1 }
  if isMatch toLowercase opts pattern content then
    { printMatch opts filename s ⟨s.lineNum, content⟩ with
      beforeRing := []
      matchFound := true
      count := (printMatch opts filename s ⟨s.lineNum, content⟩).count + 1 }
  else contextLine opts filename s ⟨s.lineNum, content⟩

lemma processLine_eq (hcount : opts.countOnly = false) (hfiles : opts.filesOnly = false)
    (hquiet : opts.quiet = false) (bytes : List UInt8) :
    processLine toLowercase fromUtf8Lossy opts pattern filename s bytes =
      .ok (advance toLowercase opts pattern filename s (fromUtf8Lossy bytes)) := by
  simp only [processLine, processLineWithContext, advance, hcount, hfiles, hquiet,
    Bool.false_eq_true, if_false]
  split_ifs <;> rfl

lemma foldlM_processLine (hcount : opts.countOnly = false) (hfiles : opts.filesOnly = false)
    (hquiet : opts.quiet = false) (bytes : List (List UInt8)) :
    bytes.foldlM (processLine toLowercase fromUtf8Lossy opts pattern filename) s =
      .ok ((bytes.map fromUtf8Lossy).foldl (advance toLowercase opts pattern filename) s) := by
  induction bytes generalizing s with
  | nil => rfl
  | cons line bytes ih =>
    rw [List.foldlM_cons, processLine_eq hcount hfiles hquiet]
    exact ih

/-- The state behind the first lines. -/
structure Holds (toLowercase : Text → Text) (opts : GrepOptions) (pattern : Text)
    (lines : List Text) (n : ℕ) (s : State) : Prop where
  lineNum : s.lineNum = n
  anyOutput : s.anyOutput = (lastMatch (matchedAt toLowercase opts pattern lines) n).isSome
  lastPrinted : s.lastPrintedLine = printedTo opts (matchedAt toLowercase opts pattern lines) n
  remaining : s.afterRemaining = remaining opts (matchedAt toLowercase opts pattern lines) n
  ring : s.beforeRing =
    (List.range' (ringStart opts (matchedAt toLowercase opts pattern lines) n)
      (n - ringStart opts (matchedAt toLowercase opts pattern lines) n)).map
        fun i => ⟨i + 1, lines.getD i []⟩

lemma holds_initial : Holds toLowercase opts pattern lines 0 State.initial :=
  ⟨rfl, rfl, rfl, rfl, by simp [State.initial, ringStart]⟩

/-- The lines in the ring are printed one behind the other. -/
lemma foldl_printLine (c k : ℕ) (hs : s.lastPrintedLine ≤ c) :
    ((List.range' c k).map fun i => (⟨i + 1, lines.getD i []⟩ : Line)).foldl (fun s ctxLine =>
        if s.lastPrintedLine < ctxLine.num then s.printLine filename opts '-' ctxLine else s) s =
      { s with
        printed := s.printed ++ (List.range' c k).map fun i =>
          formatLine filename opts.lineNumbers '-' ⟨i + 1, lines.getD i []⟩
        lastPrintedLine := if k = 0 then s.lastPrintedLine else c + k } := by
  induction k generalizing c s with
  | zero => simp
  | succ k ih =>
    rw [List.range'_succ, List.map_cons, List.foldl_cons, if_pos (Nat.lt_succ_of_le hs),
      ih (c + 1) (le_refl _)]
    simp [State.printLine, State.println]
    split_ifs <;> omega

/-- All lines in the ring are printed. -/
lemma Holds.foldl_ring (filename : Option Text) (h : Holds toLowercase opts pattern lines n s)
    {t : State} (ht : t.lastPrintedLine = s.lastPrintedLine) :
    ∃ last, s.beforeRing.foldl (fun s ctxLine =>
        if s.lastPrintedLine < ctxLine.num then s.printLine filename opts '-' ctxLine else s) t =
      { t with
        printed := t.printed ++ s.beforeRing.map (formatLine filename opts.lineNumbers '-')
        lastPrintedLine := last } := by
  have hle : t.lastPrintedLine ≤ ringStart opts (matchedAt toLowercase opts pattern lines) n := by
    rw [ht, h.lastPrinted]
    exact le_max_left _ _
  rw [h.ring, foldl_printLine _ _ hle, List.map_map]
  exact ⟨_, rfl⟩

/-- What a match does: a separator, the lines in the ring, and the line are printed. -/
lemma Holds.printMatch_eq (h : Holds toLowercase opts pattern lines n s)
    (filename : Option Text) (line : Line) :
    printMatch opts filename { s with lineNum := line.num } line = { s with
      lineNum := line.num
      printed := s.printed ++ ((if (0 < opts.beforeContext ∨ 0 < opts.afterContext) ∧
          0 < s.lastPrintedLine ∧ s.lastPrintedLine + 1 < line.num then ["--".toList] else []) ++
        (s.beforeRing.map (formatLine filename opts.lineNumbers '-') ++
          [formatLine filename opts.lineNumbers ':' line]))
      lastPrintedLine := line.num
      anyOutput := true
      afterRemaining := opts.afterContext } := by
  have hany : 0 < s.lastPrintedLine → s.anyOutput = true := by
    rw [h.lastPrinted, h.anyOutput, printedTo]
    cases lastMatch (matchedAt toLowercase opts pattern lines) n with
    | none => exact fun hpos => absurd hpos (lt_irrefl 0)
    | some m => exact fun _ => rfl
  have hcond : ((0 < opts.beforeContext ∨ 0 < opts.afterContext) ∧ s.anyOutput = true ∧
      0 < s.lastPrintedLine ∧ s.lastPrintedLine + 1 < line.num) ↔
        (0 < opts.beforeContext ∨ 0 < opts.afterContext) ∧ 0 < s.lastPrintedLine ∧
          s.lastPrintedLine + 1 < line.num := by
    tauto
  obtain ⟨last, hfold⟩ := Holds.foldl_ring filename h
    (t := if (0 < opts.beforeContext ∨ 0 < opts.afterContext) ∧ 0 < s.lastPrintedLine ∧
        s.lastPrintedLine + 1 < line.num then { s with lineNum := line.num }.println "--".toList
      else { s with lineNum := line.num }) (by split_ifs <;> rfl)
  rw [printMatch]
  simp only [hcond]
  split_ifs at hfold ⊢
  · refine (congrArg (fun t => { State.printLine filename opts ':' t line with
      anyOutput := true, afterRemaining := opts.afterContext }) hfold).trans ?_
    simp [State.printLine, State.println]
  · refine (congrArg (fun t => { State.printLine filename opts ':' t line with
      anyOutput := true, afterRemaining := opts.afterContext }) hfold).trans ?_
    simp [State.printLine, State.println]

lemma Holds.contextLine_eq (h : Holds toLowercase opts pattern lines n s)
    (filename : Option Text) (line : Line) (hnum : n < line.num) :
    contextLine opts filename { s with lineNum := line.num } line =
      if 0 < s.afterRemaining then
        { s with
          lineNum := line.num
          printed := s.printed ++ [formatLine filename opts.lineNumbers '-' line]
          lastPrintedLine := line.num
          afterRemaining := s.afterRemaining - 1 }
      else if 0 < opts.beforeContext then
        { s with
          lineNum := line.num
          beforeRing := (if opts.beforeContext ≤ s.beforeRing.length then s.beforeRing.tail
            else s.beforeRing) ++ [line] }
      else { s with lineNum := line.num } := by
  have hlt : s.lastPrintedLine < line.num := by
    rw [h.lastPrinted]
    exact printedTo_le.trans_lt hnum
  rw [contextLine, if_pos hlt]
  rfl

lemma Holds.advance_of_match (h : Holds toLowercase opts pattern lines n s)
    (filename : Option Text)
    (hmatch : matchedAt toLowercase opts pattern lines n = true) :
    advance toLowercase opts pattern filename s (lines.getD n []) = { s with
      lineNum := n + 1
      printed := s.printed ++ ((if (0 < opts.beforeContext ∨ 0 < opts.afterContext) ∧
          0 < s.lastPrintedLine ∧ s.lastPrintedLine + 1 < n + 1 then ["--".toList] else []) ++
        (s.beforeRing.map (formatLine filename opts.lineNumbers '-') ++
          [formatLine filename opts.lineNumbers ':' ⟨n + 1, lines.getD n []⟩]))
      lastPrintedLine := n + 1
      anyOutput := true
      afterRemaining := opts.afterContext
      beforeRing := []
      matchFound := true
      count := s.count + 1 } := by
  have hprint := h.printMatch_eq filename ⟨n + 1, lines.getD n []⟩
  rw [advance, h.lineNum]
  exact (if_pos hmatch).trans (congrArg
    (fun t => { t with beforeRing := [], matchFound := true, count := t.count + 1 }) hprint)

lemma Holds.advance_of_not (h : Holds toLowercase opts pattern lines n s)
    (hmatch : matchedAt toLowercase opts pattern lines n = false) :
    advance toLowercase opts pattern filename s (lines.getD n []) =
      if 0 < s.afterRemaining then
        { s with
          lineNum := n + 1
          printed := s.printed ++
            [formatLine filename opts.lineNumbers '-' ⟨n + 1, lines.getD n []⟩]
          lastPrintedLine := n + 1
          afterRemaining := s.afterRemaining - 1 }
      else if 0 < opts.beforeContext then
        { s with
          lineNum := n + 1
          beforeRing := (if opts.beforeContext ≤ s.beforeRing.length then s.beforeRing.tail
            else s.beforeRing) ++ [⟨n + 1, lines.getD n []⟩] }
      else { s with lineNum := n + 1 } := by
  have hprint := h.contextLine_eq filename ⟨n + 1, lines.getD n []⟩
    (Nat.lt_succ_self n)
  have hnot : isMatch toLowercase opts pattern (lines.getD n []) ≠ true := by
    rw [← matchedAt, hmatch]
    exact Bool.false_ne_true
  rw [advance, h.lineNum]
  exact (if_neg hnot).trans hprint

/-- A line is pushed to the ring, and where the ring is full the first one is popped. -/
lemma push_ring {ring : List Line} {last b : ℕ} (hle : last ≤ n) (hb : 0 < b)
    (hring : ring = (List.range' (max last (n - b)) (n - max last (n - b))).map
      fun i => ⟨i + 1, lines.getD i []⟩) :
    (if b ≤ ring.length then ring.tail else ring) ++ [⟨n + 1, lines.getD n []⟩] =
      (List.range' (max last (n + 1 - b)) (n + 1 - max last (n + 1 - b))).map
        fun i => ⟨i + 1, lines.getD i []⟩ := by
  have hlen : ring.length = n - max last (n - b) := by
    rw [hring, List.length_map, List.length_range']
  have hpush : (if b ≤ ring.length then ring.tail else ring) =
      (List.range' (max last (n + 1 - b)) (n - max last (n + 1 - b))).map
        fun i => ⟨i + 1, lines.getD i []⟩ := by
    split_ifs with hfull
    · rw [hring, ← List.map_tail, List.tail_range']
      congr 2 <;> omega
    · rw [hring]
      congr 2 <;> omega
  have hstep : n + 1 - max last (n + 1 - b) = n - max last (n + 1 - b) + 1 := by omega
  have hend : max last (n + 1 - b) + (n - max last (n + 1 - b)) = n := by omega
  rw [hpush, hstep, List.range'_1_concat, hend, List.map_append]
  rfl

/-- A match begins the ring anew. -/
lemma Holds.advance_match (h : Holds toLowercase opts pattern lines n s)
    (hmatch : matchedAt toLowercase opts pattern lines n = true) :
    Holds toLowercase opts pattern lines (n + 1)
      (advance toLowercase opts pattern filename s (lines.getD n [])) := by
  have hlast : lastMatch (matchedAt toLowercase opts pattern lines) (n + 1) = some n := by
    rw [lastMatch, if_pos hmatch]
  have hstart : ringStart opts (matchedAt toLowercase opts pattern lines) (n + 1) = n + 1 := by
    rw [ringStart, printedTo_succ_of_match hmatch]
    omega
  rw [h.advance_of_match _ hmatch]
  refine ⟨rfl, ?_, ?_, ?_, ?_⟩
  · rw [hlast]
    rfl
  · rw [printedTo_succ_of_match hmatch]
  · simp only [Commands.Grep.remaining, hlast]
    omega
  · rw [hstart, Nat.sub_self]
    rfl

/-- A line that is not printed goes into the ring, if there is one. -/
lemma Holds.advance_not (h : Holds toLowercase opts pattern lines n s)
    (hmatch : matchedAt toLowercase opts pattern lines n = false) :
    Holds toLowercase opts pattern lines (n + 1)
      (advance toLowercase opts pattern filename s (lines.getD n [])) := by
  have hlast : lastMatch (matchedAt toLowercase opts pattern lines) (n + 1) =
      lastMatch (matchedAt toLowercase opts pattern lines) n := by
    rw [lastMatch, hmatch, if_neg Bool.false_ne_true]
  have hremaining : Commands.Grep.remaining opts (matchedAt toLowercase opts pattern lines) (n + 1)
      = s.afterRemaining - 1 := by
    rw [h.remaining, Commands.Grep.remaining, Commands.Grep.remaining, hlast]
    cases lastMatch (matchedAt toLowercase opts pattern lines) n with
    | none => rfl
    | some m => dsimp only; omega
  have hprinted := @printedTo_succ_of_not opts _ _ hmatch
  rw [← h.remaining, ← h.lastPrinted] at hprinted
  have hle : s.lastPrintedLine ≤ n := by
    rw [h.lastPrinted]
    exact printedTo_le
  have hstart : ringStart opts (matchedAt toLowercase opts pattern lines) n =
      max s.lastPrintedLine (n - opts.beforeContext) := by
    rw [ringStart, h.lastPrinted]
  have hring := h.ring
  rw [hstart] at hring
  rw [h.advance_of_not hmatch]
  by_cases hpos : 0 < s.afterRemaining
  · rw [if_pos hpos] at hprinted ⊢
    have hall : s.lastPrintedLine = n := by
      rw [h.remaining] at hpos
      rw [h.lastPrinted]
      exact printedTo_of_remaining hpos
    refine ⟨rfl, by rw [hlast]; exact h.anyOutput, hprinted.symm, hremaining.symm, ?_⟩
    rw [ringStart, hprinted, max_eq_left (by omega), Nat.sub_self]
    rw [hall, max_eq_left (by omega), Nat.sub_self] at hring
    exact hring
  · rw [if_neg hpos] at hprinted ⊢
    rw [show s.afterRemaining - 1 = s.afterRemaining by omega] at hremaining
    have hstart' : ringStart opts (matchedAt toLowercase opts pattern lines) (n + 1) =
        max s.lastPrintedLine (n + 1 - opts.beforeContext) := by
      rw [ringStart, hprinted]
    by_cases hbefore : 0 < opts.beforeContext
    · rw [if_pos hbefore]
      refine ⟨rfl, by rw [hlast]; exact h.anyOutput, hprinted.symm, hremaining.symm, ?_⟩
      rw [hstart']
      exact push_ring hle hbefore hring
    · rw [if_neg hbefore]
      refine ⟨rfl, by rw [hlast]; exact h.anyOutput, hprinted.symm, hremaining.symm, ?_⟩
      rw [hstart', max_eq_right (by omega), Nat.eq_zero_of_not_pos hbefore, Nat.sub_zero,
        Nat.sub_self]
      rw [max_eq_right (by omega), Nat.eq_zero_of_not_pos hbefore, Nat.sub_zero,
        Nat.sub_self] at hring
      exact hring

/-- What the lines in the windows print. -/
def windows (toLowercase : Text → Text) (opts : GrepOptions) (pattern : Text)
    (filename : Option Text) (lines : List Text) (n : ℕ) : List Text :=
  layout opts (formatAt toLowercase opts pattern filename lines) none
    (shown opts (matchedAt toLowercase opts pattern lines) n)

lemma windows_succ_of_match (hmatch : matchedAt toLowercase opts pattern lines n = true) :
    windows toLowercase opts pattern filename lines (n + 1) =
      windows toLowercase opts pattern filename lines n ++
        ((if (0 < opts.beforeContext ∨ 0 < opts.afterContext) ∧
            0 < printedTo opts (matchedAt toLowercase opts pattern lines) n ∧
            printedTo opts (matchedAt toLowercase opts pattern lines) n <
              ringStart opts (matchedAt toLowercase opts pattern lines) n
          then ["--".toList] else []) ++
        ((List.range' (ringStart opts (matchedAt toLowercase opts pattern lines) n)
            (n - ringStart opts (matchedAt toLowercase opts pattern lines) n)).map
            (fun i => formatLine filename opts.lineNumbers '-' ⟨i + 1, lines.getD i []⟩) ++
          [formatLine filename opts.lineNumbers ':' ⟨n + 1, lines.getD n []⟩])) := by
  have hle : ringStart opts (matchedAt toLowercase opts pattern lines) n ≤ n := ringStart_le
  have hlast : printedTo opts (matchedAt toLowercase opts pattern lines) n ≤
      ringStart opts (matchedAt toLowercase opts pattern lines) n := le_max_left _ _
  have hprev : (if printedTo opts (matchedAt toLowercase opts pattern lines) n = 0 then none
        else some (printedTo opts (matchedAt toLowercase opts pattern lines) n - 1)).any
          (· + 1 ≠ ringStart opts (matchedAt toLowercase opts pattern lines) n) = true ↔
      0 < printedTo opts (matchedAt toLowercase opts pattern lines) n ∧
        printedTo opts (matchedAt toLowercase opts pattern lines) n <
          ringStart opts (matchedAt toLowercase opts pattern lines) n := by
    split_ifs with hzero
    · simp [hzero]
    · simp only [Option.any_some, ne_eq, decide_not, Bool.not_eq_true', decide_eq_false_iff_not]
      omega
  have hring : (List.range' (ringStart opts (matchedAt toLowercase opts pattern lines) n)
      (n - ringStart opts (matchedAt toLowercase opts pattern lines) n)).map
        (formatAt toLowercase opts pattern filename lines) =
      (List.range' (ringStart opts (matchedAt toLowercase opts pattern lines) n)
        (n - ringStart opts (matchedAt toLowercase opts pattern lines) n)).map
          fun i => formatLine filename opts.lineNumbers '-' ⟨i + 1, lines.getD i []⟩ := by
    refine List.map_congr_left fun i hi => ?_
    obtain ⟨hge, hlt⟩ := List.mem_range'_1.mp hi
    rw [formatAt, matched_of_ringStart_le hge (by omega)]
    rfl
  have hself : formatAt toLowercase opts pattern filename lines n =
      formatLine filename opts.lineNumbers ':' ⟨n + 1, lines.getD n []⟩ := by
    rw [formatAt, hmatch]
    rfl
  rw [windows, shown_succ_of_match hmatch, layout_append, getLast?_shown, Option.or_none, windows,
    Nat.sub_add_comm hle, layout_range']
  simp only [hprev]
  rw [List.range'_1_concat, List.map_append, hring, Nat.add_sub_cancel' hle, List.map_singleton,
    hself]

lemma windows_succ_of_not (hmatch : matchedAt toLowercase opts pattern lines n = false) :
    windows toLowercase opts pattern filename lines (n + 1) =
      windows toLowercase opts pattern filename lines n ++
        if 0 < Commands.Grep.remaining opts (matchedAt toLowercase opts pattern lines) n then
          [formatLine filename opts.lineNumbers '-' ⟨n + 1, lines.getD n []⟩] else [] := by
  rw [windows, shown_succ_of_not hmatch, layout_append, getLast?_shown, Option.or_none, windows]
  congr 1
  by_cases hpos : 0 < Commands.Grep.remaining opts (matchedAt toLowercase opts pattern lines) n
  · have hprev : (if n = 0 then none else some (n - 1)).any (· + 1 ≠ n) = false := by
      split_ifs with hzero
      · rfl
      · simp only [Option.any_some, ne_eq, decide_not, Bool.not_eq_false', decide_eq_true_iff]
        omega
    rw [if_pos hpos, if_pos hpos, printedTo_of_remaining hpos, layout, hprev, formatAt, hmatch]
    simp [layout]
  · rw [if_neg hpos, if_neg hpos, layout]

/-- What a line prints, is what is printed for it where its window does not touch the last one. -/
lemma Holds.printed_advance (h : Holds toLowercase opts pattern lines n s)
    (filename : Option Text) :
    ∃ extra chunk, (advance toLowercase opts pattern filename s (lines.getD n [])).printed =
        s.printed ++ (extra ++ chunk) ∧
      windows toLowercase opts pattern filename lines (n + 1) =
        windows toLowercase opts pattern filename lines n ++ chunk ∧
      (extra ≠ [] ↔ TouchesAt opts (matchedAt toLowercase opts pattern lines) n) := by
  cases hmatch : matchedAt toLowercase opts pattern lines n with
  | true =>
    have hsep := @separated_iff opts _ _ hmatch
    have hprinted := congrArg State.printed (h.advance_of_match filename hmatch)
    rw [h.lastPrinted, h.ring, List.map_map] at hprinted
    by_cases htouch : TouchesAt opts (matchedAt toLowercase opts pattern lines) n
    · refine ⟨["--".toList], _, ?_, windows_succ_of_match hmatch, by simp [htouch]⟩
      rw [hprinted, if_pos (hsep.mpr (.inr htouch)), if_neg fun hlt =>
        absurd (ringStart_of_touchesAt htouch) hlt.2.2.ne']
      rfl
    · refine ⟨[], _, ?_, windows_succ_of_match hmatch, by simp [htouch]⟩
      simp only [htouch, or_false] at hsep
      simp only [hsep] at hprinted
      exact hprinted
  | false =>
    have htouch : ¬ TouchesAt opts (matchedAt toLowercase opts pattern lines) n :=
      fun ⟨hmatch', _⟩ => by rw [hmatch] at hmatch'; exact Bool.false_ne_true hmatch'
    refine ⟨[], _, ?_, windows_succ_of_not hmatch, by simp [htouch]⟩
    rw [h.advance_of_not hmatch, h.remaining]
    split_ifs <;> simp

/-- One separator too many is printed for each match whose window touches the last one. -/
lemma printed_take (toLowercase : Text → Text) (opts : GrepOptions) (pattern : Text)
    (filename : Option Text) (hn : n ≤ lines.length) :
    let s := (lines.take n).foldl (advance toLowercase opts pattern filename) State.initial
    Holds toLowercase opts pattern lines n s ∧
      ((¬ Touches opts (matchedAt toLowercase opts pattern lines) n ∧
          s.printed = windows toLowercase opts pattern filename lines n) ∨
        (Touches opts (matchedAt toLowercase opts pattern lines) n ∧
          (windows toLowercase opts pattern filename lines n).length < s.printed.length)) := by
  induction n with
  | zero =>
    refine ⟨holds_initial, .inl ⟨?_, rfl⟩⟩
    rintro ⟨m, k, -, hk, -⟩
    exact Nat.not_lt_zero k hk
  | succ n ih =>
    obtain ⟨hholds, hprinted⟩ := ih (by omega)
    have hline : lines.take (n + 1) = lines.take n ++ [lines.getD n []] := by
      rw [List.take_succ_eq_append_getElem (by omega), List.getD_eq_getElem _ _ (by omega)]
    obtain ⟨extra, chunk, hadvance, hwindows, hextra⟩ :=
      hholds.printed_advance filename
    dsimp only at hprinted ⊢
    rw [hline, List.foldl_append, List.foldl_cons, List.foldl_nil, touches_succ]
    refine ⟨?_, ?_⟩
    · cases hmatch : matchedAt toLowercase opts pattern lines n with
      | true => exact hholds.advance_match hmatch
      | false => exact hholds.advance_not hmatch
    rw [hadvance, hwindows]
    obtain ⟨hnot, heq⟩ | ⟨htouch, hlt⟩ := hprinted
    · by_cases hat : TouchesAt opts (matchedAt toLowercase opts pattern lines) n
      · have hpos : 0 < extra.length := List.length_pos_iff.mpr (hextra.mpr hat)
        refine .inr ⟨.inr hat, ?_⟩
        simp only [List.length_append, heq]
        omega
      · have hnil : extra = [] := by
          by_contra hne
          exact hat (hextra.mp hne)
        refine .inl ⟨fun h => h.elim hnot hat, ?_⟩
        rw [heq, hnil, List.nil_append]
    · refine .inr ⟨.inl htouch, ?_⟩
      simp only [List.length_append]
      omega

lemma printed_foldl : (lines.foldl (advance toLowercase opts pattern filename)
      State.initial).printed = windows toLowercase opts pattern filename lines lines.length ↔
    ¬ Touches opts (matchedAt toLowercase opts pattern lines) lines.length := by
  obtain ⟨-, hprinted⟩ := printed_take toLowercase opts pattern filename
    (le_refl lines.length)
  rw [List.take_length] at hprinted
  obtain ⟨hnot, heq⟩ | ⟨htouch, hlt⟩ := hprinted
  · exact ⟨fun _ => hnot, fun _ => heq⟩
  · exact ⟨fun heq => absurd (congrArg List.length heq) hlt.ne', fun hnot => absurd htouch hnot⟩

lemma printsWindows_of (hcount : opts.countOnly = false) (hfiles : opts.filesOnly = false)
    (hquiet : opts.quiet = false) (platform : Platform) (stream : Stream) :
    PrintsWindows toLowercase fromUtf8Lossy opts pattern filename platform stream ↔
      platform.Allocates opts.beforeContext ∧
        ((inputLines fromUtf8Lossy stream).foldl (advance toLowercase opts pattern filename)
            State.initial).printed =
          windows toLowercase opts pattern filename (inputLines fromUtf8Lossy stream)
            (inputLines fromUtf8Lossy stream).length := by
  have hgrep : grepFromHandle toLowercase fromUtf8Lossy opts pattern filename platform stream =
      if platform.Allocates opts.beforeContext then
        some ((inputLines fromUtf8Lossy stream).foldl (advance toLowercase opts pattern filename)
          State.initial)
      else none := by
    rw [grepFromHandle, forLines_eq, foldlM_processLine hcount hfiles hquiet]
    rfl
  simp only [PrintsWindows, hgrep]
  constructor
  · rintro ⟨s, hs, hprinted⟩
    split_ifs at hs with hplatform
    obtain rfl := Option.some.inj hs
    exact ⟨hplatform, hprinted⟩
  · rintro ⟨hplatform, hprinted⟩
    exact ⟨_, if_pos hplatform, hprinted⟩

end

/-- `grep` prints the windows if and only if the ring can be allocated, and no match is more than
`-A` lines behind the last one and begins its window where the window of the last one ends. -/
theorem printsWindows_iff (toLowercase : Text → Text) (fromUtf8Lossy : List UInt8 → Text)
    (opts : GrepOptions) (pattern : Text) (filename : Option Text) (platform : Platform)
    (stream : Stream) (hcount : opts.countOnly = false) (hfiles : opts.filesOnly = false)
    (hquiet : opts.quiet = false) :
    PrintsWindows toLowercase fromUtf8Lossy opts pattern filename platform stream ↔
      platform.Allocates opts.beforeContext ∧
        ¬ Touches opts (matchedAt toLowercase opts pattern (inputLines fromUtf8Lossy stream))
          (inputLines fromUtf8Lossy stream).length := by
  rw [printsWindows_of hcount hfiles hquiet, printed_foldl]

/-- Two lines match, and there is one between them. -/
def matchesApart : Stream := ⟨[[120, 10, 121, 10, 120, 10]], by decide⟩

def ascii (bytes : List UInt8) : Text := bytes.map fun b => Char.ofNat b.toNat

/-- `-F`, with this much context before and behind matches. -/
def contextOptions (beforeContext afterContext : ℕ) : GrepOptions :=
  ⟨false, false, false, false, false, false, true, beforeContext, afterContext⟩

/-- 64 bits. -/
def Platform.wide : Platform := ⟨18446744073709551615, 9223372036854775807, 32, true⟩

/-- With `-A 2` there is one window. -/
theorem printsWindows_matchesApart :
    PrintsWindows id ascii (contextOptions 0 2) "x".toList none Platform.wide matchesApart :=
  (printsWindows_iff id ascii (contextOptions 0 2) "x".toList none Platform.wide matchesApart rfl
    rfl rfl).mpr ⟨by decide, fun ⟨_, _, _, _, _, _, _, hgap, htouch⟩ => by
      simp only [contextOptions] at hgap htouch
      omega⟩

/-- With `-B 1` a separator is printed although there is no line between the windows. -/
theorem not_printsWindows :
    ¬ PrintsWindows id ascii (contextOptions 1 0) "x".toList none Platform.wide matchesApart := by
  rw [printsWindows_of rfl rfl rfl]
  rintro ⟨-, hprinted⟩
  revert hprinted
  decide

end AmlaSandbox.Commands.Grep
