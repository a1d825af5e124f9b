import AmlaSandbox.Commands.Reading
import AmlaSandbox.Text.Numbers
import Mathlib.Data.List.Flatten

/-!
# cut

`cut` selects parts of each line by ranges of positions. A position that does not fit a `usize` is
read as if it were left out.
-/

namespace AmlaSandbox.Commands.Cut

open Text

inductive CutMode
  | fields
  | chars
  | bytes
deriving DecidableEq

/-- A range like `1`, `1-3`, `-3`, `3-`. Without a start it begins at the beginning, and without a
stop it ends at the end. -/
structure Range where
  start : Option ℕ
  stop : Option ℕ

def Range.contains (self : Range) (idx : ℕ) : Bool :=
  let start := self.start.getD 1
  match self.stop with
  | some stop => start ≤ idx && idx ≤ stop
  | none => start ≤ idx

/-- A part of the list of ranges, if it is one. -/
def parsePart (usizeMax : ℕ) (part : Text) : Option Range :=
  let part := trim part
  if part = [] then none
  else if '-' ∈ part then
    let left := part.takeWhile (· ≠ '-')
    let right := (part.dropWhile (· ≠ '-')).tail
    some ⟨if left = [] then none else parseUsize usizeMax left,
      if right = [] then none else parseUsize usizeMax right⟩
  else (parseUsize usizeMax part).map fun n => ⟨some n, some n⟩

def parseRanges (usizeMax : ℕ) (s : Text) : List Range :=
  (s.splitOn ',').filterMap (parsePart usizeMax)

def inRanges (idx : ℕ) (ranges : List Range) : Bool := ranges.any (·.contains idx)

/-- The loop over fields, from this index on. -/
def writeFields (ranges : List Range) (delimiter : UInt8) : ℕ → Bool → List (List UInt8) →
    List UInt8
  | _, _, [] => []
  | i, first, field :: fields =>
    if inRanges (i + 1) ranges then
      (if first then [] else [delimiter]) ++ field ++
        writeFields ranges delimiter (i + 1) false fields
    else writeFields ranges delimiter (i + 1) first fields

/-- The loop over bytes, from this index on. -/
def selectBytes (ranges : List Range) : ℕ → List UInt8 → List UInt8
  | _, [] => []
  | i, byte :: bytes =>
    if inRanges (i + 1) ranges then byte :: selectBytes ranges (i + 1) bytes
    else selectBytes ranges (i + 1) bytes

def processLine (mode : CutMode) (ranges : List Range) (delimiter : UInt8) (onlyDelimited : Bool)
    (line : List UInt8) : List UInt8 :=
  match mode with
  | .fields =>
    let fields := line.splitOn delimiter
    if onlyDelimited && fields.length == 1 then []
    else writeFields ranges delimiter 0 true fields ++ [newline]
  | .chars | .bytes => selectBytes ranges 0 line ++ [newline]

def cutFromHandle (mode : CutMode) (ranges : List Range) (delimiter : UInt8)
    (onlyDelimited : Bool) (stream : Stream) : List UInt8 :=
  Id.run <| forLines (fun output line =>
    pure (output ++ processLine mode ranges delimiter onlyDelimited line)) stream []

/-! ### What should be selected -/

/-- A position in decimal notation. -/
structure Position where
  digits : Text
  ne_nil : digits ≠ []
  isDigit : ∀ c ∈ digits, c.isDigit = true

def Position.value (n : Position) : ℕ := digitsValue n.digits

/-- `N`, `N-M`, `N-`, `-M` -/
inductive Selector
  | one (n : Position)
  | between (n m : Position)
  | onward (n : Position)
  | upTo (m : Position)

namespace Selector

def text : Selector → Text
  | one n => n.digits
  | between n m => n.digits ++ '-' :: m.digits
  | onward n => n.digits ++ ['-']
  | upTo m => '-' :: m.digits

def covers : Selector → ℕ → Bool
  | one n, i => i = n.value
  | between n m, i => n.value ≤ i && i ≤ m.value
  | onward n, i => n.value ≤ i
  | upTo m, i => i ≤ m.value

/-- A position that the range covers if its start is left out, where the start is beyond `usize`. -/
def strays (usizeMax : ℕ) : Selector → ℕ → Bool
  | one _, _ => false
  | between n m, i => usizeMax < n.value && i ≤ m.value
  | onward n, _ => usizeMax < n.value
  | upTo _, _ => false

end Selector

/-- The list of ranges as it is written. -/
def selectorsText (selectors : List Selector) : Text :=
  [','].intercalate (selectors.map Selector.text)

/-- The parts at these positions, from this position on. -/
def pick {α : Type} (p : ℕ → Bool) (i : ℕ) (parts : List α) : List α :=
  ((parts.zipIdx i).filter fun part => p part.2).map Prod.fst

def covered (selectors : List Selector) (i : ℕ) : Bool := selectors.any (·.covers i)

/-- A position that is only selected by ranges whose start is beyond `usize`. -/
def strayed (usizeMax : ℕ) (selectors : List Selector) (i : ℕ) : Bool :=
  selectors.any (·.strays usizeMax i) && !covered selectors i

/-- What should be printed for a line. -/
def cutLine (mode : CutMode) (selectors : List Selector) (delimiter : UInt8)
    (onlyDelimited : Bool) (line : List UInt8) : List UInt8 :=
  match mode with
  | .fields =>
    if onlyDelimited && delimiter ∉ line then []
    else [delimiter].intercalate (pick (covered selectors) 1 (line.splitOn delimiter)) ++ [newline]
  | .chars | .bytes => pick (covered selectors) 1 line ++ [newline]

/-- No part of a line is selected by ranges with a start beyond `usize` only, or it is an empty
field where there should be none. -/
def Kept (usizeMax : ℕ) (mode : CutMode) (selectors : List Selector) (delimiter : UInt8)
    (onlyDelimited : Bool) (line : List UInt8) : Prop :=
  match mode with
  | .fields =>
    let fields := line.splitOn delimiter
    (onlyDelimited = true ∧ delimiter ∉ line) ∨ pick (strayed usizeMax selectors) 1 fields = [] ∨
      (pick (strayed usizeMax selectors) 1 fields = [[]] ∧ pick (covered selectors) 1 fields = [])
  | .chars | .bytes => pick (strayed usizeMax selectors) 1 line = []

/-! ### Parsing ranges -/

section

variable {usizeMax i : ℕ} {n m : Position} {s : Text} {c : Char}

lemma Position.notMem (n : Position) (hc : c.isDigit = false) : c ∉ n.digits := by
  intro hmem
  rw [n.isDigit c hmem] at hc
  exact Bool.false_ne_true hc.symm

lemma isWhitespace_of_isDigit (h : c.isDigit = true) : isWhitespace c = false := by
  simp only [Char.isDigit, Bool.and_eq_true, decide_eq_true_iff, ge_iff_le,
    UInt32.le_iff_toNat_le] at h
  simp only [isWhitespace, Bool.or_eq_false_iff, Bool.and_eq_false_iff, decide_eq_false_iff_not,
    beq_eq_false_iff_ne, ne_eq, ← UInt32.toNat_inj, UInt32.le_iff_toNat_le, UInt32.reduceToNat]
  have hrange : 48 ≤ c.val.toNat ∧ c.val.toNat ≤ 57 := h
  omega

lemma trim_eq_self (h : ∀ c ∈ s, isWhitespace c = false) : trim s = s := by
  have hfront : s.dropWhile isWhitespace = s := by
    rw [List.dropWhile_eq_self_iff]
    intro hlt
    rw [h _ (List.getElem_mem hlt)]
    exact Bool.false_ne_true
  rw [trim, hfront, List.rdropWhile_eq_self_iff]
  intro hne
  rw [h _ (List.getLast_mem hne)]
  exact Bool.false_ne_true

lemma parseUsize_digits (n : Position) :
    parseUsize usizeMax n.digits = if n.value ≤ usizeMax then some n.value else none := by
  have hplus : n.digits.head? ≠ some '+' := by
    intro hhead
    exact n.notMem (c := '+') (by decide) (List.mem_of_mem_head? hhead)
  have hall : n.digits.all Char.isDigit = true := List.all_eq_true.mpr n.isDigit
  rw [parseUsize, if_neg hplus]
  exact if_congr (by simp [n.ne_nil, hall, Position.value]) rfl rfl

lemma Selector.isWhitespace_text (s : Selector) (c : Char) (hc : c ∈ s.text) :
    isWhitespace c = false := by
  have hdash : isWhitespace '-' = false := by decide
  cases s with
  | one n => exact isWhitespace_of_isDigit (n.isDigit c hc)
  | between n m =>
    obtain hc | hc := List.mem_append.mp hc
    · exact isWhitespace_of_isDigit (n.isDigit c hc)
    obtain rfl | hc := List.mem_cons.mp hc
    · exact hdash
    · exact isWhitespace_of_isDigit (m.isDigit c hc)
  | onward n =>
    obtain hc | hc := List.mem_append.mp hc
    · exact isWhitespace_of_isDigit (n.isDigit c hc)
    · rw [List.mem_singleton.mp hc, hdash]
  | upTo m =>
    obtain rfl | hc := List.mem_cons.mp hc
    · exact hdash
    · exact isWhitespace_of_isDigit (m.isDigit c hc)

/-- The range that is parsed. -/
def Selector.range (usizeMax : ℕ) : Selector → Option Range
  | one n => if n.value ≤ usizeMax then some ⟨some n.value, some n.value⟩ else none
  | between n m => some ⟨if n.value ≤ usizeMax then some n.value else none,
      if m.value ≤ usizeMax then some m.value else none⟩
  | onward n => some ⟨if n.value ≤ usizeMax then some n.value else none, none⟩
  | upTo m => some ⟨none, if m.value ≤ usizeMax then some m.value else none⟩

lemma takeWhile_dash (n : Position) (s : Text) :
    (n.digits ++ '-' :: s).takeWhile (· ≠ '-') = n.digits ∧
      ((n.digits ++ '-' :: s).dropWhile (· ≠ '-')).tail = s := by
  have hall : ∀ c ∈ n.digits, decide (c ≠ '-') = true :=
    fun c hc => decide_eq_true (ne_of_mem_of_not_mem hc (n.notMem (by decide)))
  rw [List.takeWhile_append_of_pos hall, List.dropWhile_append_of_pos hall]
  simp

lemma parsePart_text (s : Selector) : parsePart usizeMax s.text = s.range usizeMax := by
  rw [parsePart, trim_eq_self s.isWhitespace_text]
  cases s with
  | one n =>
    have hdash : '-' ∉ n.digits := n.notMem (by decide)
    simp only [Selector.text, n.ne_nil, hdash, if_false, parseUsize_digits, Selector.range]
    split_ifs <;> rfl
  | between n m =>
    obtain ⟨hleft, hright⟩ := takeWhile_dash n m.digits
    simp only [Selector.text, hleft, hright, n.ne_nil, m.ne_nil, parseUsize_digits, Selector.range]
    simp
  | onward n =>
    obtain ⟨hleft, hright⟩ := takeWhile_dash n []
    simp only [Selector.text, hleft, hright, n.ne_nil, parseUsize_digits, Selector.range]
    simp
  | upTo m =>
    simp [Selector.text, parseUsize_digits, Selector.range, m.ne_nil]

lemma contains_range (s : Selector) (hi : 1 ≤ i) (hle : i ≤ usizeMax) :
    (s.range usizeMax).any (·.contains i) = (s.covers i || s.strays usizeMax i) := by
  rw [Bool.eq_iff_iff]
  cases s with
  | one n =>
    simp only [Selector.range, Selector.covers, Selector.strays]
    split_ifs <;> simp [Range.contains] <;> omega
  | between n m =>
    simp only [Selector.range, Selector.covers, Selector.strays]
    split_ifs <;> simp [Range.contains] <;> omega
  | onward n =>
    simp only [Selector.range, Selector.covers, Selector.strays]
    split_ifs <;> simp [Range.contains] <;> omega
  | upTo m =>
    simp only [Selector.range, Selector.covers, Selector.strays]
    split_ifs <;> simp [Range.contains] <;> omega

lemma selectorsText_splitOn {selectors : List Selector} (h : selectors ≠ []) :
    (selectorsText selectors).splitOn ',' = selectors.map Selector.text := by
  refine List.splitOn_intercalate ',' ?_ (by simpa using h)
  intro part hpart
  obtain ⟨s, -, rfl⟩ := List.mem_map.mp hpart
  have hcomma (n : Position) : ',' ∉ n.digits := n.notMem (by decide)
  cases s <;> simp [Selector.text, hcomma]

/-- What the parsed list of ranges selects. -/
lemma inRanges_parseRanges (selectors : List Selector) (hi : 1 ≤ i) (hle : i ≤ usizeMax) :
    inRanges i (parseRanges usizeMax (selectorsText selectors)) =
      (covered selectors i || strayed usizeMax selectors i) := by
  have hparse : parseRanges usizeMax (selectorsText selectors) =
      selectors.filterMap (Selector.range usizeMax) := by
    by_cases hnil : selectors = []
    · subst hnil
      rfl
    · rw [parseRanges, selectorsText_splitOn hnil, List.filterMap_map]
      congr 1
      exact funext fun s => parsePart_text s
  calc inRanges i (parseRanges usizeMax (selectorsText selectors))
      = selectors.any fun s => (s.range usizeMax).any (·.contains i) := by
        rw [hparse, inRanges, List.any_filterMap]
        refine List.any_congr rfl fun s => ?_
        cases s.range usizeMax <;> rfl
    _ = selectors.any fun s => s.covers i || s.strays usizeMax i :=
        List.any_congr rfl fun s => contains_range s hi hle
    _ = (covered selectors i || strayed usizeMax selectors i) := by
        rw [strayed, Bool.or_and_distrib_left, Bool.or_not_self, Bool.and_true, covered]
        rw [Bool.eq_iff_iff]
        simp only [Bool.or_eq_true, List.any_eq_true, and_or_left, exists_or]

end

/-! ### The parts of a line -/

section

variable {α : Type} {p q : ℕ → Bool} {i : ℕ} {x : α} {xs : List α}

lemma pick_cons : pick p i (x :: xs) = (if p i then [x] else []) ++ pick p (i + 1) xs := by
  rw [pick, List.zipIdx_cons, List.filter_cons]
  split_ifs <;> rfl

lemma pick_congr (h : ∀ j, i ≤ j → j < i + xs.length → p j = q j) : pick p i xs = pick q i xs := by
  induction xs generalizing i with
  | nil => rfl
  | cons x xs ih =>
    rw [List.length_cons] at h
    rw [pick_cons, pick_cons, h i (le_refl i) (by omega),
      ih fun j hj hlt => h j (by omega) (by omega)]

lemma pick_or (h : ∀ j, (p j && q j) = false) :
    (pick p i xs).Sublist (pick (fun j => p j || q j) i xs) ∧
      (pick q i xs).Sublist (pick (fun j => p j || q j) i xs) ∧
      (pick (fun j => p j || q j) i xs).length = (pick p i xs).length + (pick q i xs).length := by
  induction xs generalizing i with
  | nil => exact ⟨List.Sublist.refl _, List.Sublist.refl _, rfl⟩
  | cons x xs ih =>
    obtain ⟨hp, hq, hlen⟩ := ih (i := i + 1)
    have hdisjoint := h i
    rw [pick_cons, pick_cons, pick_cons, List.length_append, List.length_append, List.length_append,
      hlen]
    cases hpi : p i <;> cases hqi : q i <;> simp_all <;> omega

/-- Nothing more is picked. -/
lemma pick_or_eq_iff (h : ∀ j, (p j && q j) = false) :
    pick (fun j => p j || q j) i xs = pick p i xs ↔ pick q i xs = [] := by
  obtain ⟨hp, -, hlen⟩ := @pick_or _ _ _ i xs h
  rw [← List.length_eq_zero_iff]
  constructor
  · intro heq
    have := congrArg List.length heq
    omega
  · intro hzero
    exact (hp.eq_of_length (by omega)).symm

lemma selectBytes_eq (ranges : List Range) (i : ℕ) (bytes : List UInt8) :
    selectBytes ranges i bytes = pick (inRanges · ranges) (i + 1) bytes := by
  induction bytes generalizing i with
  | nil => rfl
  | cons byte bytes ih =>
    rw [selectBytes, pick_cons, ih]
    split_ifs <;> rfl

lemma intercalate_cons_eq (d : UInt8) (part : List UInt8) (parts : List (List UInt8)) :
    [d].intercalate (part :: parts) = part ++ parts.flatMap (d :: ·) := by
  induction parts generalizing part with
  | nil => simp
  | cons next parts ih =>
    rw [List.intercalate_cons_cons, ih, List.flatMap_cons, List.append_assoc]
    rfl

lemma writeFields_false (ranges : List Range) (d : UInt8) (i : ℕ) (fields : List (List UInt8)) :
    writeFields ranges d i false fields =
      (pick (inRanges · ranges) (i + 1) fields).flatMap (d :: ·) := by
  induction fields generalizing i with
  | nil => rfl
  | cons field fields ih =>
    rw [writeFields, pick_cons, ih]
    cases inRanges (i + 1) ranges <;> simp

lemma writeFields_true (ranges : List Range) (d : UInt8) (i : ℕ) (fields : List (List UInt8)) :
    writeFields ranges d i true fields =
      [d].intercalate (pick (inRanges · ranges) (i + 1) fields) := by
  induction fields generalizing i with
  | nil => rfl
  | cons field fields ih =>
    rw [writeFields, pick_cons, ih, writeFields_false]
    cases inRanges (i + 1) ranges with
    | true => exact (intercalate_cons_eq d field _).symm
    | false => rfl

lemma length_intercalate (d : UInt8) (parts : List (List UInt8)) :
    ([d].intercalate parts).length = parts.flatten.length + (parts.length - 1) := by
  cases parts with
  | nil => rfl
  | cons part parts =>
    have hlen : (parts.flatMap (d :: ·)).length = parts.flatten.length + parts.length := by
      induction parts with
      | nil => rfl
      | cons next parts ih =>
        simp only [List.flatMap_cons, List.length_append, List.length_cons, List.flatten_cons, ih]
        omega
    rw [intercalate_cons_eq, List.length_append, hlen, List.flatten_cons, List.length_append,
      List.length_cons]
    omega

/-- Fewer fields are joined to the same only where there is no field or one that is empty. -/
lemma intercalate_of_sublist {d : UInt8} {parts more : List (List UInt8)}
    (h : parts.Sublist more) :
    ([d].intercalate parts).length ≤ ([d].intercalate more).length ∧
      (([d].intercalate more).length = ([d].intercalate parts).length →
        more = parts ∨ (more = [[]] ∧ parts = [])) := by
  have hsum := h.flatten.length_le
  have hlen := h.length_le
  rw [length_intercalate, length_intercalate]
  refine ⟨by omega, fun heq => ?_⟩
  by_cases hnil : parts = []
  · subst hnil
    cases more with
    | nil => exact .inl rfl
    | cons x xs =>
      simp only [List.flatten_cons, List.flatten_nil, List.length_append, List.length_cons,
        List.length_nil] at heq
      have hx : x = [] := List.length_eq_zero_iff.mp (by omega)
      have hxs : xs = [] := List.length_eq_zero_iff.mp (by omega)
      exact .inr ⟨by rw [hx, hxs], rfl⟩
  · have hpos := List.length_pos_iff.mpr hnil
    exact .inl (h.eq_of_length (by omega)).symm

/-- Where no element gives less, the whole is the same only if each element gives the same. -/
lemma flatMap_eq_iff {β : Type} {f g : α → List β} (hle : ∀ x ∈ xs, (g x).length ≤ (f x).length)
    (heq : ∀ x ∈ xs, (f x).length = (g x).length → f x = g x) :
    xs.flatMap f = xs.flatMap g ↔ ∀ x ∈ xs, f x = g x := by
  constructor
  · intro h
    have hlen := congrArg List.length h
    suffices hsame : ∀ x ∈ xs, (f x).length = (g x).length from
      fun x hx => heq x hx (hsame x hx)
    clear h heq
    induction xs with
    | nil => exact List.forall_mem_nil _
    | cons x xs ih =>
      obtain ⟨hx, hxs⟩ := List.forall_mem_cons.mp hle
      have hrest : (xs.flatMap g).length ≤ (xs.flatMap f).length := by
        clear ih hlen hle
        induction xs with
        | nil => exact le_refl _
        | cons y ys ih =>
          obtain ⟨hy, hys⟩ := List.forall_mem_cons.mp hxs
          have hys := ih hys
          rw [List.flatMap_cons, List.flatMap_cons, List.length_append, List.length_append]
          omega
      rw [List.flatMap_cons, List.flatMap_cons, List.length_append, List.length_append] at hlen
      exact List.forall_mem_cons.mpr ⟨by omega, ih hxs (by omega)⟩
  · exact fun h => List.flatMap_congr h

end

/-! ### Lines -/

section

variable {usizeMax : ℕ} {mode : CutMode} {selectors : List Selector} {delimiter : UInt8}
  {onlyDelimited : Bool} {line : List UInt8}

lemma covered_and_strayed (j : ℕ) :
    (covered selectors j && strayed usizeMax selectors j) = false := by
  rw [strayed, Bool.and_comm, Bool.and_assoc, Bool.not_and_self, Bool.and_false]

/-- The positions of the parts of a line. -/
lemma pick_inRanges {α : Type} {parts : List α} (h : parts.length ≤ usizeMax) :
    pick (inRanges · (parseRanges usizeMax (selectorsText selectors))) 1 parts =
      pick (fun j => covered selectors j || strayed usizeMax selectors j) 1 parts :=
  pick_congr fun j hj hlt => inRanges_parseRanges selectors hj (by omega)

lemma length_splitOn (d : UInt8) (line : List UInt8) :
    (line.splitOn d).length = line.count d + 1 := by
  induction line with
  | nil => rfl
  | cons b line ih =>
    rw [List.splitOn] at ih ⊢
    rw [List.splitOnP_cons_eq_if_modifyHead, List.count_cons]
    split_ifs
    · rw [List.length_cons, ih]
    · rw [List.length_modifyHead, ih, Nat.add_zero]

/-- What is printed for a line. -/
lemma processLine_eq (hline : line.length < usizeMax) :
    processLine mode (parseRanges usizeMax (selectorsText selectors)) delimiter onlyDelimited line =
      match mode with
      | .fields =>
        if onlyDelimited && delimiter ∉ line then []
        else [delimiter].intercalate
          (pick (fun j => covered selectors j || strayed usizeMax selectors j) 1
            (line.splitOn delimiter)) ++ [newline]
      | .chars | .bytes =>
        pick (fun j => covered selectors j || strayed usizeMax selectors j) 1 line ++
          [newline] := by
  have hcount := line.count_le_length (a := delimiter)
  have hfields : (line.splitOn delimiter).length ≤ usizeMax := by
    rw [length_splitOn]
    omega
  have hone : ((line.splitOn delimiter).length == 1) = decide (delimiter ∉ line) := by
    rw [length_splitOn, Bool.eq_iff_iff, beq_iff_eq, decide_eq_true_iff, Nat.add_eq_right,
      List.count_eq_zero]
  cases mode with
  | fields => rw [processLine, writeFields_true, pick_inRanges hfields, hone]
  | chars => rw [processLine, selectBytes_eq, pick_inRanges hline.le]
  | bytes => rw [processLine, selectBytes_eq, pick_inRanges hline.le]

lemma bytes_spec : (pick (covered selectors) 1 line).length ≤
      (pick (fun j => covered selectors j || strayed usizeMax selectors j) 1 line).length ∧
    ((pick (fun j => covered selectors j || strayed usizeMax selectors j) 1 line).length =
        (pick (covered selectors) 1 line).length → pick (strayed usizeMax selectors) 1 line = []) ∧
    (pick (strayed usizeMax selectors) 1 line = [] →
      pick (fun j => covered selectors j || strayed usizeMax selectors j) 1 line =
        pick (covered selectors) 1 line) := by
  have hdisjoint (j : ℕ) := @covered_and_strayed usizeMax selectors j
  obtain ⟨hcovered, -, hlen⟩ := @pick_or _ _ _ 1 line hdisjoint
  refine ⟨hcovered.length_le, fun heq => ?_, (pick_or_eq_iff hdisjoint).mpr⟩
  exact List.length_eq_zero_iff.mp (by omega)

lemma fields_spec (fields : List (List UInt8)) :
    ([delimiter].intercalate (pick (covered selectors) 1 fields)).length ≤
      ([delimiter].intercalate
        (pick (fun j => covered selectors j || strayed usizeMax selectors j) 1 fields)).length ∧
    (([delimiter].intercalate
        (pick (fun j => covered selectors j || strayed usizeMax selectors j) 1 fields)).length =
        ([delimiter].intercalate (pick (covered selectors) 1 fields)).length →
      pick (strayed usizeMax selectors) 1 fields = [] ∨
        (pick (strayed usizeMax selectors) 1 fields = [[]] ∧
          pick (covered selectors) 1 fields = [])) ∧
    (pick (strayed usizeMax selectors) 1 fields = [] ∨
        (pick (strayed usizeMax selectors) 1 fields = [[]] ∧
          pick (covered selectors) 1 fields = []) →
      [delimiter].intercalate
        (pick (fun j => covered selectors j || strayed usizeMax selectors j) 1 fields) =
          [delimiter].intercalate (pick (covered selectors) 1 fields)) := by
  have hdisjoint (j : ℕ) := @covered_and_strayed usizeMax selectors j
  obtain ⟨hcovered, hstrayed, hlen⟩ := @pick_or _ _ _ 1 fields hdisjoint
  obtain ⟨hle, hsame⟩ := @intercalate_of_sublist delimiter _ _ hcovered
  refine ⟨hle, fun heq => ?_, ?_⟩
  · obtain hsame | ⟨hone, hnil⟩ := hsame heq
    · exact .inl ((pick_or_eq_iff hdisjoint).mp hsame)
    · rw [hone, hnil] at hlen
      rw [hone] at hstrayed
      exact .inr ⟨hstrayed.eq_of_length (by simpa using hlen.symm), hnil⟩
  · rintro (hnil | ⟨hone, hnil⟩)
    · rw [(pick_or_eq_iff hdisjoint).mpr hnil]
    · rw [hone, hnil] at hlen
      rw [hone] at hstrayed
      rw [← hstrayed.eq_of_length (by simpa using hlen.symm), hnil]
      rfl

/-- A line is printed as it should be only if nothing strays. -/
lemma processLine_spec (hline : line.length < usizeMax) :
    (cutLine mode selectors delimiter onlyDelimited line).length ≤
        (processLine mode (parseRanges usizeMax (selectorsText selectors)) delimiter onlyDelimited
          line).length ∧
      ((processLine mode (parseRanges usizeMax (selectorsText selectors)) delimiter onlyDelimited
          line).length = (cutLine mode selectors delimiter onlyDelimited line).length →
        Kept usizeMax mode selectors delimiter onlyDelimited line) ∧
      (Kept usizeMax mode selectors delimiter onlyDelimited line →
        processLine mode (parseRanges usizeMax (selectorsText selectors)) delimiter onlyDelimited
          line = cutLine mode selectors delimiter onlyDelimited line) := by
  rw [processLine_eq hline]
  have hbytes := @bytes_spec usizeMax selectors line
  cases mode with
  | fields =>
    obtain ⟨hle, hlen, heq⟩ := @fields_spec usizeMax selectors delimiter (line.splitOn delimiter)
    simp only [cutLine, Kept]
    by_cases hdropped : onlyDelimited = true ∧ delimiter ∉ line
    · simp [hdropped]
    · simp only [Bool.and_eq_true, decide_eq_true_iff, hdropped, if_false, List.length_append,
        false_or]
      exact ⟨by omega, fun h => hlen (by omega), fun h => by rw [heq h]⟩
  | chars =>
    simp only [cutLine, Kept, List.length_append]
    exact ⟨by omega, fun h => hbytes.2.1 (by omega), fun h => by rw [hbytes.2.2 h]⟩
  | bytes =>
    simp only [cutLine, Kept, List.length_append]
    exact ⟨by omega, fun h => hbytes.2.1 (by omega), fun h => by rw [hbytes.2.2 h]⟩

lemma cutFromHandle_eq (ranges : List Range) (stream : Stream) :
    cutFromHandle mode ranges delimiter onlyDelimited stream =
      (bareLines stream.bytes).flatMap (processLine mode ranges delimiter onlyDelimited) := by
  have hloop (output : List UInt8) (ls : List (List UInt8)) :
      ls.foldl (fun output line => output ++ processLine mode ranges delimiter onlyDelimited line)
        output = output ++ ls.flatMap (processLine mode ranges delimiter onlyDelimited) := by
    induction ls generalizing output with
    | nil => simp
    | cons line ls ih => rw [List.foldl_cons, ih, List.flatMap_cons, List.append_assoc]
  rw [cutFromHandle, forLines_eq, List.foldlM_pure]
  exact hloop [] _

/-- All lines are cut as they should be if and only if in none of them a range strays. -/
lemma cutFromHandle_iff {stream : Stream}
    (hlines : ∀ line ∈ bareLines stream.bytes, line.length < usizeMax) :
    cutFromHandle mode (parseRanges usizeMax (selectorsText selectors)) delimiter onlyDelimited
        stream =
      (bareLines stream.bytes).flatMap (cutLine mode selectors delimiter onlyDelimited) ↔
    ∀ line ∈ bareLines stream.bytes, Kept usizeMax mode selectors delimiter onlyDelimited line := by
  rw [cutFromHandle_eq, flatMap_eq_iff (fun line hline => (processLine_spec (hlines line hline)).1)]
  · refine forall₂_congr fun line hline => ?_
    obtain ⟨-, hkept, heq⟩ := processLine_spec (hlines line hline)
    exact ⟨fun h => hkept (congrArg List.length h), heq⟩
  · intro line hline hlen
    obtain ⟨-, hkept, heq⟩ := processLine_spec (hlines line hline)
    exact heq (hkept hlen)

end

end AmlaSandbox.Commands.Cut
