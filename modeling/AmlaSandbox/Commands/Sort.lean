import AmlaSandbox.Library.StableSort
import AmlaSandbox.Text.Numbers
import Mathlib.Algebra.Group.Nat.Defs
import Mathlib.Order.Compare

/-!
# sort

`sort` reads all lines, sorts them with a stable sort, and prints them; with `-u` a line that is
equal to the one before is not printed. Equal lines are neighbours only where nothing else compares
equal to them.
-/

namespace AmlaSandbox.Commands

open Text Library

/-! ### Numbers -/

/-- `str::parse::<f64>` of `[+-]digits[.digits]`, in units of `2 ^ (-1074)`. -/
def parseF64 (s : Text) : Option ℤ :=
  let body := if s.head? = some '-' ∨ s.head? = some '+' then s.tail else s
  let whole := body.takeWhile Char.isDigit
  let fraction := (body.dropWhile Char.isDigit).tail
  if whole ++ fraction = [] then none
  else
    let units := roundQuotient (digitsValue (whole ++ fraction)) (10 ^ fraction.length)
    some (if s.head? = some '-' then -units else units)

/-- The loop over digits and at most one decimal point. -/
def takeNumber : Bool → Text → Text
  | _, [] => []
  | hasDecimal, c :: s =>
    if c.isDigit then c :: takeNumber hasDecimal s
    else if c = '.' ∧ hasDecimal = false then c :: takeNumber true s
    else []

/-- The number at the front of the text, if there is one. -/
def parseNumericPrefix (s : Text) : Option ℤ :=
  let s := trim s
  let sign := if s.head? = some '-' ∨ s.head? = some '+' then s.take 1 else []
  let number := takeNumber false (s.drop sign.length)
  if number.any Char.isDigit then parseF64 (sign ++ number) else none

example : parseNumericPrefix " -1.5x".toList = some (-(3 * 2 ^ 1073)) := by decide +kernel

/-! ### Sorting -/

structure SortOptions where
  reverse : Bool
  numeric : Bool
  unique : Bool
  ignoreCase : Bool
  keyField : Option ℕ

def splitWhitespace (s : Text) : List Text := (s.splitOnP isWhitespace).filter (· ≠ [])

/-- The field that is compared, the whole line if there is no such field. -/
def getSortKey (line : Text) (opts : SortOptions) : Text :=
  match opts.keyField with
  | some (field + 1) => (splitWhitespace line)[field]?.getD line
  | _ => line

/-- Numbers before other lines, and those in the order of their characters. -/
def compareNumeric (a b : Text) : Ordering :=
  match parseNumericPrefix a, parseNumericPrefix b with
  | some m, some n => compare m n
  | some _, none => .lt
  | none, some _ => .gt
  | none, none => compare a b

section

-- `str::to_lowercase`
variable (toLowercase : Text → Text)

def compareKeys (opts : SortOptions) (a b : Text) : Ordering :=
  if opts.numeric then compareNumeric a b
  else if opts.ignoreCase then compare (toLowercase a) (toLowercase b)
  else compare a b

def compareLines (opts : SortOptions) (a b : Text) : Ordering :=
  let cmp := compareKeys toLowercase opts (getSortKey a opts) (getSortKey b opts)
  if opts.reverse then cmp.swap else cmp

def sortLines (opts : SortOptions) (lines : List Text) : List Text :=
  sortBy (compareLines toLowercase opts) lines

/-- The lines that `sort` prints. -/
def sort (opts : SortOptions) (lines : List Text) : List Text :=
  let lines := sortLines toLowercase opts lines
  if opts.unique then dropRepeats none lines else lines

end

/-! ### The comparison -/

section

variable {toLowercase : Text → Text} {opts : SortOptions} {lines : List Text}

lemma transCmp_text : Std.TransCmp (compare : Text → Text → Ordering) := inferInstance

lemma transCmp_int : Std.TransCmp (compare : ℤ → ℤ → Ordering) := inferInstance

lemma transCmp_compareNumeric : Std.TransCmp compareNumeric where
  eq_swap {a b} := by
    unfold compareNumeric
    cases parseNumericPrefix a <;> cases parseNumericPrefix b
    case none.none => exact transCmp_text.eq_swap
    case some.some => exact transCmp_int.eq_swap
    all_goals rfl
  isLE_trans {a b c} := by
    unfold compareNumeric
    cases parseNumericPrefix a <;> cases parseNumericPrefix b <;> cases parseNumericPrefix c
    case none.none.none => exact transCmp_text.isLE_trans
    case some.some.some => exact transCmp_int.isLE_trans
    all_goals simp

/-- A comparison of what a function makes of the elements. -/
lemma transCmp_comp {α β : Type} {cmp : β → β → Ordering} (h : Std.TransCmp cmp) (f : α → β) :
    Std.TransCmp fun a b => cmp (f a) (f b) where
  eq_swap := h.eq_swap
  isLE_trans := h.isLE_trans

lemma transCmp_swap {α : Type} {cmp : α → α → Ordering} (h : Std.TransCmp cmp) :
    Std.TransCmp fun a b => (cmp a b).swap where
  eq_swap {a b} := congrArg Ordering.swap h.eq_swap
  isLE_trans {a b c} hab hbc := by
    rw [← h.eq_swap] at hab hbc ⊢
    exact h.isLE_trans hbc hab

lemma transCmp_compareKeys : Std.TransCmp (compareKeys toLowercase opts) := by
  unfold compareKeys
  split_ifs
  · exact transCmp_compareNumeric
  · exact transCmp_comp transCmp_text toLowercase
  · exact transCmp_text

/-- The comparison is a total preorder, for every combination of options. -/
instance transCmp_compareLines : Std.TransCmp (compareLines toLowercase opts) := by
  have hkeys : Std.TransCmp (compareKeys toLowercase opts) := transCmp_compareKeys
  have hlines := transCmp_comp hkeys fun line => getSortKey line opts
  unfold compareLines
  split_ifs
  · exact transCmp_swap hlines
  · exact hlines

/-! ### The output -/

/-- The lines are sorted as they should be. With `-u` each of them is printed once. -/
structure SortsLines (toLowercase : Text → Text) (opts : SortOptions) (lines : List Text) :
    Prop where
  preorder : Std.TransCmp (compareLines toLowercase opts)
  sorted : IsStableSort (compareLines toLowercase opts) lines (sortLines toLowercase opts lines)
  all : opts.unique = false → sort toLowercase opts lines = sortLines toLowercase opts lines
  once : opts.unique = true →
    (∀ line, line ∈ sort toLowercase opts lines ↔ line ∈ lines) ∧
      ∀ line ∈ lines, (sort toLowercase opts lines).count line = 1

lemma isStableSort_sortLines : IsStableSort (compareLines toLowercase opts) lines
    (sortLines toLowercase opts lines) := isStableSort_sortBy lines

lemma mem_sort {line : Text} : line ∈ sort toLowercase opts lines ↔ line ∈ lines := by
  rw [sort]
  split_ifs
  · rw [mem_dropRepeats, isStableSort_sortLines.perm.mem_iff]
  · exact isStableSort_sortLines.perm.mem_iff

/-- A line is printed twice where it comes back among lines that compare equal. -/
lemma nodup_sort (hunique : opts.unique = true) :
    (sort toLowercase opts lines).Nodup ↔
      ∀ a b, a ≠ b → compareLines toLowercase opts a b = .eq → ¬ [a, b, a].Sublist lines := by
  rw [sort, if_pos hunique, nodup_dropRepeats, isStableSort_sortLines.noReturn_iff]

lemma SortsLines.nodup (h : SortsLines toLowercase opts lines) (hunique : opts.unique = true) :
    (sort toLowercase opts lines).Nodup := by
  rw [List.nodup_iff_count_eq_one]
  exact fun line hline => (h.once hunique).2 line (mem_sort.mp hline)

/-- `-u` prints each line once if, and only if, no line comes back behind another one that compares
equal to it. -/
theorem sortsLines_iff :
    SortsLines toLowercase opts lines ↔
      (opts.unique = true → ∀ a b, a ≠ b → compareLines toLowercase opts a b = .eq →
        ¬ [a, b, a].Sublist lines) := by
  constructor
  · exact fun h hunique => (nodup_sort hunique).mp (h.nodup hunique)
  · intro h
    refine ⟨transCmp_compareLines, isStableSort_sortLines, fun hunique => ?_,
      fun hunique => ⟨fun line => mem_sort, fun line hline => ?_⟩⟩
    · rw [sort, hunique]
      rfl
    · exact List.count_eq_one_of_mem ((nodup_sort hunique).mpr (h hunique)) (mem_sort.mpr hline)

end

/-- With `-u -f` a line is printed twice that has another spelling between. -/
theorem not_sortsLines_fold :
    ¬ ∀ (toLowercase : Text → Text) (opts : SortOptions) (lines : List Text),
      SortsLines toLowercase opts lines := by
  intro h
  have hnodup := (h (List.map Char.toLower) ⟨false, false, true, true, none⟩
    ["a".toList, "A".toList, "a".toList]).nodup rfl
  exact (nodup_sort rfl).mp hnodup "a".toList "A".toList (by decide) (by decide)
    (List.Sublist.refl _)

end AmlaSandbox.Commands
