import AmlaSandbox.Library.SortedMap
import Mathlib.Order.Lattice
import Mathlib.Tactic.Common
import Mathlib.Tactic.Ring

/-!
# JSON values

The part of `serde_json` that the constraint system evaluates against: `Number`, `Value`, their
`==`, and `Value::pointer`. An object keeps its entries in the order of their keys, as the bytes of
UTF-8 compare, in whichever order they were inserted.

A JSON number is never an infinity or a NaN, so its float payload is a finite `f64`. Every finite
`f64` is an integer multiple of `2 ^ (-1074)`, the least subnormal, and `F64` keeps that integer.
The two zeros are one value here: `==` and `<` do not tell them apart.
-/

namespace AmlaSandbox.Json

/-! ## Finite binary64 numbers -/

/-- A finite `f64` is an integer multiple of `2 ^ (-ulpExponent)`. -/
def ulpExponent : Nat := 1074

/-- `k * 2 ^ (-1074)` is a finite `f64`: at most 53 significant bits and below `2 ^ 1024`. -/
def IsFinite (k : Int) : Prop :=
  ∃ e < 2046, 2 ^ e ∣ k.natAbs ∧ k.natAbs < 2 ^ (53 + e)

/-- A finite `f64`, in units of `2 ^ (-1074)`. -/
structure F64 where
  units : Int
  finite : IsFinite units

namespace F64

lemma units_injective : Function.Injective F64.units := by
  rintro ⟨a, _⟩ ⟨b, _⟩ h
  simpa using h

instance : DecidableEq F64 := fun a b =>
  decidable_of_iff (a.units = b.units) units_injective.eq_iff

instance : LinearOrder F64 where
  le a b := a.units ≤ b.units
  lt a b := a.units < b.units
  le_refl a := le_refl a.units
  le_trans a b c := le_trans (a := a.units) (b := b.units) (c := c.units)
  lt_iff_le_not_ge a b := lt_iff_le_not_ge (a := a.units) (b := b.units)
  le_antisymm a b h h' := units_injective (le_antisymm h h')
  le_total a b := le_total a.units b.units
  toDecidableLE a b := inferInstanceAs (Decidable (a.units ≤ b.units))
  toDecidableLT a b := inferInstanceAs (Decidable (a.units < b.units))

end F64

/-- The 53-bit significand of `n as f64`, rounded to nearest with ties to even. -/
def roundedSignificand (n : Nat) : Nat :=
  let s := n.log2 - 52
  let q := n / 2 ^ s
  let r := n % 2 ^ s
  if 2 ^ s < 2 * r ∨ (2 ^ s = 2 * r ∧ q % 2 = 1) then q + 1 else q

/-- The value of `n as f64` for an unsigned integer `n`. -/
def roundToF64 (n : Nat) : Nat := roundedSignificand n * 2 ^ (n.log2 - 52)

lemma roundedSignificand_le (n : Nat) : roundedSignificand n ≤ 2 ^ 53 := by
  have hq : n / 2 ^ (n.log2 - 52) < 2 ^ 53 := by
    rw [Nat.div_lt_iff_lt_mul (Nat.two_pow_pos _), ← pow_add]
    exact lt_of_lt_of_le Nat.lt_log2_self (Nat.pow_le_pow_right (by decide) (by omega))
  simp only [roundedSignificand]
  split_ifs <;> omega

lemma isFinite_mul_two_pow {m e : Nat} (hm : m ≤ 2 ^ 53) (he : e + 1 < 2046) :
    IsFinite (m * 2 ^ e : Nat) := by
  simp only [IsFinite]
  rw [Int.natAbs_natCast]
  rcases hm.lt_or_eq with hlt | rfl
  · refine ⟨e, by omega, Dvd.intro_left _ rfl, ?_⟩
    rw [pow_add 2 53]
    exact Nat.mul_lt_mul_of_pos_right hlt (Nat.two_pow_pos _)
  · -- a carry out of the significand: one more power of two
    refine ⟨e + 1, he, ?_, ?_⟩
    · rw [← pow_add]
      exact pow_dvd_pow 2 (by omega)
    · rw [← pow_add]
      exact Nat.pow_lt_pow_right (by decide) (by omega)

lemma isFinite_roundToF64 {n : Nat} (h : n < 2 ^ 64) :
    IsFinite (roundToF64 n * 2 ^ ulpExponent : Nat) := by
  have hs : n.log2 - 52 ≤ 11 := by
    by_cases h0 : n = 0
    · simp [h0]
    · have := (Nat.log2_lt h0).mpr h
      omega
  rw [roundToF64, mul_assoc, ← pow_add]
  exact isFinite_mul_two_pow (roundedSignificand_le n) (by unfold ulpExponent; omega)

lemma isFinite_neg {k : Int} (h : IsFinite k) : IsFinite (-k) := by
  simpa [IsFinite] using h

/-- `n as f64` for a `u64`. -/
def F64.ofU64 (n : UInt64) : F64 :=
  ⟨(roundToF64 n.toNat * 2 ^ ulpExponent : Nat), isFinite_roundToF64 n.toNat_lt⟩

/-- `n as f64` for an `i64`: the magnitude is rounded and the sign kept. -/
def F64.ofI64 (n : Int64) : F64 :=
  have h : n.toInt.natAbs < 2 ^ 64 := by
    have := n.le_toInt
    have := n.toInt_lt
    omega
  let k : Nat := roundToF64 n.toInt.natAbs * 2 ^ ulpExponent
  if 0 ≤ n.toInt then ⟨k, isFinite_roundToF64 h⟩ else ⟨-k, isFinite_neg (isFinite_roundToF64 h)⟩

/-! ## Values and pointers -/

/-- `serde_json::Number`: `negInt` only holds negative integers. -/
inductive Number
  | posInt (n : UInt64)
  | negInt (n : Int64)
  | float (x : F64)
deriving DecidableEq

/-- `Number::as_f64`, which is never `None` without arbitrary precision. -/
def Number.asF64 : Number → F64
  | .posInt n => F64.ofU64 n
  | .negInt n => F64.ofI64 n
  | .float x => x

/-- `serde_json::Value`; an object lists its entries in key order, one for each key. -/
inductive Value
  | null
  | bool (b : Bool)
  | number (n : Number)
  | string (s : String)
  | array (list : List Value)
  | object (map : List (String × Value))

mutual
/-- `==` on values. -/
def Value.decEq : (a b : Value) → Decidable (a = b)
  | .null, .null => isTrue rfl
  | .bool a, .bool b => decidable_of_iff (a = b) (by simp)
  | .number a, .number b => decidable_of_iff (a = b) (by simp)
  | .string a, .string b => decidable_of_iff (a = b) (by simp)
  | .array a, .array b =>
    match Value.decEqList a b with
    | isTrue h => isTrue (h ▸ rfl)
    | isFalse h => isFalse fun e => h (Value.array.inj e)
  | .object a, .object b =>
    match Value.decEqMap a b with
    | isTrue h => isTrue (h ▸ rfl)
    | isFalse h => isFalse fun e => h (Value.object.inj e)
  | .null, .bool _ | .null, .number _ | .null, .string _ | .null, .array _ | .null, .object _
  | .bool _, .null | .bool _, .number _ | .bool _, .string _ | .bool _, .array _
  | .bool _, .object _ | .number _, .null | .number _, .bool _ | .number _, .string _
  | .number _, .array _ | .number _, .object _ | .string _, .null | .string _, .bool _
  | .string _, .number _ | .string _, .array _ | .string _, .object _ | .array _, .null
  | .array _, .bool _ | .array _, .number _ | .array _, .string _ | .array _, .object _
  | .object _, .null | .object _, .bool _ | .object _, .number _ | .object _, .string _
  | .object _, .array _ => isFalse (by simp)

def Value.decEqList : (a b : List Value) → Decidable (a = b)
  | [], [] => isTrue rfl
  | [], _ :: _ | _ :: _, [] => isFalse (by simp)
  | a :: as, b :: bs =>
    match Value.decEq a b, Value.decEqList as bs with
    | isTrue h, isTrue h' => isTrue (h ▸ h' ▸ rfl)
    | isFalse h, _ => isFalse fun e => h (List.cons.inj e).1
    | _, isFalse h => isFalse fun e => h (List.cons.inj e).2

def Value.decEqMap : (a b : List (String × Value)) → Decidable (a = b)
  | [], [] => isTrue rfl
  | [], _ :: _ | _ :: _, [] => isFalse (by simp)
  | (k, a) :: as, (l, b) :: bs =>
    match String.decEq k l, Value.decEq a b, Value.decEqMap as bs with
    | isTrue h, isTrue h', isTrue h'' => isTrue (h ▸ h' ▸ h'' ▸ rfl)
    | isFalse h, _, _ => isFalse fun e => h (Prod.ext_iff.mp (List.cons.inj e).1).1
    | _, isFalse h, _ => isFalse fun e => h (Prod.ext_iff.mp (List.cons.inj e).1).2
    | _, _, isFalse h => isFalse fun e => h (List.cons.inj e).2
end

instance : DecidableEq Value := Value.decEq

/-- `Value::as_str`. -/
def Value.asStr : Value → Option String
  | .string s => some s
  | _ => none

/-! ### Pointers -/

/-- `str::split` at a character. -/
def splitOn (sep : Char) : List Char → List (List Char)
  | [] => [[]]
  | c :: cs =>
    if c = sep then [] :: splitOn sep cs
    else match splitOn sep cs with
      | [] => [[c]]
      | w :: ws => (c :: w) :: ws

/-- `str::replace` of the two characters `a b` by `r`. -/
def replacePair (a b r : Char) : List Char → List Char
  | [] => []
  | [c] => [c]
  | c :: d :: cs => if c = a ∧ d = b then r :: replacePair a b r cs
    else c :: replacePair a b r (d :: cs)

/-- The value of a decimal digit string that fits a `usize`. -/
def parseUsize (s : List Char) : Option Nat :=
  if s ≠ [] ∧ s.all Char.isDigit then
    let n := s.foldl (fun n c => 10 * n + (c.toNat - '0'.toNat)) 0
    if n < 2 ^ 64 then some n else none
  else none

/-- `parse_index`: no sign and no leading zero. -/
def parseIndex (s : List Char) : Option Nat :=
  if s.head? = some '+' ∨ (s.head? = some '0' ∧ s.length ≠ 1) then none else parseUsize s

/-- One reference token of a pointer, unescaped. -/
def unescape (token : List Char) : List Char :=
  replacePair '~' '0' '~' (replacePair '~' '1' '/' token)

/-- The step that `Value::pointer` folds over the tokens. -/
def Value.child (target : Value) (token : List Char) : Option Value :=
  match target with
  | .object map => map.lookup (String.ofList token)
  | .array list => (parseIndex token).bind (list[·]?)
  | _ => none

/-- `Value::pointer`. -/
def Value.pointer (v : Value) (pointer : String) : Option Value :=
  match pointer.toList with
  | [] => some v
  | c :: cs =>
    if c = '/' then ((splitOn '/' (c :: cs)).tail.map unescape).foldlM Value.child v else none

example : (Value.object [("a/b", .array [.null, .bool true])]).pointer "/a~1b/1"
    = some (.bool true) := by decide

/-! ## Keys in order -/

open Library

/-- The bytes of a string, by which strings are compared. -/
def keyBytes (key : String) : List ℕ := key.toByteArray.data.toList.map UInt8.toNat

lemma keyBytes_injective : Function.Injective keyBytes := by
  intro key key' h
  have hbytes : key.toByteArray.data.toList = key'.toByteArray.data.toList :=
    List.map_injective_iff.mpr (fun _ _ => UInt8.toNat_inj.mp) h
  exact String.toByteArray_inj.mp (ByteArray.ext (Array.toList_inj.mp hbytes))

/-- Only negative integers are `negInt`. -/
def Number.WellFormed : Number → Prop
  | .posInt _ | .float _ => True
  | .negInt n => n.toInt < 0

mutual
/-- What `serde_json` can hold: every object lists its entries in key order. -/
def Value.WellFormed : Value → Prop
  | .null | .bool _ | .string _ => True
  | .number n => n.WellFormed
  | .array list => WellFormedList list
  | .object map => InKeyOrder keyBytes map ∧ WellFormedMap map

def Value.WellFormedList : List Value → Prop
  | [] => True
  | v :: list => v.WellFormed ∧ WellFormedList list

def Value.WellFormedMap : List (String × Value) → Prop
  | [] => True
  | (_, v) :: map => v.WellFormed ∧ WellFormedMap map
end

end AmlaSandbox.Json
