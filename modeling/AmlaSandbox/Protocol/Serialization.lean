import AmlaSandbox.Json.Rounding
import AmlaSandbox.Json.Value
import AmlaSandbox.Library.SortedMap
import AmlaSandbox.Protocol.Types

/-!
# JSON and CBOR values

The conversions between JSON values and the values of CBOR, which has integers of one kind, bytes,
tags, floats that are not finite, and keys that are not strings.
-/

namespace AmlaSandbox.Protocol

open Json Library

/-- An `f64`. -/
inductive CborFloat
  | finite (x : F64)
  | infinite (negative : Bool)
  | nan

/-- `ciborium::Value`. -/
inductive CborValue
  | null
  | bool (b : Bool)
  | integer (i : ℤ)
  | float (f : CborFloat)
  | text (s : String)
  | bytes (bytes : Bytes)
  | array (list : List CborValue)
  | map (entries : List (CborValue × CborValue))
  | tag (tag : UInt64) (inner : CborValue)

/-! ### From JSON -/

/-- `Number::as_i64`. -/
def asI64 : Number → Option ℤ
  | .posInt n => if n.toNat < 2 ^ 63 then some n.toNat else none
  | .negInt n => some n.toInt
  | .float _ => none

/-- `Number::as_u64`. -/
def asU64 : Number → Option ℤ
  | .posInt n => some n.toNat
  | .negInt _ | .float _ => none

def numberToCbor (n : Number) : CborValue :=
  match asI64 n with
  | some i => .integer i
  | none =>
    match asU64 n with
    | some u => .integer u
    | none => .float (.finite n.asF64)

mutual
def jsonToCborValue : Value → CborValue
  | .null => .null
  | .bool b => .bool b
  | .number n => numberToCbor n
  | .string s => .text s
  | .array list => .array (jsonToCborList list)
  | .object map => .map (jsonToCborEntries map)

def jsonToCborList : List Value → List CborValue
  | [] => []
  | v :: list => jsonToCborValue v :: jsonToCborList list

def jsonToCborEntries : List (String × Value) → List (CborValue × CborValue)
  | [] => []
  | (k, v) :: map => (.text k, jsonToCborValue v) :: jsonToCborEntries map
end

/-! ### To JSON -/

/-- An integer beyond 64 bits becomes the text that `{:?}` shows. -/
def integerToJson (i : ℤ) : Value :=
  if -2 ^ 63 ≤ i ∧ i < 2 ^ 63 then .number (.ofInt i)
  else if 0 ≤ i ∧ i < 2 ^ 64 then .number (.ofInt i)
  else .string ("Integer(" ++ toString i ++ ")")

def floatToJson : CborFloat → Value
  | .finite x => .number (.float x)
  | .infinite _ | .nan => .null

mutual
def cborToJsonValue : CborValue → Value
  | .null => .null
  | .bool b => .bool b
  | .integer i => integerToJson i
  | .float f => floatToJson f
  | .text s => .string s
  | .bytes bytes => .string (hexEncode bytes)
  | .array list => .array (cborToJsonList list)
  | .map entries => .object (collectEntries keyBytes (cborToJsonEntries entries))
  | .tag _ inner => cborToJsonValue inner

def cborToJsonList : List CborValue → List Value
  | [] => []
  | v :: list => cborToJsonValue v :: cborToJsonList list

/-- Entries whose keys are not strings are left out. -/
def cborToJsonEntries : List (CborValue × CborValue) → List (String × Value)
  | [] => []
  | (.text k, v) :: entries => (k, cborToJsonValue v) :: cborToJsonEntries entries
  | _ :: entries => cborToJsonEntries entries
end

/-! ### There and back -/

lemma integerToJson_of_inRange {i : ℤ} (h : InRange i) : integerToJson i = .number (.ofInt i) := by
  obtain ⟨hlow, hhigh⟩ := h
  rw [integerToJson]
  split_ifs with hi hu
  · rfl
  · rfl
  · omega

lemma ofInt_toNat (n : UInt64) : Number.ofInt n.toNat = .posInt n := by
  rw [Number.ofInt, if_pos (Int.natCast_nonneg _), Int.toNat_natCast, UInt64.ofNat_toNat]

lemma cborToJson_number {n : Number} (h : n.WellFormed) :
    cborToJsonValue (numberToCbor n) = .number n := by
  cases n with
  | posInt n =>
    have hinteger : numberToCbor (.posInt n) = .integer n.toNat := by
      simp only [numberToCbor, asI64, asU64]
      split_ifs <;> rfl
    have hrange : InRange n.toNat := ⟨by omega, by have := n.toNat_lt; omega⟩
    rw [hinteger, cborToJsonValue, integerToJson_of_inRange hrange, ofInt_toNat]
  | negInt n =>
    have hneg : n.toInt < 0 := h
    have hrange : InRange n.toInt := ⟨n.le_toInt, by omega⟩
    rw [numberToCbor, asI64, cborToJsonValue, integerToJson_of_inRange hrange, Number.ofInt,
      if_neg (by omega), Int64.ofInt_toInt]
  | float x => rfl

mutual
lemma cborToJson_jsonToCbor : (j : Value) → j.WellFormed →
    cborToJsonValue (jsonToCborValue j) = j
  | .null, _ | .bool _, _ | .string _, _ => rfl
  | .number n, h => cborToJson_number h
  | .array list, h => by
    rw [jsonToCborValue, cborToJsonValue, cborToJson_list list h]
  | .object map, ⟨horder, h⟩ => by
    rw [jsonToCborValue, cborToJsonValue, cborToJson_entries map h, horder.collect_eq]

lemma cborToJson_list : (list : List Value) → Value.WellFormedList list →
    cborToJsonList (jsonToCborList list) = list
  | [], _ => rfl
  | v :: list, ⟨hv, hlist⟩ => by
    rw [jsonToCborList, cborToJsonList, cborToJson_jsonToCbor v hv, cborToJson_list list hlist]

lemma cborToJson_entries : (map : List (String × Value)) → Value.WellFormedMap map →
    cborToJsonEntries (jsonToCborEntries map) = map
  | [], _ => rfl
  | (k, v) :: map, ⟨hv, hmap⟩ => by
    rw [jsonToCborEntries, cborToJsonEntries, cborToJson_jsonToCbor v hv,
      cborToJson_entries map hmap]
end

/-- A JSON value that is converted to CBOR and back is the same value. -/
theorem jsonToCbor_roundTrip (j : Value) (h : j.WellFormed) :
    cborToJsonValue (jsonToCborValue j) = j :=
  cborToJson_jsonToCbor j h

/-- The integers at the ends of the ranges, in an object. -/
theorem jsonToCbor_roundTrip_limits :
    cborToJsonValue (jsonToCborValue (.object [("a", .array [.number (.negInt Int64.minValue)]),
      ("b", .number (.posInt 9223372036854775808)),
      ("c", .number (.posInt 18446744073709551615))])) =
    .object [("a", .array [.number (.negInt Int64.minValue)]),
      ("b", .number (.posInt 9223372036854775808)),
      ("c", .number (.posInt 18446744073709551615))] :=
  jsonToCbor_roundTrip _ ⟨by decide +kernel,
    ⟨show Int64.minValue.toInt < 0 by decide +kernel, trivial⟩, trivial, trivial, trivial⟩

end AmlaSandbox.Protocol
