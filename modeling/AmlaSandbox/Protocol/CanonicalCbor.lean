import AmlaSandbox.Protocol.Serialization

/-!
# Canonical CBOR

The bytes of a CBOR value, with the entries of a map in the order in which they are given. The
entries of an object are given in bytewise order of their keys, which is the canonical order of the
encoded keys unless a key comes before a shorter one.
-/

namespace AmlaSandbox.Protocol

open Json Library

/-! ### Bytes -/

def bigEndian (size n : ℕ) : Bytes :=
  (List.range size).reverse.map fun i => UInt8.ofNat (n / 256 ^ i)

/-- The head of an item: its major type and the shortest form of an argument. -/
def header (major arg : ℕ) : Bytes :=
  let first := fun low => UInt8.ofNat (32 * major + low)
  if arg < 24 then [first arg]
  else if arg < 2 ^ 8 then first 24 :: bigEndian 1 arg
  else if arg < 2 ^ 16 then first 25 :: bigEndian 2 arg
  else if arg < 2 ^ 32 then first 26 :: bigEndian 4 arg
  else first 27 :: bigEndian 8 arg

def utf8 (s : String) : Bytes := s.toByteArray.data.toList

section Encode

/- How a float is written, which depends on its precision. -/
variable (floatBytes : CborFloat → Bytes)

mutual
/-- `ciborium::into_writer`. -/
def CborValue.encode : CborValue → Bytes
  | .null => [0xf6]
  | .bool b => [if b then 0xf5 else 0xf4]
  | .integer i => if 0 ≤ i then header 0 i.toNat else header 1 (-1 - i).toNat
  | .float f => floatBytes f
  | .text s => header 3 (utf8 s).length ++ utf8 s
  | .bytes data => header 2 data.length ++ data
  | .array list => header 4 list.length ++ encodeList list
  | .map entries => header 5 entries.length ++ encodeEntries entries
  | .tag t inner => header 6 t.toNat ++ inner.encode

def CborValue.encodeList : List CborValue → Bytes
  | [] => []
  | v :: list => v.encode ++ encodeList list

def CborValue.encodeEntries : List (CborValue × CborValue) → Bytes
  | [] => []
  | (k, v) :: entries => k.encode ++ v.encode ++ encodeEntries entries
end

/-- The encoding of a JSON value, which is written as the CBOR value that it converts to. -/
def encodeJson (j : Value) : Bytes := (jsonToCborValue j).encode floatBytes

/-! ### Canonical order -/

/-- Encoded keys are compared by length first, then bytewise. -/
def KeyBefore (a b : Bytes) : Prop :=
  a.length < b.length ∨ a.length = b.length ∧ a.map UInt8.toNat < b.map UInt8.toNat

mutual
/-- The entries of every map are in the canonical order of their encoded keys. -/
def CborValue.Canonical : CborValue → Prop
  | .null | .bool _ | .integer _ | .float _ | .text _ | .bytes _ => True
  | .array list => CanonicalList list
  | .map entries =>
    entries.Pairwise (fun e e' => KeyBefore (e.1.encode floatBytes) (e'.1.encode floatBytes)) ∧
      CanonicalEntries entries
  | .tag _ inner => inner.Canonical

def CborValue.CanonicalList : List CborValue → Prop
  | [] => True
  | v :: list => v.Canonical ∧ CanonicalList list

def CborValue.CanonicalEntries : List (CborValue × CborValue) → Prop
  | [] => True
  | (k, v) :: entries => k.Canonical ∧ v.Canonical ∧ CanonicalEntries entries
end

end Encode

/-! ### Order of texts -/

/-- Texts in bytewise order. -/
def CborValue.TextBefore : CborValue → CborValue → Prop
  | .text key, .text key' => keyBytes key < keyBytes key'
  | _, _ => False

mutual
/-- The entries of every map are in the bytewise order of their keys, which are texts. -/
def CborValue.InTextOrder : CborValue → Prop
  | .null | .bool _ | .integer _ | .float _ | .text _ | .bytes _ => True
  | .array list => InTextOrderList list
  | .map entries => entries.Pairwise (fun e e' => e.1.TextBefore e'.1) ∧ InTextOrderEntries entries
  | .tag _ inner => inner.InTextOrder

def CborValue.InTextOrderList : List CborValue → Prop
  | [] => True
  | v :: list => v.InTextOrder ∧ InTextOrderList list

def CborValue.InTextOrderEntries : List (CborValue × CborValue) → Prop
  | [] => True
  | (k, v) :: entries => k.InTextOrder ∧ v.InTextOrder ∧ InTextOrderEntries entries
end

/-! ### Values from insertions -/

mutual
/-- The value that is stored when the entries of objects are inserted in the order given. -/
def stored : Value → Value
  | .null => .null
  | .bool b => .bool b
  | .number n => .number n
  | .string s => .string s
  | .array list => .array (storedList list)
  | .object map => .object (collectEntries keyBytes (storedMap map))

def storedList : List Value → List Value
  | [] => []
  | v :: list => stored v :: storedList list

def storedMap : List (String × Value) → List (String × Value)
  | [] => []
  | (k, v) :: map => (k, stored v) :: storedMap map
end

mutual
/-- Values that are equal as maps: objects have the same entries, in any order. -/
inductive SameValue : Value → Value → Prop
  | null : SameValue .null .null
  | bool (b : Bool) : SameValue (.bool b) (.bool b)
  | number (n : Number) : SameValue (.number n) (.number n)
  | string (s : String) : SameValue (.string s) (.string s)
  | array {list list' : List Value} : SameList list list' → SameValue (.array list) (.array list')
  | object {map map' map'' : List (String × Value)} : (map.map Prod.fst).Nodup →
    map.Perm map' → SameMap map' map'' → SameValue (.object map) (.object map'')

inductive SameList : List Value → List Value → Prop
  | nil : SameList [] []
  | cons {v v' : Value} {list list' : List Value} : SameValue v v' → SameList list list' →
    SameList (v :: list) (v' :: list')

inductive SameMap : List (String × Value) → List (String × Value) → Prop
  | nil : SameMap [] []
  | cons {v v' : Value} {map map' : List (String × Value)} (k : String) : SameValue v v' →
    SameMap map map' → SameMap ((k, v) :: map) ((k, v') :: map')
end

mutual
/-- No object has a key that comes before a shorter one. -/
def KeysByLength : Value → Prop
  | .null | .bool _ | .number _ | .string _ => True
  | .array list => KeysByLengthList list
  | .object map =>
    map.Pairwise (fun e e' => (keyBytes e.1).length ≤ (keyBytes e'.1).length) ∧
      KeysByLengthMap map

def KeysByLengthList : List Value → Prop
  | [] => True
  | v :: list => KeysByLength v ∧ KeysByLengthList list

def KeysByLengthMap : List (String × Value) → Prop
  | [] => True
  | (_, v) :: map => KeysByLength v ∧ KeysByLengthMap map
end

/-- What is stored is encoded in canonical order, and as any value is that is equal as a map. -/
structure EncodesCanonically (floatBytes : CborFloat → Bytes) (j : Value) : Prop where
  ordered : (jsonToCborValue (stored j)).Canonical floatBytes
  same : ∀ j', SameValue j j' →
    encodeJson floatBytes (stored j') = encodeJson floatBytes (stored j)

/-- What is stored is encoded in bytewise order of the keys, as any value is that is equal as a map.
This is the canonical order for keys that do not come before shorter ones. -/
structure EncodesInTextOrder (floatBytes : CborFloat → Bytes) (j : Value) : Prop where
  ordered : (jsonToCborValue (stored j)).InTextOrder
  canonical : (jsonToCborValue (stored j)).Canonical floatBytes ↔ KeysByLength (stored j)
  same : ∀ j', SameValue j j' →
    encodeJson floatBytes (stored j') = encodeJson floatBytes (stored j)

/-! ### Equal values -/

lemma storedMap_eq_map (map : List (String × Value)) :
    storedMap map = map.map fun e => (e.1, stored e.2) := by
  induction map with
  | nil => rfl
  | cons e map ih =>
    rw [storedMap, ih]
    rfl

lemma storedMap_perm {map map' : List (String × Value)} (h : map.Perm map') :
    (storedMap map).Perm (storedMap map') := by
  rw [storedMap_eq_map, storedMap_eq_map]
  exact h.map _

lemma nodup_storedMap {map : List (String × Value)} (h : (map.map Prod.fst).Nodup) :
    ((storedMap map).map fun e => keyBytes e.1).Nodup := by
  rw [storedMap_eq_map, List.map_map]
  have hcompose : ((fun e => keyBytes e.1) ∘ fun e => (e.1, stored e.2)) =
      keyBytes ∘ (Prod.fst : String × Value → String) := rfl
  rw [hcompose, ← List.map_map]
  exact h.map keyBytes_injective

mutual
lemma SameValue.stored_eq : {j j' : Value} → SameValue j j' → stored j = stored j'
  | _, _, .null | _, _, .bool _ | _, _, .number _ | _, _, .string _ => rfl
  | _, _, .array h => by rw [stored, stored, h.stored_eq]
  | _, _, .object hnodup hperm h => by
    rw [stored, stored, collect_eq_of_perm (storedMap_perm hperm) (nodup_storedMap hnodup),
      h.stored_eq]

lemma SameList.stored_eq : {list list' : List Value} → SameList list list' →
    storedList list = storedList list'
  | _, _, .nil => rfl
  | _, _, .cons hv h => by rw [storedList, storedList, hv.stored_eq, h.stored_eq]

lemma SameMap.stored_eq : {map map' : List (String × Value)} → SameMap map map' →
    storedMap map = storedMap map'
  | _, _, .nil => rfl
  | _, _, .cons k hv h => by rw [storedMap, storedMap, hv.stored_eq, h.stored_eq]
end

/-! ### Orders of keys -/

section Order

variable {floatBytes : CborFloat → Bytes}

lemma length_header (major arg : ℕ) : (header major arg).length =
    if arg < 24 then 1 else if arg < 2 ^ 8 then 2 else if arg < 2 ^ 16 then 3
    else if arg < 2 ^ 32 then 5 else 9 := by
  rw [header]
  split_ifs <;> rfl

/-- A longer argument does not have a shorter head. -/
lemma length_header_mono (major : ℕ) {n m : ℕ} (h : n ≤ m) :
    (header major n).length ≤ (header major m).length := by
  rw [length_header, length_header]
  split_ifs <;> omega

lemma length_keyBytes (key : String) : (keyBytes key).length = (utf8 key).length :=
  List.length_map _

/-- Keys in bytewise order are in canonical order unless the later one is shorter. -/
lemma keyBefore_text_iff {key key' : String} (h : keyBytes key < keyBytes key') :
    KeyBefore ((CborValue.text key).encode floatBytes) ((CborValue.text key').encode floatBytes) ↔
      (keyBytes key).length ≤ (keyBytes key').length := by
  simp only [CborValue.encode, KeyBefore, List.length_append, length_keyBytes]
  rcases Nat.lt_trichotomy (utf8 key).length (utf8 key').length with hlt | heq | hgt
  · have hmono := length_header_mono 3 hlt.le
    exact iff_of_true (.inl (by omega)) hlt.le
  · rw [heq, List.map_append, List.map_append]
    exact iff_of_true (.inr ⟨rfl, List.append_left_lt h⟩) le_rfl
  · have hgt' : (utf8 key').length < (utf8 key).length := hgt
    have hmono := length_header_mono 3 hgt'.le
    exact iff_of_false (by omega) (by omega)

lemma jsonToCborEntries_eq_map (map : List (String × Value)) :
    jsonToCborEntries map = map.map fun e => (.text e.1, jsonToCborValue e.2) := by
  induction map with
  | nil => rfl
  | cons e map ih =>
    rw [jsonToCborEntries, ih]
    rfl

lemma canonicalEntries_iff (map : List (String × Value)) :
    CborValue.CanonicalEntries floatBytes (jsonToCborEntries map) ↔
      ∀ e ∈ map, (jsonToCborValue e.2).Canonical floatBytes := by
  induction map with
  | nil => simp [jsonToCborEntries, CborValue.CanonicalEntries]
  | cons e map ih =>
    rw [jsonToCborEntries, CborValue.CanonicalEntries, ih, List.forall_mem_cons]
    simp [CborValue.Canonical]

lemma inTextOrderEntries_iff (map : List (String × Value)) :
    CborValue.InTextOrderEntries (jsonToCborEntries map) ↔
      ∀ e ∈ map, (jsonToCborValue e.2).InTextOrder := by
  induction map with
  | nil => simp [jsonToCborEntries, CborValue.InTextOrderEntries]
  | cons e map ih =>
    rw [jsonToCborEntries, CborValue.InTextOrderEntries, ih, List.forall_mem_cons]
    simp [CborValue.InTextOrder]

lemma keysByLengthMap_iff (map : List (String × Value)) :
    KeysByLengthMap map ↔ ∀ e ∈ map, KeysByLength e.2 := by
  induction map with
  | nil => simp [KeysByLengthMap]
  | cons e map ih => rw [KeysByLengthMap, ih, List.forall_mem_cons]

/-- The entries of one object. -/
lemma pairwise_keyBefore_iff {map : List (String × Value)} (h : InKeyOrder keyBytes map) :
    (jsonToCborEntries map).Pairwise
        (fun e e' => KeyBefore (e.1.encode floatBytes) (e'.1.encode floatBytes)) ↔
      map.Pairwise fun e e' => (keyBytes e.1).length ≤ (keyBytes e'.1).length := by
  rw [jsonToCborEntries_eq_map, List.pairwise_map]
  constructor
  · intro hbefore
    exact (hbefore.and h).imp fun hpair => (keyBefore_text_iff hpair.2).mp hpair.1
  · intro hlength
    exact (hlength.and h).imp fun hpair => (keyBefore_text_iff hpair.2).mpr hpair.1

lemma pairwise_textBefore {map : List (String × Value)} (h : InKeyOrder keyBytes map) :
    (jsonToCborEntries map).Pairwise fun e e' => e.1.TextBefore e'.1 := by
  rw [jsonToCborEntries_eq_map, List.pairwise_map]
  exact h

mutual
lemma inTextOrder_stored : (j : Value) → (jsonToCborValue (stored j)).InTextOrder
  | .null | .bool _ | .string _ => trivial
  | .number n => by
    simp only [stored, jsonToCborValue, numberToCbor]
    split
    · trivial
    · split <;> trivial
  | .array list => inTextOrder_storedList list
  | .object map => by
    rw [stored, jsonToCborValue, CborValue.InTextOrder, inTextOrderEntries_iff]
    exact ⟨pairwise_textBefore inKeyOrder_collect,
      fun e he => inTextOrder_storedMap map e (mem_of_mem_collect he)⟩

lemma inTextOrder_storedList : (list : List Value) →
    CborValue.InTextOrderList (jsonToCborList (storedList list))
  | [] => trivial
  | j :: list => ⟨inTextOrder_stored j, inTextOrder_storedList list⟩

lemma inTextOrder_storedMap : (map : List (String × Value)) → ∀ e ∈ storedMap map,
    (jsonToCborValue e.2).InTextOrder
  | [], _, he => absurd he List.not_mem_nil
  | (k, j) :: map, e, he => by
    rcases List.mem_cons.mp he with rfl | he
    · exact inTextOrder_stored j
    · exact inTextOrder_storedMap map e he
end

mutual
lemma canonical_stored_iff : (j : Value) →
    ((jsonToCborValue (stored j)).Canonical floatBytes ↔ KeysByLength (stored j))
  | .null | .bool _ | .string _ => Iff.rfl
  | .number n => by
    simp only [stored, jsonToCborValue, numberToCbor, KeysByLength, iff_true]
    split
    · trivial
    · split <;> trivial
  | .array list => canonical_storedList_iff list
  | .object map => by
    have hmem : ∀ e ∈ collectEntries keyBytes (storedMap map),
        ((jsonToCborValue e.2).Canonical floatBytes ↔ KeysByLength e.2) := fun e he =>
      canonical_storedMap_iff map e (mem_of_mem_collect he)
    rw [stored, jsonToCborValue, CborValue.Canonical, KeysByLength,
      pairwise_keyBefore_iff inKeyOrder_collect, canonicalEntries_iff, keysByLengthMap_iff]
    exact and_congr_right fun _ => forall₂_congr hmem

lemma canonical_storedList_iff : (list : List Value) →
    (CborValue.CanonicalList floatBytes (jsonToCborList (storedList list)) ↔
      KeysByLengthList (storedList list))
  | [] => Iff.rfl
  | j :: list => and_congr (canonical_stored_iff j) (canonical_storedList_iff list)

lemma canonical_storedMap_iff : (map : List (String × Value)) → ∀ e ∈ storedMap map,
    ((jsonToCborValue e.2).Canonical floatBytes ↔ KeysByLength e.2)
  | [], _, he => absurd he List.not_mem_nil
  | (k, j) :: map, e, he => by
    rcases List.mem_cons.mp he with rfl | he
    · exact canonical_stored_iff j
    · exact canonical_storedMap_iff map e he
end

/-- A value is encoded canonically exactly if no object has a key that comes before a shorter
one. -/
theorem encodesCanonically_iff (floatBytes : CborFloat → Bytes) (j : Value) :
    EncodesCanonically floatBytes j ↔ KeysByLength (stored j) := by
  constructor
  · intro h
    exact (canonical_stored_iff j).mp h.ordered
  · intro h
    exact ⟨(canonical_stored_iff j).mpr h, fun j' hsame => by rw [hsame.stored_eq]⟩

/-- Every value is encoded in bytewise order of its keys, whatever the order of their insertion. -/
theorem encodesInTextOrder (floatBytes : CborFloat → Bytes) (j : Value) :
    EncodesInTextOrder floatBytes j where
  ordered := inTextOrder_stored j
  canonical := canonical_stored_iff j
  same := fun j' hsame => by rw [hsame.stored_eq]

/-- The key `aa` comes before the shorter key `b`. -/
theorem not_encodesCanonically_longerKey : ¬ ∀ j, EncodesCanonically (fun _ => []) j := by
  intro hall
  have hordered := (hall (.object [("b", .null), ("aa", .null)])).ordered
  have hlength := (canonical_stored_iff (.object [("b", .null), ("aa", .null)])).mp hordered
  exact absurd hlength.1 (by decide +kernel)

end Order

end AmlaSandbox.Protocol
