import AmlaSandbox.Text.Basic
import Mathlib.Data.List.Infix

/-!
# UTF-8

A string as bytes. The encoding of a character is no prefix of another's, a byte of the ASCII range
encodes its own character, and a suffix that starts with a first byte starts at a character. A cut
is valid UTF-8 where a character begins behind it.
-/

namespace AmlaSandbox.Text

/-- The bytes of a string. -/
def utf8 (s : Text) : List UInt8 := s.flatMap String.utf8EncodeChar

def isAscii (c : Char) : Bool := c.toNat < 128

/-- `std::str::from_utf8` gives no error. -/
def isUtf8 (bytes : List UInt8) : Bool := bytes.toByteArray.validateUTF8

variable {s t front : Text} {c d : Char} {b : UInt8} {v w : List UInt8} {n : ℕ}

@[simp] lemma utf8_nil : utf8 [] = [] := rfl

lemma utf8_cons : utf8 (c :: s) = String.utf8EncodeChar c ++ utf8 s := List.flatMap_cons

lemma utf8_append : utf8 (s ++ t) = utf8 s ++ utf8 t := List.flatMap_append

lemma encode_of_isAscii (h : isAscii c = true) : String.utf8EncodeChar c = [c.toUInt8] := by
  have hlt : c.toNat < 128 := of_decide_eq_true h
  apply String.utf8EncodeChar_eq_singleton
  rw [Char.utf8Size_eq_one_iff]
  exact UInt32.le_iff_toNat_le.mpr (Nat.le_of_lt_succ hlt)

lemma utf8_cons_of_isAscii (h : isAscii c = true) : utf8 (c :: s) = c.toUInt8 :: utf8 s := by
  rw [utf8_cons, encode_of_isAscii h, List.singleton_append]

lemma toNat_toUInt8 (h : isAscii c = true) : c.toUInt8.toNat = c.toNat := by
  have hlt : c.toNat < 128 := of_decide_eq_true h
  exact Nat.mod_eq_of_lt (lt_trans hlt (by decide))

lemma toUInt8_lt (h : isAscii c = true) : c.toUInt8 < 128 := by
  rw [UInt8.lt_iff_toNat_lt, toNat_toUInt8 h]
  exact of_decide_eq_true h

/-- A character can be read off the front. -/
lemma encode_append_inj (h : String.utf8EncodeChar c ++ v = String.utf8EncodeChar d ++ w) :
    c = d ∧ v = w := by
  have hdecode (c : Char) (v : List UInt8) :
      (String.utf8EncodeChar c ++ v).toByteArray.utf8DecodeChar? 0 = some c := by
    rw [List.toByteArray_append, ByteArray.utf8DecodeChar?_utf8EncodeChar_append]
  have hc : c = d := by
    have hd := hdecode d w
    rw [← h, hdecode c v] at hd
    exact Option.some.inj hd
  subst hc
  exact ⟨rfl, List.append_cancel_left h⟩

lemma utf8_injective : Function.Injective utf8 := by
  intro s t h
  induction s generalizing t with
  | nil =>
    cases t with
    | nil => rfl
    | cons d t =>
      have hnil := (List.append_eq_nil_iff.mp h.symm).1
      exact absurd hnil String.utf8EncodeChar_ne_nil
  | cons c s ih =>
    cases t with
    | nil =>
      have hnil := (List.append_eq_nil_iff.mp h).1
      exact absurd hnil String.utf8EncodeChar_ne_nil
    | cons d t =>
      rw [utf8_cons, utf8_cons] at h
      obtain ⟨rfl, hrest⟩ := encode_append_inj h
      rw [ih hrest]

lemma isFirstByte_of_encode (h : String.utf8EncodeChar c = b :: v) : b.IsUTF8FirstByte := by
  have hlt : 0 < (String.utf8EncodeChar c).length := by simp [h]
  have hget : (String.utf8EncodeChar c)[0] = b := by simp [h]
  rw [← hget]
  exact UInt8.isUTF8FirstByte_getElem_utf8EncodeChar.mpr rfl

/-- A first byte is the first. -/
lemma eq_encode_of_isFirstByte (hsuffix : b :: v <:+ String.utf8EncodeChar c)
    (hfirst : b.IsUTF8FirstByte) : b :: v = String.utf8EncodeChar c := by
  obtain ⟨front, hfront⟩ := hsuffix
  have hlt : front.length < (String.utf8EncodeChar c).length := by
    rw [← hfront, List.length_append]
    simp
  have hget : (String.utf8EncodeChar c)[front.length] = b := by
    simp [← hfront]
  rw [← hget, UInt8.isUTF8FirstByte_getElem_utf8EncodeChar, List.length_eq_zero_iff] at hfirst
  rw [← hfront, hfirst, List.nil_append]

lemma isFirstByte_of_lt (h : b < 128) : b.IsUTF8FirstByte := by
  have hall : ∀ n : Fin 256, UInt8.ofFin n < 128 → UInt8.ofFin n &&& 128 = 0 := by decide +kernel
  exact .inl (hall b.toFin h)

/-- A byte of the ASCII range occurs in the encoding of its own character only. -/
lemma eq_of_mem_encode (hmem : b ∈ String.utf8EncodeChar c) (h : b < 128) :
    isAscii c = true ∧ b = c.toUInt8 := by
  obtain ⟨front, v, hsplit⟩ := List.append_of_mem hmem
  have heq := eq_encode_of_isFirstByte ⟨front, hsplit.symm⟩ (isFirstByte_of_lt h)
  have hlt : b.toNat < 128 := UInt8.lt_iff_toNat_lt.mp h
  have hnat : (Char.ofNat b.toNat).toNat = b.toNat :=
    congrArg Char.toNat (dif_pos (.inl (by omega)))
  have hascii : isAscii (Char.ofNat b.toNat) = true := by
    unfold isAscii
    rw [hnat]
    exact decide_eq_true hlt
  have hc : String.utf8EncodeChar c ++ [] = String.utf8EncodeChar (Char.ofNat b.toNat) ++ v := by
    have hbyte : (Char.ofNat b.toNat).toUInt8 = b := by
      apply UInt8.toNat_inj.mp
      rw [toNat_toUInt8 hascii, hnat]
    rw [List.append_nil, ← heq, encode_of_isAscii hascii, hbyte, List.singleton_append]
  obtain ⟨rfl, rfl⟩ := encode_append_inj hc
  refine ⟨hascii, ?_⟩
  rw [encode_of_isAscii hascii] at heq
  exact (List.cons.inj heq).1

lemma toUInt8_inj (hc : isAscii c = true) (hd : isAscii d = true) :
    c.toUInt8 = d.toUInt8 ↔ c = d := by
  constructor
  · intro h
    have hcat : String.utf8EncodeChar c ++ [] = String.utf8EncodeChar d ++ [] := by
      rw [encode_of_isAscii hc, encode_of_isAscii hd, h]
    exact (encode_append_inj hcat).1
  · exact congrArg _

lemma mem_utf8_iff (hc : isAscii c = true) : c.toUInt8 ∈ utf8 s ↔ c ∈ s := by
  unfold utf8
  rw [List.mem_flatMap]
  constructor
  · rintro ⟨d, hd, hmem⟩
    obtain ⟨hascii, heq⟩ := eq_of_mem_encode hmem (toUInt8_lt hc)
    rwa [(toUInt8_inj hc hascii).mp heq]
  · intro hmem
    exact ⟨c, hmem, by simp [encode_of_isAscii hc]⟩

/-- A suffix that starts with a first byte is a suffix of the string. -/
lemma exists_suffix_of_isFirstByte (hsuffix : b :: v <:+ utf8 s) (hfirst : b.IsUTF8FirstByte) :
    ∃ t, t <:+ s ∧ b :: v = utf8 t := by
  induction s with
  | nil => simp at hsuffix
  | cons c s ih =>
    rw [utf8_cons] at hsuffix
    obtain ⟨front, hfront⟩ := hsuffix
    rcases List.append_eq_append_iff.mp hfront with ⟨x, hx, heq⟩ | ⟨x, _, heq⟩
    · cases x with
      | nil =>
        obtain ⟨t, ht, heq'⟩ := ih (heq ▸ List.suffix_refl _)
        exact ⟨t, ht.trans (List.suffix_cons c s), heq'⟩
      | cons b' x =>
        obtain ⟨rfl, hv⟩ := List.cons.inj heq
        refine ⟨c :: s, List.suffix_refl _, ?_⟩
        rw [utf8_cons, ← eq_encode_of_isFirstByte ⟨front, hx.symm⟩ hfirst, hv]
        rfl
    · obtain ⟨t, ht, heq'⟩ := ih ⟨x, heq.symm⟩
      exact ⟨t, ht.trans (List.suffix_cons c s), heq'⟩

/-! ### Cuts -/

lemma isUtf8_iff : isUtf8 v = true ↔ ∃ s, v = utf8 s := by
  rw [isUtf8, ByteArray.validateUTF8_eq_true_iff]
  constructor
  · rintro ⟨s, hs⟩
    exact ⟨s, List.toByteArray_inj.mp hs⟩
  · rintro ⟨s, rfl⟩
    exact ⟨s, rfl⟩

/-- What is behind the bytes of some characters is a string again. -/
lemma exists_of_utf8_eq_append (h : utf8 s = utf8 t ++ v) : ∃ r, s = t ++ r ∧ v = utf8 r := by
  induction t generalizing s with
  | nil => exact ⟨s, rfl, h.symm⟩
  | cons c t ih =>
    rw [utf8_cons, List.append_assoc] at h
    cases s with
    | nil => exact absurd (List.append_eq_nil_iff.mp h.symm).1 String.utf8EncodeChar_ne_nil
    | cons d s =>
      rw [utf8_cons] at h
      obtain ⟨rfl, hrest⟩ := encode_append_inj h
      obtain ⟨r, rfl, hr⟩ := ih hrest
      exact ⟨r, rfl, hr⟩

lemma isFirstByte_of_head? (h : (utf8 s).head? = some b) : b.IsUTF8FirstByte := by
  cases s with
  | nil => cases h
  | cons c s =>
    rw [utf8_cons] at h
    cases henc : String.utf8EncodeChar c with
    | nil => exact absurd henc String.utf8EncodeChar_ne_nil
    | cons b' v =>
      rw [henc, List.cons_append, List.head?_cons] at h
      rw [← Option.some.inj h]
      exact isFirstByte_of_encode henc

/-- A string can be cut where a character begins, and at the end. -/
lemma isUtf8_take_iff :
    isUtf8 ((utf8 s).take n) = true ↔ ∀ b, (utf8 s)[n]? = some b → b.IsUTF8FirstByte := by
  rw [isUtf8_iff]
  constructor
  · rintro ⟨t, ht⟩ b hb
    have hcut : utf8 s = utf8 t ++ (utf8 s).drop n := by rw [← ht, List.take_append_drop]
    obtain ⟨r, -, hr⟩ := exists_of_utf8_eq_append hcut
    apply isFirstByte_of_head? (s := r)
    rw [← hr, List.head?_drop, hb]
  · intro hfirst
    cases hdrop : (utf8 s).drop n with
    | nil => exact ⟨s, List.take_of_length_le (List.drop_eq_nil_iff.mp hdrop)⟩
    | cons b v =>
      have hget : (utf8 s)[n]? = some b := by simp [← List.head?_drop, hdrop]
      obtain ⟨t, ⟨a, rfl⟩, ht⟩ :=
        exists_suffix_of_isFirstByte (hdrop ▸ List.drop_suffix n (utf8 s)) (hfirst b hget)
      refine ⟨a, ?_⟩
      have hcat := List.take_append_drop n (utf8 (a ++ t))
      rw [hdrop, ht] at hcat
      exact List.append_cancel_right (hcat.trans utf8_append)

end AmlaSandbox.Text
