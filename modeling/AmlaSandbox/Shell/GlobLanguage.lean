import AmlaSandbox.Shell.GlobSearch

/-!
# The language of a glob pattern

What the parts of a pattern stand for is said of characters: a question mark is one character, an
escape is the character itself and a bracket that is never closed is a bracket. The matcher works
on bytes. It decides the same language where a question mark and a bracket meet ASCII only, no
backslash of the text meets an escape and no bracket of the text meets one that is not closed.
-/

namespace AmlaSandbox.Shell

open Library Piece Text

/-- What a part stands for. -/
def Part.denotes : Part Char → Piece Char
  | .star => .run
  | .one => .letter fun _ => true
  | .bracket b => .letter (b.accepts id)
  | .unclosed => .letter ('[' = ·)
  | .escaped c => .letter (c = ·)
  | .literal c => .letter (c = ·)

/-- The texts that a pattern stands for. -/
def Denotes (pattern text : Text) : Prop := Matches ((partsOf id pattern).map Part.denotes) text

instance (pattern text : Text) : Decidable (Denotes pattern text) :=
  decidable_of_iff _ backtrack_iff

/-- Whether a part is matched against one byte where it stands for one character. -/
def Part.isSingle : Part Char → Bool
  | .one => true
  | .bracket _ => true
  | _ => false

/-- No part of the pattern means something else by bytes, on this text. -/
structure Bytewise (pattern text : Text) : Prop where
  escapes : ∀ c, .escaped c ∈ partsOf id pattern → c = '\\' ∨ '\\' ∉ text
  singles : ∀ part ∈ partsOf id pattern, part.isSingle = true → text.all isAscii = true
  brackets : ∀ b, .bracket b ∈ partsOf id pattern → b.inner.all isAscii = true
  unclosed : .unclosed ∈ partsOf id pattern → '[' ∉ text

/-! ### The parts in bytes -/

def Bracket.utf8 (b : Bracket Char) : Bracket UInt8 := { b with inner := Text.utf8 b.inner }

/-- The parts of the bytes of a part. -/
def Part.expand : Part Char → List (Part UInt8)
  | .star => [.star]
  | .one => [.one]
  | .bracket b => [.bracket b.utf8]
  | .unclosed => [.unclosed]
  | .escaped c =>
    match String.utf8EncodeChar c with
    | [] => []
    | a :: rest => .escaped a :: rest.map .literal
  | .literal c => (String.utf8EncodeChar c).map .literal

lemma marks_id : Marks (id : Char → Char) := by
  unfold Marks
  decide

variable {pattern text s t : Text} {c mark : Char} {v w : List UInt8}

/-- Bytes that are no marks are literals. -/
lemma partsOf_append (h : ∀ a ∈ v, a ≠ byte '\\' ∧ a ≠ byte '*' ∧ a ≠ byte '?' ∧ a ≠ byte '[') :
    partsOf byte (v ++ w) = v.map .literal ++ partsOf byte w := by
  induction v with
  | nil => rfl
  | cons a v ih =>
    obtain ⟨⟨hescape, hstar, hone, hopening⟩, hrest⟩ := List.forall_mem_cons.mp h
    rw [List.cons_append, partsOf_literal hescape hstar hone hopening, ih hrest]
    rfl

/-- A byte that is a mark encodes that mark. -/
lemma ne_byte_of_mem_encode (hmark : isAscii mark = true) (hne : c ≠ mark) {a : UInt8}
    (ha : a ∈ String.utf8EncodeChar c) : a ≠ byte mark := by
  rintro rfl
  obtain ⟨hc, heq⟩ := eq_of_mem_encode ha (toUInt8_lt hmark)
  exact hne ((toUInt8_inj hc hmark).mp heq.symm)

lemma head?_utf8_iff (hmark : isAscii mark = true) :
    (utf8 s).head? = some (byte mark) ↔ s.head? = some mark := by
  cases s with
  | nil => simp
  | cons c s =>
    obtain ⟨a, rest, hencode⟩ := List.exists_cons_of_ne_nil (String.utf8EncodeChar_ne_nil (c := c))
    rw [utf8_cons, hencode, List.cons_append, List.head?_cons, List.head?_cons, Option.some_inj,
      Option.some_inj]
    constructor
    · rintro rfl
      by_contra hne
      exact ne_byte_of_mem_encode hmark hne (hencode ▸ List.mem_cons_self) rfl
    · rintro rfl
      rw [encode_of_isAscii hmark] at hencode
      exact (List.cons.inj hencode).1.symm

lemma drop_utf8 {taken : Bool} (hmark : isAscii mark = true)
    (htaken : taken = true → s.head? = some mark) :
    (utf8 s).drop taken.toNat = utf8 (s.drop taken.toNat) := by
  cases taken with
  | false => rfl
  | true =>
    obtain ⟨rest, rfl⟩ := List.head?_eq_some_iff.mp (htaken rfl)
    rw [utf8_cons_of_isAscii hmark]
    rfl

lemma takeWhile_utf8 (hmark : isAscii mark = true) :
    (utf8 s).takeWhile (· ≠ byte mark) = utf8 (s.takeWhile (· ≠ mark)) := by
  induction s with
  | nil => rfl
  | cons c s ih =>
    by_cases hc : c = mark
    · subst hc
      rw [utf8_cons_of_isAscii hmark]
      simp [byte]
    · have hall : ∀ a ∈ String.utf8EncodeChar c, decide (a ≠ byte mark) = true :=
        fun a ha => decide_eq_true (ne_byte_of_mem_encode hmark hc ha)
      rw [utf8_cons, List.takeWhile_append_of_pos hall, ih,
        List.takeWhile_cons_of_pos (by simpa using hc), utf8_cons]

lemma bracketHead_utf8 :
    bracketHead byte (utf8 s) =
      ((bracketHead id s).1, (bracketHead id s).2.1, utf8 (bracketHead id s).2.2) := by
  have hnegate : decide ((utf8 s).head? = some (byte '!') ∨ (utf8 s).head? = some (byte '^')) =
      decide (s.head? = some '!' ∨ s.head? = some '^') :=
    decide_eq_decide.mpr (or_congr (head?_utf8_iff (by decide)) (head?_utf8_iff (by decide)))
  have hfirst (negate : Bool) (h : negate = true → s.head? = some '!' ∨ s.head? = some '^') :
      (utf8 s).drop negate.toNat = utf8 (s.drop negate.toNat) := by
    cases negate with
    | false => rfl
    | true =>
      rcases h rfl with h | h
      · exact drop_utf8 (by decide) fun _ => h
      · exact drop_utf8 (by decide) fun _ => h
  unfold bracketHead
  dsimp only [id]
  rw [hnegate, hfirst _ of_decide_eq_true]
  have hcloser (s : Text) : decide ((utf8 s).head? = some (byte ']')) =
      decide (s.head? = some ']') := decide_eq_decide.mpr (head?_utf8_iff (by decide))
  rw [hcloser, drop_utf8 (by decide) of_decide_eq_true]

lemma bracketOf_utf8 :
    bracketOf byte (utf8 s) = (bracketOf id s).map fun (b, rest) => (b.utf8, utf8 rest) := by
  have hascii : isAscii ']' = true := by decide
  unfold bracketOf
  rw [bracketHead_utf8]
  obtain ⟨negate, closer, body⟩ := bracketHead id s
  dsimp only [id]
  have hmem : byte ']' ∈ utf8 body ↔ ']' ∈ body := mem_utf8_iff hascii
  by_cases hbody : ']' ∈ body
  · have hcut := congrArg utf8 (takeWhile_append_drop hbody)
    rw [utf8_append, utf8_cons_of_isAscii hascii] at hcut
    have hdrop : (utf8 body).drop ((utf8 (body.takeWhile (· ≠ ']'))).length + 1) =
        utf8 (body.drop ((body.takeWhile (· ≠ ']')).length + 1)) := by
      conv_lhs => rw [hcut]
      rw [← List.drop_drop, List.drop_left]
      rfl
    rw [if_pos (hmem.mpr hbody), if_pos hbody, takeWhile_utf8 hascii, hdrop]
    rfl
  · rw [if_neg (mt hmem.mp hbody), if_neg hbody]
    rfl

lemma not_mark_of_mem_encode (hescape : c ≠ '\\') (hstar : c ≠ '*') (hone : c ≠ '?')
    (hopening : c ≠ '[') (a : UInt8) (ha : a ∈ String.utf8EncodeChar c) :
    a ≠ byte '\\' ∧ a ≠ byte '*' ∧ a ≠ byte '?' ∧ a ≠ byte '[' :=
  ⟨ne_byte_of_mem_encode (by decide) hescape ha, ne_byte_of_mem_encode (by decide) hstar ha,
    ne_byte_of_mem_encode (by decide) hone ha, ne_byte_of_mem_encode (by decide) hopening ha⟩

/-- No byte behind the first is a mark. -/
lemma not_mark_of_mem_tail {a : UInt8} {rest : List UInt8}
    (hencode : String.utf8EncodeChar c = a :: rest) (a' : UInt8) (ha' : a' ∈ rest) :
    a' ≠ byte '\\' ∧ a' ≠ byte '*' ∧ a' ≠ byte '?' ∧ a' ≠ byte '[' := by
  have hlarge : ¬ a' < 128 := by
    intro hlt
    have hascii := (eq_of_mem_encode (hencode ▸ List.mem_cons_of_mem _ ha') hlt).1
    rw [encode_of_isAscii hascii] at hencode
    rw [← (List.cons.inj hencode).2] at ha'
    cases ha'
  refine ⟨?_, ?_, ?_, ?_⟩ <;>
    · rintro rfl
      exact hlarge (by decide)

/-- The parts of the bytes are the bytes of the parts. -/
lemma partsOf_utf8 : partsOf byte (utf8 pattern) = (partsOf id pattern).flatMap Part.expand := by
  have hascii {c : Char} (h : isAscii c = true) (rest : Text) :
      utf8 (id c :: rest) = byte c :: utf8 rest := utf8_cons_of_isAscii h
  induction pattern using partsOf.induct id with
  | case1 => simp
  | case2 =>
    rw [hascii (by decide), partsOf_backslash]
    exact partsOf_backslash
  | case3 c rest ih =>
    obtain ⟨a, more, hencode⟩ := List.exists_cons_of_ne_nil (String.utf8EncodeChar_ne_nil (c := c))
    rw [hascii (by decide), partsOf_escaped, utf8_cons, hencode, List.cons_append, partsOf_escaped,
      partsOf_append (not_mark_of_mem_tail hencode), ih, List.flatMap_cons, Part.expand, hencode]
    rfl
  | case4 rest hne ih =>
    rw [hascii (by decide), partsOf_star marks_id, partsOf_star marks_byte, ih]
    rfl
  | case5 rest hne hne' ih =>
    rw [hascii (by decide), partsOf_one marks_id, partsOf_one marks_byte, ih]
    rfl
  | case6 rest b rest' hbracket _ _ _ ih =>
    rw [hascii (by decide), partsOf_opening marks_id, partsOf_opening marks_byte, bracketOf_utf8,
      hbracket, Option.map_some]
    dsimp only
    rw [ih]
    rfl
  | case7 rest hbracket _ _ _ ih =>
    rw [hascii (by decide), partsOf_opening marks_id, partsOf_opening marks_byte, bracketOf_utf8,
      hbracket, Option.map_none]
    dsimp only
    rw [ih]
    rfl
  | case8 c rest hescape hstar hone hopening ih =>
    rw [partsOf_literal hescape hstar hone hopening, utf8_cons,
      partsOf_append (not_mark_of_mem_encode hescape hstar hone hopening), ih]
    rfl

/-! ### Brackets of ASCII characters -/

section Ascii

variable {ch : Char} {inner : Text}

lemma toUInt8_le (hc : isAscii c = true) (hd : isAscii ch = true) :
    c.toUInt8 ≤ ch.toUInt8 ↔ c ≤ ch := by
  rw [UInt8.le_iff_toNat_le, toNat_toUInt8 hc, toNat_toUInt8 hd]
  exact UInt32.le_iff_toNat_le.symm

lemma items_utf8 (h : inner.all isAscii = true) (hch : isAscii ch = true) :
    (items byte (utf8 inner)).any (·.accepts ch.toUInt8) = (items id inner).any (·.accepts ch) := by
  have hone {c : Char} (hc : isAscii c = true) :
      (Item.one c.toUInt8).accepts ch.toUInt8 = (Item.one c).accepts ch :=
    decide_eq_decide.mpr (toUInt8_inj hc hch)
  have hrange {c d : Char} (hc : isAscii c = true) (hd : isAscii d = true) :
      (Item.range c.toUInt8 d.toUInt8).accepts ch.toUInt8 = (Item.range c d).accepts ch :=
    decide_eq_decide.mpr (and_congr (toUInt8_le hc hch) (toUInt8_le hch hd))
  have hbyte {c : Char} (hc : isAscii c = true) (rest : Text) :
      utf8 (c :: rest) = byte c :: utf8 rest := utf8_cons_of_isAscii hc
  induction inner using items.induct id with
  | case1 => rfl
  | case2 c =>
    simp only [List.all_cons, Bool.and_eq_true] at h
    rw [hbyte h.1, utf8_nil]
    simp only [items, List.any_cons, List.any_nil]
    rw [← hone h.1]
    rfl
  | case3 c dash ih =>
    simp only [List.all_cons, Bool.and_eq_true] at h
    rw [hbyte h.1, hbyte h.2.1, utf8_nil]
    simp only [items, List.any_cons, List.any_nil]
    rw [← hone h.1, ← hone h.2.1]
    rfl
  | case4 c last rest ih =>
    simp only [List.all_cons, Bool.and_eq_true] at h
    have hih := ih h.2.2.2
    rw [hbyte h.1, hbyte h.2.1, hbyte h.2.2.1]
    simp only [items, id, if_true, List.any_cons]
    rw [← hrange h.1 h.2.2.1]
    exact congrArg _ hih
  | case5 c dash last rest hne ih =>
    simp only [List.all_cons, Bool.and_eq_true] at h
    have hdash : byte dash ≠ byte '-' := mt (toUInt8_inj h.2.1 (by decide)).mp hne
    have hih := ih (by simp [h])
    rw [hbyte h.1]
    rw [hbyte h.2.1, hbyte h.2.2.1] at hih ⊢
    simp only [items, if_neg hdash, if_neg hne, List.any_cons (a := Item.one _)]
    rw [← hone h.1]
    exact congrArg _ hih

end Ascii

/-! ### Alignment -/

def bytePieces (parts : List (Part Char)) : List (Piece UInt8) :=
  (parts.flatMap Part.expand).map Part.piece

section Alignment

variable {parts : List (Part Char)} {part : Part Char} {q : List (Piece UInt8)}

/-- A character is spelled by its bytes. -/
lemma matches_char_iff (hpieces : (part.expand).map Part.piece =
      (String.utf8EncodeChar c).map (fun a => .letter (a = ·))) :
    Matches (bytePieces (part :: parts)) w ↔
      ∃ u, w = String.utf8EncodeChar c ++ u ∧ Matches (bytePieces parts) u := by
  unfold bytePieces
  rw [List.flatMap_cons, List.map_append, hpieces]
  exact matches_spelled_iff

lemma expand_escaped : ((Part.escaped c).expand).map Part.piece =
    (String.utf8EncodeChar c).map (fun a => .letter (a = ·)) := by
  rw [Part.expand]
  cases String.utf8EncodeChar c with
  | nil => rfl
  | cons a rest =>
    dsimp only
    rw [List.map_cons, List.map_map]
    rfl

lemma expand_literal : ((Part.literal c).expand).map Part.piece =
    (String.utf8EncodeChar c).map (fun a => .letter (a = ·)) := by
  rw [Part.expand, List.map_map]
  rfl

/-- Every suffix of ASCII bytes is a suffix of the text. -/
lemma exists_suffix_of_ascii (h : t.all isAscii = true) (hv : v <:+ utf8 t) :
    ∃ s, s <:+ t ∧ v = utf8 s := by
  cases v with
  | nil => exact ⟨[], List.nil_suffix, rfl⟩
  | cons a v =>
    apply exists_suffix_of_isFirstByte hv
    have hmem : a ∈ utf8 t := hv.subset List.mem_cons_self
    obtain ⟨c, hc, hmem⟩ := List.mem_flatMap.mp hmem
    have hascii := List.all_eq_true.mp h c hc
    rw [encode_of_isAscii hascii, List.mem_singleton] at hmem
    rw [hmem]
    exact isFirstByte_of_lt (toUInt8_lt hascii)

/-- A match that starts inside a character can start at one. -/
lemma exists_aligned (hsingles : ∀ part ∈ parts, part.isSingle = true → t.all isAscii = true)
    (hv : v <:+ utf8 t) (h : Matches (bytePieces parts) v) :
    ∃ s, s <:+ t ∧ Matches (bytePieces parts) (utf8 s) := by
  induction parts generalizing v with
  | nil => exact ⟨[], List.nil_suffix, .nil⟩
  | cons part parts ih =>
    obtain ⟨hpart, hparts⟩ := List.forall_mem_cons.mp hsingles
    have hchar (c : Char) (hpieces : (part.expand).map Part.piece =
        (String.utf8EncodeChar c).map (fun a => .letter (a = ·))) :
        ∃ s, s <:+ t ∧ Matches (bytePieces (part :: parts)) (utf8 s) := by
      obtain ⟨u, rfl, -⟩ := (matches_char_iff hpieces).mp h
      obtain ⟨a, more, hencode⟩ :=
        List.exists_cons_of_ne_nil (String.utf8EncodeChar_ne_nil (c := c))
      rw [hencode] at hv h
      obtain ⟨s, hs, heq⟩ := exists_suffix_of_isFirstByte hv (isFirstByte_of_encode hencode)
      exact ⟨s, hs, heq ▸ h⟩
    cases part with
    | star =>
      obtain ⟨u, hu, hmatch⟩ := matches_run_iff.mp h
      obtain ⟨s, hs, hmatch⟩ := ih hparts (hu.trans hv) hmatch
      exact ⟨s, hs, .run [] hmatch⟩
    | one =>
      obtain ⟨s, hs, rfl⟩ := exists_suffix_of_ascii (hpart rfl) hv
      exact ⟨s, hs, h⟩
    | bracket b =>
      obtain ⟨s, hs, rfl⟩ := exists_suffix_of_ascii (hpart rfl) hv
      exact ⟨s, hs, h⟩
    | unclosed =>
      obtain ⟨_, _, _, hfalse, -⟩ := matches_letter_iff.mp h
      cases hfalse
    | escaped c => exact hchar c expand_escaped
    | literal c => exact hchar c expand_literal

lemma accepts_utf8 {b : Bracket Char} (hinner : b.inner.all isAscii = true)
    (hc : isAscii c = true) : b.utf8.accepts byte c.toUInt8 = b.accepts id c := by
  have hcloser : (c.toUInt8 == byte ']') = (c == ']') := by
    rw [Bool.eq_iff_iff, beq_iff_eq, beq_iff_eq]
    exact toUInt8_inj hc (by decide)
  unfold Bracket.accepts
  dsimp only [Bracket.utf8, id]
  rw [items_utf8 hinner hc, hcloser]
  rfl

/-- One part and one ASCII character. -/
lemma matches_single_iff {accepts : UInt8 → Bool} {accepts' : Char → Bool}
    {q' : List (Piece Char)} (hascii : t.all isAscii = true)
    (haccepts : ∀ c, isAscii c = true → accepts c.toUInt8 = accepts' c)
    (ih : ∀ s, s <:+ t → (Matches q (utf8 s) ↔ Matches q' s)) :
    Matches (.letter accepts :: q) (utf8 t) ↔ Matches (.letter accepts' :: q') t := by
  cases t with
  | nil => simp
  | cons c t =>
    have hc : isAscii c = true := List.all_eq_true.mp hascii c List.mem_cons_self
    rw [utf8_cons_of_isAscii hc, matches_letter_iff, matches_letter_iff]
    constructor
    · rintro ⟨a, v, heq, ha, hv⟩
      obtain ⟨rfl, rfl⟩ := List.cons.inj heq
      exact ⟨c, t, rfl, haccepts c hc ▸ ha, (ih t (List.suffix_cons c t)).mp hv⟩
    · rintro ⟨c', t', heq, hc', ht'⟩
      obtain ⟨rfl, rfl⟩ := List.cons.inj heq
      exact ⟨_, _, rfl, (haccepts c hc).symm ▸ hc', (ih t (List.suffix_cons c t)).mpr ht'⟩

/-- The bytes of a text match by bytes where the text matches by characters. -/
lemma matches_bytePieces_iff
    (hsingles : ∀ part ∈ parts, part.isSingle = true → t.all isAscii = true)
    (hbrackets : ∀ b, .bracket b ∈ parts → b.inner.all isAscii = true)
    (hunclosed : .unclosed ∈ parts → '[' ∉ t) :
    Matches (bytePieces parts) (utf8 t) ↔ Matches (parts.map Part.denotes) t := by
  induction parts generalizing t with
  | nil =>
    rw [bytePieces, List.flatMap_nil, List.map_nil, List.map_nil, matches_nil_iff, matches_nil_iff]
    exact utf8_injective.eq_iff' rfl
  | cons part parts ih =>
    have hsuffix (s : Text) (hs : s <:+ t) :
        Matches (bytePieces parts) (utf8 s) ↔ Matches (parts.map Part.denotes) s := by
      apply ih
      · intro part' hpart' hsingle
        have hall := List.all_eq_true.mp (hsingles part' (.tail _ hpart') hsingle)
        exact List.all_eq_true.mpr fun c hc => hall c (hs.subset hc)
      · exact fun b hb => hbrackets b (.tail _ hb)
      · exact fun hmem hopening => hunclosed (.tail _ hmem) (hs.subset hopening)
    have hchar (c : Char) (hpieces : (part.expand).map Part.piece =
        (String.utf8EncodeChar c).map (fun a => .letter (a = ·))) :
        Matches (bytePieces (part :: parts)) (utf8 t) ↔
          Matches (.letter (c = ·) :: parts.map Part.denotes) t := by
      rw [matches_char_iff hpieces, matches_letter_iff]
      constructor
      · rintro ⟨u, heq, hu⟩
        cases t with
        | nil =>
          have hnil := (List.append_eq_nil_iff.mp heq.symm).1
          exact absurd hnil String.utf8EncodeChar_ne_nil
        | cons d s =>
          rw [utf8_cons] at heq
          obtain ⟨rfl, rfl⟩ := encode_append_inj heq
          exact ⟨d, s, rfl, decide_eq_true rfl, (hsuffix s (List.suffix_cons d s)).mp hu⟩
      · rintro ⟨d, s, rfl, hd, hs⟩
        obtain rfl := of_decide_eq_true hd
        exact ⟨utf8 s, utf8_cons, (hsuffix s (List.suffix_cons c s)).mpr hs⟩
    rw [List.map_cons]
    cases part with
    | star =>
      show Matches (.run :: bytePieces parts) (utf8 t) ↔ Matches (.run :: _) t
      rw [matches_run_iff, matches_run_iff]
      constructor
      · rintro ⟨v, hv, hmatch⟩
        have hparts : ∀ part ∈ parts, part.isSingle = true → t.all isAscii = true :=
          fun part hpart => hsingles part (.tail _ hpart)
        obtain ⟨s, hs, hmatch⟩ := exists_aligned hparts hv hmatch
        exact ⟨s, hs, (hsuffix s hs).mp hmatch⟩
      · rintro ⟨s, hs, hmatch⟩
        obtain ⟨front, rfl⟩ := hs
        exact ⟨utf8 s, utf8_append ▸ List.suffix_append _ _, (hsuffix s ⟨front, rfl⟩).mpr hmatch⟩
    | one => exact matches_single_iff (hsingles _ List.mem_cons_self rfl) (fun _ _ => rfl) hsuffix
    | bracket b =>
      exact matches_single_iff (hsingles _ List.mem_cons_self rfl)
        (fun c hc => accepts_utf8 (hbrackets b List.mem_cons_self) hc) hsuffix
    | unclosed =>
      show Matches (.letter (fun _ => false) :: _) _ ↔ Matches (.letter ('[' = ·) :: _) t
      rw [matches_letter_iff, matches_letter_iff]
      refine iff_of_false ?_ ?_
      · rintro ⟨_, _, _, hfalse, -⟩
        cases hfalse
      · rintro ⟨c, s, rfl, hc, -⟩
        rw [← of_decide_eq_true hc] at hunclosed
        exact hunclosed List.mem_cons_self List.mem_cons_self
    | escaped c => exact hchar c expand_escaped
    | literal c => exact hchar c expand_literal

end Alignment

/-! ### The matcher -/

/-- An escape by bytes is an escape by characters. -/
lemma escapes_utf8 (h : ∀ c, .escaped c ∈ partsOf id pattern → c = '\\' ∨ '\\' ∉ text) (a : UInt8)
    (ha : .escaped a ∈ partsOf byte (utf8 pattern)) : a = byte '\\' ∨ byte '\\' ∉ utf8 text := by
  rw [partsOf_utf8, List.mem_flatMap] at ha
  obtain ⟨part, hpart, hmem⟩ := ha
  cases part with
  | escaped c =>
    rcases h c hpart with rfl | hnot
    · rw [Part.expand, encode_of_isAscii (by decide)] at hmem
      obtain ⟨rfl⟩ := Part.escaped.inj (List.mem_singleton.mp hmem)
      exact .inl rfl
    · exact .inr (mt (mem_utf8_iff (by decide)).mp hnot)
  | literal c => simp [Part.expand] at hmem
  | _ => simp [Part.expand] at hmem

/-- The matcher decides the language of the pattern. -/
theorem globMatch_iff_denotes (pattern text : Text) (h : Bytewise pattern text) :
    globMatch pattern text = true ↔ Denotes pattern text := by
  unfold globMatch
  rw [globMatchImpl_iff (escapes_utf8 h.escapes), pieces, partsOf_utf8]
  exact matches_bytePieces_iff h.singles h.brackets h.unclosed

/-- The pattern `*?[a-c]\*` on the text `xyb*`. -/
theorem globMatch_iff_denotes_starBracket :
    let pattern := ['*', '?', '[', 'a', '-', 'c', ']', '\\', '*']
    let text := ['x', 'y', 'b', '*']
    Bytewise pattern text ∧ (globMatch pattern text = true ↔ Denotes pattern text) := by
  intro pattern text
  have hcut : partsOf id pattern =
      [.star, .one, .bracket ⟨false, false, ['a', '-', 'c']⟩, .escaped '*'] :=
    calc
      partsOf id pattern = .star :: partsOf id (pattern.drop 1) := partsOf_star marks_id
      _ = .star :: .one :: partsOf id (pattern.drop 2) := congrArg _ (partsOf_one marks_id)
      _ = .star :: .one :: .bracket ⟨false, false, ['a', '-', 'c']⟩ :: partsOf id ['\\', '*'] :=
        congrArg _ (congrArg _ (partsOf_opening marks_id))
      _ = _ := by
        have hlast : partsOf id ['\\', '*'] = .escaped '*' :: partsOf id [] := partsOf_escaped
        rw [hlast, partsOf_nil]
  have h : Bytewise pattern text :=
    { escapes := fun _ _ => .inr (by decide)
      singles := fun _ _ _ => by decide
      brackets := fun b hb => by
        rw [hcut] at hb
        obtain rfl : b = ⟨false, false, ['a', '-', 'c']⟩ := by simpa using hb
        decide
      unclosed := fun _ => by decide }
  exact ⟨h, globMatch_iff_denotes pattern text h⟩

/-- `?` does not match `é`, `\a` matches `\a` and `[` does not match `[`. -/
theorem globMatch_ne_denotes :
    ¬ (globMatch ['?'] ['é'] = true ↔ Denotes ['?'] ['é']) ∧
      ¬ (globMatch ['\\', 'a'] ['\\', 'a'] = true ↔ Denotes ['\\', 'a'] ['\\', 'a']) ∧
      ¬ (globMatch ['['] ['['] = true ↔ Denotes ['['] ['[']) := by
  refine ⟨?_, ?_, ?_⟩
  · have hmatch : globMatch ['?'] ['é'] = false := Cursor.run_of_rounds (n := 3) rfl
    have hcut : partsOf id ['?'] = .one :: partsOf id [] := partsOf_one marks_id
    have hdenotes : Denotes ['?'] ['é'] := by
      unfold Denotes
      rw [hcut, partsOf_nil]
      exact .letter rfl .nil
    simp [hmatch, hdenotes]
  · have hmatch : globMatch ['\\', 'a'] ['\\', 'a'] = true := Cursor.run_of_rounds (n := 3) rfl
    have hcut : partsOf id ['\\', 'a'] = .escaped 'a' :: partsOf id [] := partsOf_escaped
    have hdenotes : ¬ Denotes ['\\', 'a'] ['\\', 'a'] := by
      unfold Denotes
      rw [hcut, partsOf_nil, ← backtrack_iff]
      simp [Part.denotes, backtrack]
    simp [hmatch, hdenotes]
  · have hmatch : globMatch ['['] ['['] = false := Cursor.run_of_rounds (n := 3) rfl
    have hcut : partsOf id ['['] = .unclosed :: partsOf id [] := partsOf_opening marks_id
    have hdenotes : Denotes ['['] ['['] := by
      unfold Denotes
      rw [hcut, partsOf_nil]
      exact .letter rfl .nil
    simp [hmatch, hdenotes]

end AmlaSandbox.Shell
