import AmlaSandbox.Shell.GlobParts

/-!
# One star is enough

The loop of the glob matcher goes back to the last star only. Where it has passed an earlier star,
every match that starts that star's run later also starts the last star's run later.
-/

namespace AmlaSandbox.Shell

open Library Piece

/-- What the loop makes of a part. -/
def Part.piece : Part UInt8 → Piece UInt8
  | .star => .run
  | .one => .letter fun _ => true
  | .bracket b => .letter (b.accepts byte)
  | .unclosed => .letter fun _ => false
  | .escaped a => .letter (a = ·)
  | .literal a => .letter (a = ·)

def pieces (pattern : List UInt8) : List (Piece UInt8) := (partsOf byte pattern).map Part.piece

/-- Exhaustive backtracking: every star is tried with every length. -/
def exhaustive : List UInt8 → List UInt8 → Bool
  | [], text => text.isEmpty
  | c :: rest, [] => c = byte '*' && exhaustive rest []
  | c :: rest, ch :: text =>
    if c = byte '*' then exhaustive rest (ch :: text) || exhaustive (c :: rest) text
    else if c = byte '?' then exhaustive rest text
    else if c = byte '[' then
      match matchBracket (c :: rest) ch with
      | some (true, n) => exhaustive ((c :: rest).drop n) text
      | _ => false
    else if c = ch then exhaustive rest text
    else false
termination_by pattern text => pattern.length + text.length
decreasing_by
  · simp
  · simp
  · simp
  · simp
    omega
  · simp
    omega
  · simp
    omega

variable {pattern text rest rest' : List UInt8} {a ch : UInt8} {b : Bracket UInt8}

lemma marks_byte : Marks byte := by
  unfold Marks
  decide

/-- The parts behind a position are parts of the pattern. -/
lemma partsOf_drop_succ {c : UInt8} {n : ℕ} (h : pattern.drop n = c :: rest) (k : ℕ) :
    pattern.drop (n + (k + 1)) = rest.drop k := by
  rw [← List.drop_drop, h, List.drop_succ_cons]

lemma not_matches_of_reject {part : Part UInt8} {more : List (Part UInt8)}
    {accepts : UInt8 → Bool} (hcut : partsOf byte pattern = part :: more)
    (hpiece : part.piece = .letter accepts) (hreject : accepts ch = false) (t : List UInt8) :
    ¬ Matches (pieces pattern) (ch :: t) := by
  unfold pieces
  rw [hcut, List.map_cons, hpiece, matches_letter_iff]
  rintro ⟨a, v, heq, haccepts, -⟩
  obtain ⟨rfl, rfl⟩ := List.cons.inj heq
  rw [hreject] at haccepts
  cases haccepts

/-- Every part but a star is a letter. -/
lemma exists_letter {c : UInt8} (rest : List UInt8) (hstar : c ≠ byte '*') :
    ∃ accepts more, pieces (c :: rest) = .letter accepts :: more := by
  unfold pieces
  by_cases hescape : c = byte '\\'
  · subst hescape
    cases rest with
    | nil => exact ⟨_, _, by rw [partsOf_backslash]; rfl⟩
    | cons e rest => exact ⟨_, _, by rw [partsOf_escaped]; rfl⟩
  · by_cases hone : c = byte '?'
    · subst hone
      exact ⟨_, _, by rw [partsOf_one marks_byte]; rfl⟩
    · by_cases hopening : c = byte '['
      · subst hopening
        rw [partsOf_opening marks_byte]
        cases bracketOf byte rest with
        | none => exact ⟨_, _, rfl⟩
        | some x => exact ⟨_, _, rfl⟩
      · exact ⟨_, _, by rw [partsOf_literal hescape hstar hone hopening]; rfl⟩

/-- The check at the end of the text. -/
lemma dropWhile_star_iff :
    pattern.dropWhile (· = byte '*') = [] ↔ (pieces pattern).all isRun = true := by
  induction pattern with
  | nil => simp [pieces]
  | cons c rest ih =>
    by_cases hstar : c = byte '*'
    · subst hstar
      have hpieces : pieces (byte '*' :: rest) = .run :: pieces rest := by
        unfold pieces
        rw [partsOf_star marks_byte]
        rfl
      have hdrop : (byte '*' :: rest).dropWhile (· = byte '*') =
          rest.dropWhile (· = byte '*') := List.dropWhile_cons_of_pos (decide_eq_true rfl)
      rw [hdrop, ih, hpieces, List.all_cons]
      rfl
    · obtain ⟨accepts, more, hpieces⟩ := exists_letter rest hstar
      rw [List.dropWhile_cons_of_neg (by simpa using hstar), hpieces, List.all_cons]
      simp [isRun]

namespace Cursor

variable {s s' : Cursor}

/-- What one byte of the text meets: nothing, a star, or a part that accepts it. -/
lemma tryMatch_cases (hescape : ∀ e, .escaped e ∈ partsOf byte (pattern.drop s.pi) →
      e = byte '\\' ∨ ch ≠ byte '\\') :
    (s.tryMatch pattern ch = none ∧ ∀ t, ¬ Matches (pieces (pattern.drop s.pi)) (ch :: t)) ∨
    (s.tryMatch pattern ch = some s.saveStar ∧
      partsOf byte (pattern.drop s.pi) = .star :: partsOf byte (pattern.drop (s.pi + 1))) ∨
    ∃ n part accepts, s.tryMatch pattern ch = some (s.advance n) ∧
      partsOf byte (pattern.drop s.pi) = part :: partsOf byte (pattern.drop (s.pi + n)) ∧
      part.piece = .letter accepts ∧ accepts ch = true := by
  unfold tryMatch
  cases hdrop : pattern.drop s.pi with
  | nil => exact .inl ⟨rfl, fun t h => by simp [pieces] at h⟩
  | cons c rest =>
    have hnext : pattern.drop (s.pi + 1) = rest := partsOf_drop_succ hdrop 0
    rw [hdrop] at hescape
    dsimp only
    split_ifs with hesc hstar hone hopening hliteral
    · obtain ⟨rfl, hhead⟩ := hesc
      obtain ⟨rest, rfl⟩ := List.head?_eq_some_iff.mp hhead
      refine .inr (.inr ⟨2, .escaped ch, _, rfl, ?_, rfl, decide_eq_true rfl⟩)
      rw [partsOf_escaped, partsOf_drop_succ hdrop 1, List.drop_succ_cons, List.drop_zero]
    · subst hstar
      exact .inr (.inl ⟨rfl, by rw [partsOf_star marks_byte, hnext]⟩)
    · subst hone
      exact .inr (.inr ⟨1, .one, _, rfl, by rw [partsOf_one marks_byte, hnext], rfl, rfl⟩)
    · subst hopening
      cases hbracket : bracketOf byte rest with
      | none =>
        rw [matchBracket_of_bracketOf_none hbracket]
        have hcut : partsOf byte (byte '[' :: rest) = .unclosed :: partsOf byte rest := by
          rw [partsOf_opening marks_byte, hbracket]
        exact .inl ⟨rfl, not_matches_of_reject hcut rfl rfl⟩
      | some x =>
        obtain ⟨b, rest'⟩ := x
        obtain ⟨n, hmatch, hn⟩ := matchBracket_of_bracketOf hbracket ch
        have hcut : partsOf byte (byte '[' :: rest) = .bracket b :: partsOf byte rest' := by
          rw [partsOf_opening marks_byte, hbracket]
        rw [hmatch]
        cases haccepts : b.accepts byte ch with
        | false => exact .inl ⟨rfl, not_matches_of_reject hcut rfl haccepts⟩
        | true =>
          refine .inr (.inr ⟨n, .bracket b, _, rfl, ?_, rfl, haccepts⟩)
          rw [hcut, ← List.drop_drop, hdrop, hn]
    · subst hliteral
      refine .inr (.inr ⟨1, .literal c, _, rfl, ?_, rfl, decide_eq_true rfl⟩)
      rw [hnext]
      by_cases hbackslash : c = byte '\\'
      · subst hbackslash
        cases rest with
        | nil => rw [partsOf_backslash, partsOf_nil]
        | cons e rest =>
          -- the escaped byte is a backslash too, and then the escape has matched
          rw [partsOf_escaped] at hescape
          rcases hescape e List.mem_cons_self with rfl | hne
          · exact absurd ⟨rfl, rfl⟩ hesc
          · exact absurd rfl hne
      · rw [partsOf_literal hbackslash hstar hone hopening]
    · by_cases hbackslash : c = byte '\\'
      · subst hbackslash
        cases rest with
        | nil =>
          exact .inl ⟨rfl, not_matches_of_reject partsOf_backslash rfl (decide_eq_false hliteral)⟩
        | cons e rest =>
          have hne : e ≠ ch := fun h => hesc ⟨rfl, congrArg some h⟩
          exact .inl ⟨rfl, not_matches_of_reject partsOf_escaped rfl (decide_eq_false hne)⟩
      · exact .inl ⟨rfl, not_matches_of_reject (partsOf_literal hbackslash hstar hone hopening) rfl
          (decide_eq_false hliteral)⟩

/-- Where the positions are. The parts between the last star and the current one took in a byte
each. -/
structure Inv (pattern text : List UInt8) (s : Cursor) : Prop where
  parts : partsOf byte (pattern.drop s.pi) <:+ partsOf byte pattern
  ti_le : s.ti ≤ text.length
  star : ∀ spi sti, s.star = some (spi, sti) →
    partsOf byte (pattern.drop spi) <:+ partsOf byte pattern ∧
      ∃ letters, (∀ x ∈ letters, x.isRun = false) ∧
        pieces (pattern.drop spi) = letters ++ pieces (pattern.drop s.pi) ∧
        sti + letters.length = s.ti

/-- A match from here, or one from the last star that starts later. -/
def Answer (pattern text : List UInt8) (s : Cursor) : Prop :=
  Matches (pieces (pattern.drop s.pi)) (text.drop s.ti) ∨
    ∃ spi sti k, s.star = some (spi, sti) ∧ sti < k ∧ k ≤ text.length ∧
      Matches (pieces (pattern.drop spi)) (text.drop k)

lemma inv_start : start.Inv pattern text where
  parts := List.suffix_refl _
  ti_le := Nat.zero_le _
  star _ _ h := nomatch h

/-! ### One round -/

section Round

variable {n k spi sti : ℕ} {part : Part UInt8} {accepts : UInt8 → Bool} {t : List UInt8}

lemma inv_advance (h : s.Inv pattern text) (htext : text.drop s.ti = ch :: t)
    (hcut : partsOf byte (pattern.drop s.pi) = part :: partsOf byte (pattern.drop (s.pi + n)))
    (hpiece : part.piece = .letter accepts) : (s.advance n).Inv pattern text where
  parts := (hcut ▸ List.suffix_cons _ _).trans h.parts
  ti_le := by
    have hlen := congrArg List.length htext
    rw [List.length_drop, List.length_cons] at hlen
    show s.ti + 1 ≤ text.length
    omega
  star spi sti hstar := by
    obtain ⟨hparts, letters, hletters, hpieces, hlen⟩ := h.star spi sti hstar
    refine ⟨hparts, letters ++ [.letter accepts], ?_, ?_, ?_⟩
    · intro x hx
      rcases List.mem_append.mp hx with hx | hx
      · exact hletters x hx
      · rw [List.mem_singleton.mp hx]
        rfl
    · rw [hpieces, List.append_assoc, List.singleton_append]
      congr 1
      unfold pieces
      rw [hcut, List.map_cons, hpiece]
      rfl
    · rw [List.length_append, ← Nat.add_assoc, hlen]
      rfl

lemma answer_advance (htext : text.drop s.ti = ch :: t)
    (hcut : partsOf byte (pattern.drop s.pi) = part :: partsOf byte (pattern.drop (s.pi + n)))
    (hpiece : part.piece = .letter accepts) (haccepts : accepts ch = true) :
    s.Answer pattern text ↔ (s.advance n).Answer pattern text := by
  have hnext : text.drop (s.ti + 1) = t := by
    rw [← List.drop_drop, htext]
    rfl
  refine or_congr ?_ Iff.rfl
  show Matches (pieces _) _ ↔ Matches (pieces (pattern.drop (s.pi + n))) (text.drop (s.ti + 1))
  have hpieces : pieces (pattern.drop s.pi) =
      .letter accepts :: pieces (pattern.drop (s.pi + n)) := by
    unfold pieces
    rw [hcut, List.map_cons, hpiece]
  rw [hnext, htext, hpieces, matches_letter_iff]
  constructor
  · rintro ⟨a, v, heq, -, hv⟩
    obtain ⟨rfl, rfl⟩ := List.cons.inj heq
    exact hv
  · exact fun hv => ⟨ch, t, rfl, haccepts, hv⟩

lemma inv_saveStar (h : s.Inv pattern text)
    (hcut : partsOf byte (pattern.drop s.pi) = .star :: partsOf byte (pattern.drop (s.pi + 1))) :
    s.saveStar.Inv pattern text where
  parts := (hcut ▸ List.suffix_cons _ _).trans h.parts
  ti_le := h.ti_le
  star spi sti hstar := by
    obtain ⟨rfl, rfl⟩ := Prod.mk.inj (Option.some.inj hstar)
    exact ⟨(hcut ▸ List.suffix_cons _ _).trans h.parts, [], nofun, rfl, rfl⟩

/-- The earlier star is not needed any more. -/
lemma answer_saveStar (h : s.Inv pattern text)
    (hcut : partsOf byte (pattern.drop s.pi) = .star :: partsOf byte (pattern.drop (s.pi + 1))) :
    s.Answer pattern text ↔ s.saveStar.Answer pattern text := by
  have hpieces : pieces (pattern.drop s.pi) = .run :: pieces (pattern.drop (s.pi + 1)) := by
    unfold pieces
    rw [hcut]
    rfl
  have hrun := matches_run_drop_iff (p := pieces (pattern.drop (s.pi + 1))) h.ti_le
  have hnew : s.saveStar.Answer pattern text ↔
      Matches (.run :: pieces (pattern.drop (s.pi + 1))) (text.drop s.ti) := by
    rw [hrun]
    refine or_congr Iff.rfl ⟨?_, ?_⟩
    · rintro ⟨spi, sti, k, hstar, hk⟩
      obtain ⟨rfl, rfl⟩ := Prod.mk.inj (Option.some.inj hstar)
      exact ⟨k, hk⟩
    · rintro ⟨k, hk⟩
      exact ⟨_, _, k, rfl, hk⟩
  rw [hnew]
  unfold Answer
  rw [hpieces]
  constructor
  · rintro (hhere | ⟨spi, sti, k, hstar, hlt, -, hlater⟩)
    · exact hhere
    · obtain ⟨_, letters, hletters, hsplit, hlen⟩ := h.star spi sti hstar
      rw [hsplit, hpieces] at hlater
      have hearlier := hlater.run_earlier hletters (Nat.le_of_lt hlt)
      rwa [hlen] at hearlier
  · exact .inl

lemma inv_backtrackTo (h : s.Inv pattern text) (hlt : s.ti < text.length)
    (hstar : s.star = some (spi, sti)) : (backtrackTo spi sti).Inv pattern text where
  parts := (h.star spi sti hstar).1
  ti_le := Nat.lt_of_le_of_lt (s.star_le _ hstar) hlt
  star spi' sti' hstar' := by
    obtain ⟨rfl, rfl⟩ := Prod.mk.inj (Option.some.inj hstar')
    exact ⟨(h.star _ _ hstar).1, [], nofun, rfl, rfl⟩

lemma answer_backtrackTo (hlt : s.ti < text.length)
    (hstar : s.star = some (spi, sti))
    (hnot : ¬ Matches (pieces (pattern.drop s.pi)) (text.drop s.ti)) :
    s.Answer pattern text ↔ (backtrackTo spi sti).Answer pattern text := by
  have hle : sti ≤ s.ti := s.star_le _ hstar
  constructor
  · rintro (hhere | ⟨spi', sti', k, hstar', hk, hklen, hlater⟩)
    · exact absurd hhere hnot
    · rw [hstar] at hstar'
      obtain ⟨rfl, rfl⟩ := Prod.mk.inj (Option.some.inj hstar')
      rcases Nat.lt_or_ge (sti + 1) k with hgt | hge
      · exact .inr ⟨_, _, k, rfl, hgt, hklen, hlater⟩
      · rw [show k = sti + 1 by omega] at hlater
        exact .inl hlater
  · rintro (hhere | ⟨spi', sti', k, hstar', hk, hklen, hlater⟩)
    · exact .inr ⟨spi, sti, sti + 1, hstar, Nat.lt_succ_self _, by omega, hhere⟩
    · obtain ⟨rfl, rfl⟩ := Prod.mk.inj (Option.some.inj hstar')
      exact .inr ⟨_, sti, k, hstar, by omega, hklen, hlater⟩

variable {result : Bool} (hescape : ∀ e, .escaped e ∈ partsOf byte pattern →
  e = byte '\\' ∨ byte '\\' ∉ text)

include hescape

/-- A round keeps the answer. -/
lemma answer_round (h : s.Inv pattern text) (hround : s.round pattern text = .inl s') :
    s'.Inv pattern text ∧ (s.Answer pattern text ↔ s'.Answer pattern text) := by
  unfold round at hround
  cases htext : text.drop s.ti with
  | nil =>
    rw [htext] at hround
    cases hround
  | cons ch t =>
    rw [htext] at hround
    dsimp only at hround
    have hmem : ch ∈ text := List.mem_of_mem_drop (htext ▸ List.mem_cons_self)
    have hlt : s.ti < text.length := by
      by_contra hge
      rw [List.drop_eq_nil_of_le (Nat.le_of_not_lt hge)] at htext
      cases htext
    have hhere (e : UInt8) (he : .escaped e ∈ partsOf byte (pattern.drop s.pi)) :
        e = byte '\\' ∨ ch ≠ byte '\\' :=
      (hescape e (h.parts.subset he)).imp_right fun hnot heq => hnot (heq ▸ hmem)
    rcases tryMatch_cases hhere with
      ⟨htry, hnot⟩ | ⟨htry, hcut⟩ | ⟨n, part, accepts, htry, hcut, hpiece, haccepts⟩
    · rw [htry] at hround
      cases hstar : s.star with
      | none =>
        rw [hstar] at hround
        cases hround
      | some x =>
        obtain ⟨spi, sti⟩ := x
        rw [hstar] at hround
        cases hround
        exact ⟨inv_backtrackTo h hlt hstar, answer_backtrackTo hlt hstar (htext ▸ hnot t)⟩
    · rw [htry] at hround
      cases hround
      exact ⟨inv_saveStar h hcut, answer_saveStar h hcut⟩
    · rw [htry] at hround
      cases hround
      exact ⟨inv_advance h htext hcut hpiece, answer_advance htext hcut hpiece haccepts⟩

/-- The result is the answer. -/
lemma result_iff_answer (h : s.Inv pattern text) (hround : s.round pattern text = .inr result) :
    result = true ↔ s.Answer pattern text := by
  unfold round at hround
  cases htext : text.drop s.ti with
  | nil =>
    rw [htext] at hround
    cases hround
    rw [decide_eq_true_iff, dropWhile_star_iff, ← matches_empty_iff, ← htext]
    constructor
    · exact .inl
    · rintro (hhere | ⟨spi, sti, k, hstar, hlt, hle, hlater⟩)
      · exact hhere
      · -- the parts since the star took in more bytes than are left
        obtain ⟨_, letters, hletters, hsplit, hlen⟩ := h.star spi sti hstar
        rw [hsplit] at hlater
        have hlong := hlater.length_le hletters
        have hend := List.drop_eq_nil_iff.mp htext
        rw [List.length_drop] at hlong
        omega
  | cons ch t =>
    rw [htext] at hround
    dsimp only at hround
    have hmem : ch ∈ text := List.mem_of_mem_drop (htext ▸ List.mem_cons_self)
    have hhere (e : UInt8) (he : .escaped e ∈ partsOf byte (pattern.drop s.pi)) :
        e = byte '\\' ∨ ch ≠ byte '\\' :=
      (hescape e (h.parts.subset he)).imp_right fun hnot heq => hnot (heq ▸ hmem)
    rcases tryMatch_cases hhere with ⟨htry, hnot⟩ | ⟨htry, -⟩ | ⟨n, _, _, htry, -⟩
    · rw [htry] at hround
      cases hstar : s.star with
      | none =>
        rw [hstar] at hround
        cases hround
        refine iff_of_false Bool.false_ne_true ?_
        rintro (hanswer | ⟨spi, sti, k, hstar', -⟩)
        · exact hnot t (htext ▸ hanswer)
        · rw [hstar] at hstar'
          cases hstar'
      | some x =>
        rw [hstar] at hround
        cases hround
    · rw [htry] at hround
      cases hround
    · rw [htry] at hround
      cases hround

lemma run_iff_answer (h : s.Inv pattern text) :
    s.run pattern text = true ↔ s.Answer pattern text := by
  induction s using run.induct pattern text with
  | case1 s s' hround ih =>
    obtain ⟨h', hanswer⟩ := answer_round hescape h hround
    rw [run_of_inl hround, ih h', hanswer]
  | case2 s result hround =>
    rw [run_of_inr hround]
    exact result_iff_answer hescape h hround

end Round

end Cursor

/-- The loop finds every match, unless a backslash can stand for an escape and for itself. -/
theorem globMatchImpl_iff (hescape : ∀ e, .escaped e ∈ partsOf byte pattern →
    e = byte '\\' ∨ byte '\\' ∉ text) :
    globMatchImpl pattern text = true ↔ Matches (pieces pattern) text := by
  unfold globMatchImpl
  rw [Cursor.run_iff_answer hescape Cursor.inv_start]
  constructor
  · rintro (h | ⟨spi, sti, k, hstar, -⟩)
    · exact h
    · cases hstar
  · exact .inl

/-! ### Exhaustive backtracking -/

lemma pieces_cons {part : Part UInt8} {more : List UInt8}
    (h : partsOf byte pattern = part :: partsOf byte more) :
    pieces pattern = part.piece :: pieces more := by
  unfold pieces
  rw [h, List.map_cons]

/-- No escape without a backslash. -/
lemma escaped_not_mem (h : byte '\\' ∉ pattern) (e : UInt8) :
    .escaped e ∉ partsOf byte pattern := by
  induction pattern using partsOf.induct byte with
  | case1 => simp
  | case2 => exact absurd List.mem_cons_self h
  | case3 e' rest ih => exact absurd List.mem_cons_self h
  | case4 rest hne ih =>
    rw [partsOf_star marks_byte]
    simp [ih (List.not_mem_of_not_mem_cons h)]
  | case5 rest hne hne' ih =>
    rw [partsOf_one marks_byte]
    simp [ih (List.not_mem_of_not_mem_cons h)]
  | case6 rest b rest' hbracket _ _ _ ih =>
    have hrest : byte '\\' ∉ rest' := fun hmem =>
      h (List.mem_cons_of_mem _ ((bracketOf_suffix hbracket).subset hmem))
    rw [partsOf_opening marks_byte, hbracket]
    simp [ih hrest]
  | case7 rest hbracket _ _ _ ih =>
    rw [partsOf_opening marks_byte, hbracket]
    simp [ih (List.not_mem_of_not_mem_cons h)]
  | case8 a rest hescape hstar hone hopening ih =>
    rw [partsOf_literal hescape hstar hone hopening]
    simp [ih (List.not_mem_of_not_mem_cons h)]

lemma exhaustive_iff (h : byte '\\' ∉ pattern) :
    exhaustive pattern text = true ↔ Matches (pieces pattern) text := by
  induction pattern, text using exhaustive.induct with
  | case1 text => simp [exhaustive, pieces]
  | case2 c rest ih =>
    have hrest := ih (List.not_mem_of_not_mem_cons h)
    rw [exhaustive, Bool.and_eq_true, decide_eq_true_iff, hrest]
    by_cases hstar : c = byte '*'
    · subst hstar
      rw [pieces_cons (partsOf_star marks_byte)]
      simp [Part.piece, matches_run_iff]
    · obtain ⟨accepts, more, hpieces⟩ := exists_letter rest hstar
      rw [hpieces]
      simp [hstar]
  | case3 rest ch text ih ih' =>
    rw [exhaustive, if_pos rfl, Bool.or_eq_true, ih (List.not_mem_of_not_mem_cons h), ih' h,
      pieces_cons (partsOf_star marks_byte)]
    exact matches_run_cons_iff.symm
  | case4 rest ch text hstar ih =>
    rw [exhaustive, if_neg hstar, if_pos rfl, ih (List.not_mem_of_not_mem_cons h),
      pieces_cons (partsOf_one marks_byte)]
    simp [Part.piece]
  | case5 rest ch text n hstar hone hmatch ih =>
    rw [exhaustive, if_neg hstar, if_neg hone, if_pos rfl, hmatch]
    dsimp only
    cases hbracket : bracketOf byte rest with
    | none =>
      rw [matchBracket_of_bracketOf_none hbracket] at hmatch
      cases hmatch
    | some x =>
      obtain ⟨b, rest'⟩ := x
      obtain ⟨n', hmatch', hn'⟩ := matchBracket_of_bracketOf hbracket ch
      rw [hmatch] at hmatch'
      obtain ⟨haccepts, rfl⟩ := Prod.mk.inj (Option.some.inj hmatch')
      have hrest : byte '\\' ∉ (byte '[' :: rest).drop n := fun hmem =>
        h (List.mem_of_mem_drop hmem)
      have hcut : partsOf byte (byte '[' :: rest) = .bracket b :: partsOf byte rest' := by
        rw [partsOf_opening marks_byte, hbracket]
      rw [ih hrest, hn', pieces_cons hcut]
      simp [Part.piece, ← haccepts]
  | case6 rest ch text hstar hone hmatch =>
    have hfalse : exhaustive (byte '[' :: rest) (ch :: text) = false := by
      rw [exhaustive, if_neg hstar, if_neg hone, if_pos rfl]
      split
      · rename_i n heq
        exact (hmatch n heq).elim
      · rfl
    rw [hfalse]
    refine iff_of_false Bool.false_ne_true ?_
    cases hbracket : bracketOf byte rest with
    | none =>
      have hcut : partsOf byte (byte '[' :: rest) = .unclosed :: partsOf byte rest := by
        rw [partsOf_opening marks_byte, hbracket]
      exact not_matches_of_reject hcut rfl rfl text
    | some x =>
      obtain ⟨b, rest'⟩ := x
      obtain ⟨n, hmatch', -⟩ := matchBracket_of_bracketOf hbracket ch
      have hcut : partsOf byte (byte '[' :: rest) = .bracket b :: partsOf byte rest' := by
        rw [partsOf_opening marks_byte, hbracket]
      cases haccepts : b.accepts byte ch with
      | false => exact not_matches_of_reject hcut rfl haccepts text
      | true =>
        rw [haccepts] at hmatch'
        exact (hmatch n hmatch').elim
  | case7 rest ch text hstar hone hopening ih =>
    have hescape : ch ≠ byte '\\' := fun heq => h (heq ▸ List.mem_cons_self)
    rw [exhaustive, if_neg hstar, if_neg hone, if_neg hopening, if_pos rfl,
      ih (List.not_mem_of_not_mem_cons h),
      pieces_cons (partsOf_literal hescape hstar hone hopening)]
    simp [Part.piece]
  | case8 c rest ch text hstar hone hopening hliteral =>
    have hescape : c ≠ byte '\\' := fun heq => h (heq ▸ List.mem_cons_self)
    rw [exhaustive, if_neg hstar, if_neg hone, if_neg hopening, if_neg hliteral]
    exact iff_of_false Bool.false_ne_true
      (not_matches_of_reject (partsOf_literal hescape hstar hone hopening) rfl
        (decide_eq_false hliteral) text)

/-- The loop ends, and finds what exhaustive backtracking finds. -/
theorem globMatchImpl_eq_exhaustive (pattern text : List UInt8) (h : byte '\\' ∉ pattern) :
    (∃ n, Cursor.start.rounds pattern text n = .inr (globMatchImpl pattern text)) ∧
      globMatchImpl pattern text = exhaustive pattern text := by
  refine ⟨Cursor.exists_rounds .start, ?_⟩
  rw [Bool.eq_iff_iff, exhaustive_iff h,
    globMatchImpl_iff fun e he => absurd he (escaped_not_mem h e)]

/-- The pattern `*[ab]*b` and the text `xaab`. -/
theorem globMatchImpl_eq_exhaustive_twoStars :
    let pattern := ['*', '[', 'a', 'b', ']', '*', 'b'].map byte
    let text := ['x', 'a', 'a', 'b'].map byte
    byte '\\' ∉ pattern ∧
      (∃ n, Cursor.start.rounds pattern text n = .inr (globMatchImpl pattern text)) ∧
      globMatchImpl pattern text = exhaustive pattern text :=
  ⟨by decide, globMatchImpl_eq_exhaustive _ _ (by decide)⟩

end AmlaSandbox.Shell
