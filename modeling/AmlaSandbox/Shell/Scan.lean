import AmlaSandbox.Library.Reachability
import AmlaSandbox.Shell.Boundary

/-!
# Scanning an input

The tokens of an input are read by calls of `next` until the end of the input or an error. A
comment is skipped byte by byte, so a scan ends unless it comes to a comment with a longer
character.
-/

namespace AmlaSandbox.Shell

open Text Library

variable {input rest : Text} {pos pos' : ℕ} {c : Char}

/-! ### Skipped characters -/

section

variable {p : Char → Bool} {body : ℕ → Char → Text → Unit → Option (Flow Unit)}

/-- A loop that skips characters of one byte each. -/
lemma whileChars_skip
    (hbody : ∀ pos c rest,
      body pos c rest () = if p c then some (.next (pos + 1) ()) else some (.stop pos ()))
    (h : sliceFrom input pos = some rest) (hone : ∀ c ∈ rest.takeWhile p, c.utf8Size = 1) :
    whileChars input always body pos () = some (pos + byteLen (rest.takeWhile p), ()) := by
  induction rest generalizing pos with
  | nil => exact whileChars_nil h
  | cons c rest ih =>
    have hround := hbody pos c rest
    cases hp : p c with
    | true =>
      rw [hp, if_pos rfl] at hround
      rw [List.takeWhile_cons_of_pos hp] at hone ⊢
      have hc : c.utf8Size = 1 := hone c List.mem_cons_self
      have hrest := ih (sliceFrom_succ h hc) fun d hd => hone d (List.mem_cons_of_mem c hd)
      rw [whileChars_next h rfl hround pos.lt_succ_self, hrest, byteLen_cons, hc, Nat.add_assoc]
    | false =>
      rw [hp, if_neg (by simp)] at hround
      rw [List.takeWhile_cons_of_neg (by simp [hp])]
      exact whileChars_stop h rfl hround

/-- It panics inside the first longer one. -/
lemma whileChars_skip_eq_none
    (hbody : ∀ pos c rest,
      body pos c rest () = if p c then some (.next (pos + 1) ()) else some (.stop pos ()))
    (h : sliceFrom input pos = some rest) (hlong : ∃ c ∈ rest.takeWhile p, c.utf8Size ≠ 1) :
    whileChars input always body pos () = none := by
  induction rest generalizing pos with
  | nil => simp at hlong
  | cons c rest ih =>
    have hround := hbody pos c rest
    obtain ⟨d, hd, hlong⟩ := hlong
    have hp : p c := by
      by_contra hp
      simp [hp] at hd
    rw [if_pos hp] at hround
    rw [whileChars_next h rfl hround pos.lt_succ_self]
    by_cases hc : c.utf8Size = 1
    · refine ih (sliceFrom_succ h hc) ⟨d, ?_, hlong⟩
      rw [List.takeWhile_cons_of_pos hp, List.mem_cons] at hd
      obtain rfl | hd := hd
      · exact absurd hc hlong
      · exact hd
    · have hpos := c.utf8Size_pos
      have hlen := pos_add_byteLen h
      rw [byteLen_cons] at hlen
      exact whileChars_eq_none (sliceFrom_eq_none h Nat.one_pos (by omega)) (by omega) rfl

end

def isBlank (c : Char) : Bool := c = ' ' || c = '\t' || c = '\r'

lemma utf8Size_of_isBlank (h : isBlank c) : c.utf8Size = 1 := by
  simp only [isBlank, Bool.or_eq_true, decide_eq_true_eq] at h
  obtain (rfl | rfl) | rfl := h <;> rfl

lemma skipWhitespace_eq (h : sliceFrom input pos = some rest) :
    skipWhitespace input pos = some (pos + byteLen (rest.takeWhile isBlank)) := by
  rw [skipWhitespace, whileChars_skip (p := isBlank) _ h]
  · rfl
  · exact fun c hc => utf8Size_of_isBlank (List.mem_takeWhile_imp hc)
  · intro pos c rest
    simp [isBlank, or_assoc]

lemma sliceFrom_dropWhile (p : Char → Bool) (h : sliceFrom input pos = some rest) :
    sliceFrom input (pos + byteLen (rest.takeWhile p)) = some (rest.dropWhile p) :=
  sliceFrom_add (by rwa [List.takeWhile_append_dropWhile])

/-- The characters of the line. -/
def line (rest : Text) : Text := rest.takeWhile (· ≠ '\n')

lemma skipComment_eq (h : sliceFrom input pos = some rest)
    (hone : ∀ c ∈ line rest, c.utf8Size = 1) :
    skipComment input pos = some (pos + byteLen (line rest)) := by
  rw [skipComment, whileChars_skip (p := (· ≠ '\n')) _ h hone]
  · rfl
  · intro pos c rest
    by_cases hc : c = '\n' <;> simp [hc]

lemma skipComment_eq_none (h : sliceFrom input pos = some rest)
    (hlong : ∃ c ∈ line rest, c.utf8Size ≠ 1) : skipComment input pos = none := by
  rw [skipComment, whileChars_skip_eq_none (p := (· ≠ '\n')) _ h hlong]
  · rfl
  · intro pos c rest
    by_cases hc : c = '\n' <;> simp [hc]

/-! ### Operators -/

lemma tryLexFdDup_eq_some {remaining : Text} {token : Token} {len : ℕ}
    (h : tryLexFdDup remaining = some (token, len)) :
    ∃ a b, remaining = a ++ b ∧ len = byteLen a ∧ 0 < len := by
  simp only [tryLexFdDup] at h
  split_ifs at h
  split at h
  · rename_i rest hdrop
    split_ifs at h
    split at h
    · obtain ⟨rfl, rfl⟩ := Prod.mk.inj (Option.some.inj h)
      refine ⟨remaining.takeWhile Char.isDigit ++ '>' :: '&' :: rest.takeWhile Char.isDigit,
        rest.dropWhile Char.isDigit, ?_, ?_, by omega⟩
      · simp [List.takeWhile_append_dropWhile, ← hdrop]
      · have hgreater : '>'.utf8Size = 1 := rfl
        have hamp : '&'.utf8Size = 1 := rfl
        rw [byteLen_append, byteLen_cons, byteLen_cons, hgreater, hamp]
        omega
    · cases h
  · cases h

lemma exists_of_operator {a : Text} {token token' : Token} {n len : ℕ}
    (h : some (token', n) = some (token, len)) (ha : n = byteLen a) (hn : 0 < n) :
    ∃ a' b, a ++ rest = a' ++ b ∧ len = byteLen a' ∧ 0 < len := by
  obtain ⟨rfl, rfl⟩ := Prod.mk.inj (Option.some.inj h)
  exact ⟨a, rest, rfl, ha, hn⟩

/-- An operator takes whole characters. -/
lemma lexOperator_eq_some {remaining : Text} {token : Token} {len : ℕ}
    (h : lexOperator remaining = some (token, len)) :
    ∃ a b, remaining = a ++ b ∧ len = byteLen a ∧ 0 < len := by
  unfold lexOperator at h
  split at h
  · exact exists_of_operator (a := ['&', '&']) h rfl Nat.two_pos
  · exact exists_of_operator (a := ['|', '|']) h rfl Nat.two_pos
  · exact exists_of_operator (a := ['>', '>']) h rfl Nat.two_pos
  · exact exists_of_operator (a := ['&', '>']) h rfl Nat.two_pos
  · split at h
    · rename_i dup hdup
      obtain rfl := Option.some.inj h
      exact tryLexFdDup_eq_some hdup
    · split at h
      · exact exists_of_operator (a := ['2', '>', '>']) h rfl (Nat.succ_pos 2)
      · exact exists_of_operator (a := ['2', '>']) h rfl Nat.two_pos
      · cases h

lemma lexSingle_eq_some {token : Token} (h : lexSingle c = some token) : c.utf8Size = 1 := by
  unfold lexSingle at h
  split_ifs at h with h₁ h₂ h₃ h₄ h₅ h₆ h₇ h₈
  all_goals subst_vars; rfl

/-- What is neither blank nor an operator does not end a word. -/
lemma isTerminator_eq_false (hblank : isBlank c = false) (hsingle : lexSingle c = none) :
    isTerminator c = false := by
  unfold lexSingle at hsingle
  split_ifs at hsingle
  simp only [isBlank, Bool.or_eq_false_iff, decide_eq_false_iff_not] at hblank
  simp_all [isTerminator]

/-! ### One token -/

/-- In a comment where the next token starts, all characters of the line have one byte. -/
def AsciiComment (rest : Text) : Prop :=
  ∀ comment, rest.dropWhile isBlank = '#' :: comment → ∀ c ∈ line comment, c.utf8Size = 1

variable {comment rest' : Text}

lemma nextToken_hash (h : sliceFrom input pos = some rest)
    (hrest : rest.dropWhile isBlank = '#' :: comment) :
    nextToken input pos =
      (skipComment input (pos + byteLen (rest.takeWhile isBlank))).bind fun pos' =>
        if pos < byteLen input ∧ pos < pos' then nextToken input pos' else none := by
  have hstart := sliceFrom_dropWhile isBlank h
  rw [hrest] at hstart
  have hoperator : lexOperator ('#' :: comment) = none := by
    simp [lexOperator, tryLexFdDup, List.takeWhile]
  rw [nextToken, skipWhitespace_eq h]
  dsimp only
  rw [if_neg (not_le.mpr (lt_byteLen hstart)), hstart]
  dsimp only
  rw [hoperator]
  dsimp only
  rw [if_neg (by simp)]
  rw [show lexSingle '#' = none from rfl]
  dsimp only
  rw [if_pos rfl]
  cases skipComment input (pos + byteLen (rest.takeWhile isBlank)) <;> rfl

/-- A comment of longer characters is not skipped. -/
lemma nextToken_eq_none (h : sliceFrom input pos = some rest) (hcomment : ¬AsciiComment rest) :
    nextToken input pos = none := by
  simp only [AsciiComment, not_forall] at hcomment
  obtain ⟨comment, hrest, c, hc, hlong⟩ := hcomment
  have hstart := sliceFrom_dropWhile isBlank h
  rw [hrest] at hstart
  rw [nextToken_hash h hrest, skipComment_eq_none hstart ⟨c, ?_, hlong⟩, Option.bind_none]
  rw [line, List.takeWhile_cons_of_pos (by rfl)]
  exact List.mem_cons_of_mem '#' hc

lemma not_of_dropWhile_eq_cons {p : Char → Bool} (h : rest.dropWhile p = c :: rest') :
    p c = false := by
  have hhead := List.head_dropWhile_not p (l := rest) (by simp [h])
  simpa only [h, List.head_cons] using hhead

/-- Behind a comment stands the end of its line. -/
lemma asciiComment_dropWhile : AsciiComment (rest.dropWhile (· ≠ '\n')) := by
  intro comment hdrop
  cases hrest : rest.dropWhile (· ≠ '\n') with
  | nil =>
    rw [hrest] at hdrop
    cases hdrop
  | cons c rest' =>
    obtain rfl : c = '\n' := by simpa using not_of_dropWhile_eq_cons hrest
    rw [hrest, List.dropWhile_cons_of_neg (by decide)] at hdrop
    simp at hdrop

lemma nextToken_nil (h : sliceFrom input pos = some rest) (hrest : rest.dropWhile isBlank = []) :
    nextToken input pos = some (.ok .eof, byteLen input) := by
  have hstart := sliceFrom_dropWhile isBlank h
  rw [hrest] at hstart
  have hend := pos_add_byteLen hstart
  rw [byteLen_nil, Nat.add_zero] at hend
  rw [nextToken, skipWhitespace_eq h]
  dsimp only
  rw [if_pos hend.ge, hend]

/-- A token that is no comment reads something. -/
lemma nextToken_cons (h : sliceFrom input pos = some rest)
    (hrest : rest.dropWhile isBlank = c :: rest') (hhash : c ≠ '#') :
    ∃ r ∈ nextToken input pos, pos < r.2 ∧ Boundary input r.2 := by
  have hstart := sliceFrom_dropWhile isBlank h
  have hblank := not_of_dropWhile_eq_cons hrest
  have hle := Nat.le_add_right pos (byteLen (rest.takeWhile isBlank))
  rw [nextToken, skipWhitespace_eq h]
  dsimp only
  rw [hrest] at hstart
  rw [if_neg (not_le.mpr (lt_byteLen hstart)), hstart]
  dsimp only
  cases hoperator : lexOperator (c :: rest') with
  | some operator =>
    obtain ⟨token, len⟩ := operator
    obtain ⟨a, b, heq, rfl, hlen⟩ := lexOperator_eq_some hoperator
    rw [heq] at hstart
    exact ⟨_, rfl, hle.trans_lt (Nat.lt_add_of_pos_right hlen), _, sliceFrom_add hstart⟩
  | none =>
    dsimp only
    by_cases hheredoc : c = '<' ∧ rest'.head? = some '<'
    · rw [if_pos hheredoc]
      obtain ⟨rfl, hhead⟩ := hheredoc
      obtain ⟨rest', rfl⟩ := List.head?_eq_some_iff.mp hhead
      obtain ⟨r, hr, hlt, hb⟩ := lexHeredoc_ahead hstart
      exact ⟨r, hr, hle.trans_lt hlt, hb⟩
    · rw [if_neg hheredoc]
      cases hsingle : lexSingle c with
      | some token =>
        obtain ⟨hlt, hb⟩ := lt_succ hstart (lexSingle_eq_some hsingle)
        exact ⟨_, rfl, hle.trans_lt hlt, hb⟩
      | none =>
        dsimp only
        rw [if_neg hhash]
        obtain ⟨pos', token, hword, hlt, hb⟩ :=
          lexWord_ahead hstart (isTerminator_eq_false hblank hsingle)
        exact ⟨_, hword, hle.trans_lt hlt, hb⟩

theorem nextToken_ahead (h : sliceFrom input pos = some rest) (hcomment : AsciiComment rest) :
    ∃ r ∈ nextToken input pos, (r.1 = .ok .eof ∨ pos < r.2) ∧ Boundary input r.2 := by
  induction hn : byteLen input - pos using Nat.strong_induction_on generalizing pos rest with
  | _ n ih =>
    have hstart := sliceFrom_dropWhile isBlank h
    have hle := Nat.le_add_right pos (byteLen (rest.takeWhile isBlank))
    cases hrest : rest.dropWhile isBlank with
    | nil => exact ⟨_, nextToken_nil h hrest, .inl rfl, boundary_byteLen⟩
    | cons c rest' =>
      by_cases hhash : c = '#'
      · obtain rfl := hhash
        rw [hrest] at hstart
        have hone : ∀ c ∈ line ('#' :: rest'), c.utf8Size = 1 := by
          rw [line, List.takeWhile_cons_of_pos (by rfl), List.forall_mem_cons]
          exact ⟨rfl, hcomment rest' hrest⟩
        have hbehind : sliceFrom input (pos + byteLen (rest.takeWhile isBlank) +
            byteLen (line ('#' :: rest'))) = some _ := sliceFrom_dropWhile (· ≠ '\n') hstart
        have hlt : 0 < byteLen (line ('#' :: rest')) := by
          rw [line, List.takeWhile_cons_of_pos (by rfl), byteLen_cons]
          exact Nat.lt_add_right _ (Char.utf8Size_pos '#')
        have hin := lt_byteLen hstart
        rw [nextToken_hash h hrest, skipComment_eq hstart hone, Option.bind_some,
          if_pos ⟨by omega, by omega⟩]
        obtain ⟨r, hr, hread, hb⟩ := ih _ (by omega) hbehind asciiComment_dropWhile rfl
        exact ⟨r, hr, hread.imp_right fun hr => by omega, hb⟩
      · obtain ⟨r, hr, hlt, hb⟩ := nextToken_cons h hrest hhash
        exact ⟨r, hr, .inr hlt, hb⟩

/-- What is found at a character that begins no comment. -/
lemma exists_of_nextToken {rest' : Text} (h : sliceFrom input pos = some rest)
    (hrest : rest.dropWhile isBlank = c :: rest') (hhash : c ≠ '#')
    {r : Except ShellError Token × ℕ} (hr : nextToken input pos = some r) :
    (∃ e, r.1 = .error e) ∨
      ∃ token, r.1 = .ok token ∧ token ≠ .eof ∧ (token = .newline → c = '\n') := by
  have hoperator {token : Token} (htoken : token.isOperator = true) :
      token ≠ .eof ∧ (token = .newline → c = '\n') := by
    constructor
    · rintro rfl
      cases htoken
    · rintro rfl
      cases htoken
  have hstart := sliceFrom_dropWhile isBlank h
  rw [hrest] at hstart
  have hin := lt_byteLen hstart
  rw [nextToken, skipWhitespace_eq h] at hr
  dsimp only at hr
  rw [if_neg (not_le.mpr hin), hstart] at hr
  dsimp only at hr
  split at hr
  · rename_i token len hfound
    cases hr
    exact .inr ⟨token, rfl, hoperator (isOperator_of_lexOperator hfound)⟩
  · split_ifs at hr with hheredoc
    · obtain herror | ⟨content, stripTabs, hdoc⟩ := exists_of_lexHeredoc hr
      · exact .inl herror
      · exact .inr ⟨_, hdoc, by simp, by simp⟩
    · split at hr
      · rename_i token hfound
        cases hr
        obtain htoken | ⟨hbreak, rfl⟩ := isOperator_of_lexSingle hfound
        · exact .inr ⟨token, rfl, hoperator htoken⟩
        · exact .inr ⟨_, rfl, by simp, fun _ => hbreak⟩
      · rw [lexWord] at hr
        obtain ⟨⟨pos, segments, text⟩, -, heq⟩ := Option.map_eq_some_iff.mp hr
        cases heq
        exact .inr ⟨_, rfl, by simp, by simp⟩

/-- The end is found behind blanks and comments only. -/
lemma nextToken_ne_eof {rest' : Text} (h : sliceFrom input pos = some rest)
    (hrest : rest.dropWhile isBlank = c :: rest') (hhash : c ≠ '#')
    {r : Except ShellError Token × ℕ} (hr : nextToken input pos = some r) : r.1 ≠ .ok .eof := by
  obtain ⟨e, herror⟩ | ⟨token, htoken, hne, -⟩ := exists_of_nextToken h hrest hhash hr
  · rw [herror]
    exact nofun
  · rw [htoken]
    exact fun heq => hne (Except.ok.inj heq)

/-- A line break is found at a line break only. -/
lemma nextToken_ne_newline {rest' : Text} (h : sliceFrom input pos = some rest)
    (hrest : rest.dropWhile isBlank = c :: rest') (hhash : c ≠ '#') (hc : c ≠ '\n')
    {r : Except ShellError Token × ℕ} (hr : nextToken input pos = some r) :
    r.1 ≠ .ok .newline := by
  obtain ⟨e, herror⟩ | ⟨token, htoken, -, hbreak⟩ := exists_of_nextToken h hrest hhash hr
  · rw [herror]
    exact nofun
  · rw [htoken]
    exact fun heq => hc (hbreak (Except.ok.inj heq))

/-! ### Scans -/

/-- The token that a call of `next` takes; `eof` ends a scan. -/
def Takes (lexer : Lexer) (token : Token) (lexer' : Lexer) : Prop :=
  lexer.next = some (.ok token, lexer')

/-- Calls of `next` end in `eof` or in an error, at character boundaries, and each token before
reads something. -/
inductive Scans : Lexer → Prop
  | eof {lexer lexer' : Lexer} : Takes lexer .eof lexer' → Boundary lexer'.input lexer'.pos →
      Scans lexer
  | error {lexer lexer' : Lexer} {e : ShellError} : lexer.next = some (.error e, lexer') →
      Boundary lexer'.input lexer'.pos → Scans lexer
  | token {lexer lexer' : Lexer} {token : Token} : token ≠ .eof → Takes lexer token lexer' →
      lexer.pos < lexer'.pos → Boundary lexer'.input lexer'.pos → Scans lexer' → Scans lexer

namespace Lexer

/-- The comment that the lexer comes to, if any, has characters of one byte only. -/
def AsciiComment (lexer : Lexer) : Prop :=
  ∀ rest ∈ sliceFrom lexer.input lexer.pos, Shell.AsciiComment rest

/-- A lexer of which only `next` has been called. -/
def Fresh (lexer : Lexer) : Prop := lexer.peeked = none ∧ Boundary lexer.input lexer.pos

variable {lexer lexer' : Lexer} {token : Token}

lemma next_eq (h : lexer.peeked = none) :
    lexer.next =
      (nextToken lexer.input lexer.pos).map fun r => (r.1, { lexer with pos := r.2 }) := by
  rw [next, h]

lemma asciiComment_of_next (h : lexer.Fresh) (hnext : lexer.next ≠ none) :
    lexer.AsciiComment := by
  intro rest hrest
  by_contra hcomment
  apply hnext
  rw [next_eq h.1, nextToken_eq_none hrest hcomment, Option.map_none]

/-- A call returns, and reads something before the end. -/
lemma next_ahead (h : lexer.Fresh) (hcomment : lexer.AsciiComment) :
    ∃ result lexer', lexer.next = some (result, lexer') ∧ lexer'.input = lexer.input ∧
      lexer'.Fresh ∧ (result = .ok .eof ∨ lexer.pos < lexer'.pos) := by
  obtain ⟨hpeeked, rest, hrest⟩ := h
  obtain ⟨r, hr, hread, hb⟩ := nextToken_ahead hrest (hcomment rest hrest)
  exact ⟨r.1, { lexer with pos := r.2 }, by rw [next_eq hpeeked, hr, Option.map_some], rfl,
    ⟨hpeeked, hb⟩, hread⟩

end Lexer

variable {lexer lexer' : Lexer} {token : Token}

namespace Scans

lemma next_ne_none (h : Scans lexer) : lexer.next ≠ none := by
  cases h with
  | eof htakes _ => exact Option.ne_none_iff_exists'.mpr ⟨_, htakes⟩
  | error herror _ => exact Option.ne_none_iff_exists'.mpr ⟨_, herror⟩
  | token _ htakes _ _ _ => exact Option.ne_none_iff_exists'.mpr ⟨_, htakes⟩

/-- What a scan comes to is scanned. -/
lemma of_takes (h : Scans lexer) (htoken : token ≠ .eof) (htakes : Takes lexer token lexer') :
    Scans lexer' ∧ Boundary lexer'.input lexer'.pos := by
  cases h with
  | eof heof _ =>
    obtain ⟨hok, -⟩ := Prod.mk.inj (Option.some.inj (htakes.symm.trans heof))
    exact absurd (Except.ok.inj hok) htoken
  | error herror _ => cases htakes.symm.trans herror
  | token _ htakes' _ hb hrest =>
    obtain ⟨-, rfl⟩ := Prod.mk.inj (Option.some.inj (htakes.symm.trans htakes'))
    exact ⟨hrest, hb⟩

end Scans

lemma peeked_of_takes (h : lexer.peeked = none) (htakes : Takes lexer token lexer') :
    lexer'.peeked = none := by
  rw [Takes, Lexer.next_eq h] at htakes
  obtain ⟨r, -, heq⟩ := Option.map_eq_some_iff.mp htakes
  rw [← (Prod.mk.inj heq).2]
  exact h

lemma scans_of_asciiComment (hfresh : lexer.Fresh)
    (h : ∀ lexer', Reach Takes (fun _ token => token ≠ .eof) lexer lexer' →
      lexer'.AsciiComment) : Scans lexer := by
  induction hn : byteLen lexer.input - lexer.pos using Nat.strong_induction_on
    generalizing lexer with
  | _ n ih =>
    obtain ⟨result, lexer', hnext, hinput, hfresh', hread⟩ :=
      Lexer.next_ahead hfresh (h lexer .refl)
    cases result with
    | error e => exact .error hnext hfresh'.2
    | ok token =>
      by_cases heof : token = .eof
      · obtain rfl := heof
        exact .eof hnext hfresh'.2
      · have hlt : lexer.pos < lexer'.pos := by
          obtain hok | hlt := hread
          · exact absurd (Except.ok.inj hok) heof
          · exact hlt
        refine .token heof hnext hlt hfresh'.2 (ih _ ?_ hfresh' ?_ rfl)
        · obtain ⟨rest, hrest⟩ := hfresh'.2
          have hlen := pos_add_byteLen hrest
          rw [hinput] at hlen ⊢
          omega
        · intro lexer'' hreach
          exact h lexer'' ((Reach.tail .refl heof hnext).trans hreach)

/-- A scan ends if, and only if, the comments that it comes to have characters of one byte only. -/
theorem scans_iff (input : Text) :
    Scans (Lexer.new input) ↔
      ∀ lexer, Reach Takes (fun _ token => token ≠ .eof) (Lexer.new input) lexer →
        lexer.AsciiComment := by
  have hnew : (Lexer.new input).Fresh := ⟨rfl, boundary_zero⟩
  constructor
  · intro h lexer hreach
    have hscans : Scans lexer ∧ lexer.Fresh := by
      refine hreach.invariant (I := fun s => Scans s ∧ s.Fresh) ⟨h, hnew⟩ ?_
      rintro s token s' ⟨hs, hfresh⟩ htoken htakes
      obtain ⟨hs', hb⟩ := hs.of_takes htoken htakes
      exact ⟨hs', peeked_of_takes hfresh.1 htakes, hb⟩
    exact Lexer.asciiComment_of_next hscans.2 hscans.1.next_ne_none
  · exact scans_of_asciiComment hnew

/-- A comment with an accent ends no scan: the lexer panics inside the accented letter. -/
theorem not_scans_accent : ¬Scans (Lexer.new "# é".toList) := by
  intro h
  have hnone : (Lexer.new "# é".toList).next = none := by decide +kernel
  exact h.next_ne_none hnone

end AmlaSandbox.Shell
