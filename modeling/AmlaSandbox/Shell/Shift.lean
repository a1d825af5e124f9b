import AmlaSandbox.Shell.Grammar

/-!
# What the lexer looks at

The lexer never looks back: at a position behind a front it reads the tokens of what is left, as if
there were no front. Only the positions in its errors are shifted.
-/

namespace AmlaSandbox.Shell

open Text

section

variable {front s : Text} {pos : ℕ}

lemma sliceFrom_shift : sliceFrom (front ++ s) (byteLen front + pos) = sliceFrom s pos := by
  induction front with
  | nil => simp
  | cons c front ih =>
    have hpos := c.utf8Size_pos
    obtain ⟨n, hn⟩ : ∃ n, byteLen (c :: front) + pos = n + 1 := by
      rw [byteLen_cons]
      exact ⟨c.utf8Size + byteLen front + pos - 1, by omega⟩
    have hlen : n + 1 - c.utf8Size = byteLen front + pos := by
      rw [← hn, byteLen_cons]
      omega
    rw [hn, List.cons_append, sliceFrom, if_neg, hlen, ih]
    rw [← hn, byteLen_cons]
    omega

lemma slice_shift {a b : ℕ} :
    slice (front ++ s) (byteLen front + a) (byteLen front + b) = slice s a b := by
  rw [slice, slice, sliceFrom_shift, Nat.add_sub_add_left]

end

/-! ### Loops -/

def Flow.shift {α : Type} (k : ℕ) : Flow α → Flow α
  | .next pos a => .next (k + pos) a
  | .stop pos a => .stop (k + pos) a

/-- A position, and what was read up to there. -/
def shifted {α : Type} (k : ℕ) (r : ℕ × α) : ℕ × α := (k + r.1, r.2)

variable {α : Type} {front input : Text} {pos : ℕ} {c : Char}

lemma whileChars_shift {cond : α → Bool} {body body' : ℕ → Char → Text → α → Option (Flow α)}
    (hbody : ∀ pos c rest a,
      body' (byteLen front + pos) c rest a = (body pos c rest a).map (.shift (byteLen front)))
    (pos : ℕ) (a : α) :
    whileChars (front ++ input) cond body' (byteLen front + pos) a =
      (whileChars input cond body pos a).map (shifted (byteLen front)) := by
  induction hn : byteLen input - pos using Nat.strong_induction_on generalizing pos a with
  | _ n ih =>
    rw [whileChars, whileChars, sliceFrom_shift, byteLen_append]
    simp only [Nat.add_lt_add_iff_left]
    split_ifs with hgo
    · cases hslice : sliceFrom input pos with
      | none => rfl
      | some rest =>
        cases rest with
        | nil => rfl
        | cons c rest =>
          dsimp only
          rw [hbody]
          cases hround : body pos c rest a with
          | none => rfl
          | some flow =>
            cases flow with
            | next pos' a' =>
              simp only [Option.map_some, Flow.shift, Nat.add_lt_add_iff_left]
              split_ifs with hlt
              · exact ih _ (by omega) pos' a' rfl
              · rfl
            | stop pos' a' => rfl
    · rfl

/-- A loop without values. -/
lemma map_fst_shift {x y : Option (ℕ × α)} (h : x = y.map (shifted (byteLen front))) :
    x.map Prod.fst = (y.map Prod.fst).map (byteLen front + ·) := by
  rw [h, Option.map_map, Option.map_map]
  rfl

lemma skipWhitespace_shift : skipWhitespace (front ++ input) (byteLen front + pos) =
    (skipWhitespace input pos).map (byteLen front + ·) := by
  refine map_fst_shift (whileChars_shift ?_ pos ())
  intro pos c rest a
  split_ifs <;> rfl

lemma skipComment_shift : skipComment (front ++ input) (byteLen front + pos) =
    (skipComment input pos).map (byteLen front + ·) := by
  refine map_fst_shift (whileChars_shift ?_ pos ())
  intro pos c rest a
  split_ifs <;> rfl

lemma skipBlanks_shift : skipBlanks (front ++ input) (byteLen front + pos) =
    (skipBlanks input pos).map (byteLen front + ·) := by
  refine map_fst_shift (whileChars_shift ?_ pos ())
  intro pos c rest a
  split_ifs <;> rfl

/-! ### Quotes and substitutions -/

lemma copySingleQuoted_shift (content : Text) :
    copySingleQuoted (front ++ input) (byteLen front + pos) content =
      (copySingleQuoted input pos content).map (shifted (byteLen front)) := by
  refine whileChars_shift ?_ pos content
  intro pos c rest content
  split_ifs <;> simp only [Option.map_some, Flow.shift, Nat.add_assoc]

lemma copyDoubleQuoted_shift (content : Text) :
    copyDoubleQuoted (front ++ input) (byteLen front + pos) content =
      (copyDoubleQuoted input pos content).map (shifted (byteLen front)) := by
  refine whileChars_shift ?_ pos content
  intro pos c rest content
  simp only [byteLen_append, Nat.add_assoc, Nat.add_lt_add_iff_left, sliceFrom_shift]
  split_ifs
  · rfl
  · split <;> simp only [Option.map_some, Option.map_none, Flow.shift]
  · rfl

lemma lexCommandSubstitution_shift :
    lexCommandSubstitution (front ++ input) (byteLen front + pos) =
      (lexCommandSubstitution input pos).map (shifted (byteLen front)) := by
  unfold lexCommandSubstitution
  rw [whileChars_shift]
  · rw [Option.map_map, Option.map_map]
    rfl
  rintro pos c rest ⟨content, depth⟩
  simp only [byteLen_append, Nat.add_assoc, Nat.add_lt_add_iff_left, sliceFrom_shift,
    copySingleQuoted_shift, copyDoubleQuoted_shift]
  split_ifs with hopen hclose hdepth hnested hsingle hdouble hbackslash hend
  · rfl
  · rfl
  · rfl
  · rfl
  · rw [Option.map_map, Option.map_map]
    rfl
  · rw [Option.map_map, Option.map_map]
    rfl
  · split <;> simp only [Option.map_some, Option.map_none, Flow.shift]
  · rfl
  · rfl

lemma lexSingleQuoted_shift :
    lexSingleQuoted (front ++ input) (byteLen front + pos) =
      (lexSingleQuoted input pos).map (shifted (byteLen front)) := by
  refine whileChars_shift ?_ pos []
  intro pos c rest content
  split_ifs <;> simp only [Option.map_some, Flow.shift, Nat.add_assoc]

lemma lexDoubleQuoted_shift (segments : List WordSegment) :
    lexDoubleQuoted (front ++ input) (byteLen front + pos) segments =
      (lexDoubleQuoted input pos segments).map (shifted (byteLen front)) := by
  refine whileChars_shift ?_ pos (segments, [])
  rintro pos c rest ⟨segments, quotedText⟩
  simp only [byteLen_append, Nat.add_assoc, Nat.add_lt_add_iff_left, sliceFrom_shift,
    lexCommandSubstitution_shift]
  split_ifs with hquote hdollar hempty hbackslash hend
  · rfl
  · rw [Option.map_map, Option.map_map]
    rfl
  · rw [Option.map_map, Option.map_map]
    rfl
  · split <;> simp only [Option.map_some, Option.map_none, Flow.shift]
  · rfl
  · rfl

/-! ### Words -/

lemma lexWordRound_shift (pos : ℕ) (c : Char) (rest : Text) (segments : List WordSegment)
    (text : Text) :
    lexWordRound (front ++ input) (byteLen front + pos) c rest segments text =
      (lexWordRound input pos c rest segments text).map (.shift (byteLen front)) := by
  unfold lexWordRound
  simp only [byteLen_append, Nat.add_assoc, Nat.add_lt_add_iff_left, sliceFrom_shift,
    lexSingleQuoted_shift, lexDoubleQuoted_shift, lexCommandSubstitution_shift]
  split_ifs with hend hbackslash hlast hsingle hdouble hdollar
  · rfl
  · split <;> simp only [Option.map_some, Option.map_none, Flow.shift]
  · rfl
  · rw [Option.map_map, Option.map_map]
    rfl
  · rw [Option.map_map, Option.map_map]
    rfl
  · rw [Option.map_map, Option.map_map]
    rfl
  · rfl

def ShellError.shift (k : ℕ) : ShellError → ShellError
  | .syntaxError message position => .syntaxError message (k + position)
  | .expected wanted got position => .expected wanted got (k + position)
  | .expectedWord got position => .expectedWord got (k + position)

/-- The result of a lexer behind a front. -/
def shiftedResult {β : Type} (k : ℕ) (r : Except ShellError β × ℕ) : Except ShellError β × ℕ :=
  (r.1.mapError (.shift k), k + r.2)

lemma lexWord_shift : lexWord (front ++ input) (byteLen front + pos) =
    (lexWord input pos).map (shiftedResult (byteLen front)) := by
  unfold lexWord
  rw [whileChars_shift fun pos c rest a => lexWordRound_shift pos c rest a.1 a.2]
  rw [Option.map_map, Option.map_map]
  rfl

/-! ### Here documents -/

lemma readQuotedDelimiter_shift (quote : Char) :
    readQuotedDelimiter (front ++ input) quote (byteLen front + pos) =
      (readQuotedDelimiter input quote pos).map (shifted (byteLen front)) := by
  refine whileChars_shift ?_ pos ([], false)
  intro pos c rest a
  simp only [Nat.add_assoc]
  split_ifs <;> rfl

lemma readPlainDelimiter_shift :
    readPlainDelimiter (front ++ input) (byteLen front + pos) =
      (readPlainDelimiter input pos).map (shifted (byteLen front)) := by
  refine whileChars_shift ?_ pos []
  intro pos c rest a
  simp only [Nat.add_assoc]
  split_ifs <;> rfl

lemma readHeredocDelimiter_shift :
    readHeredocDelimiter (front ++ input) (byteLen front + pos) =
      (readHeredocDelimiter input pos).map (shiftedResult (byteLen front)) := by
  unfold readHeredocDelimiter
  simp only [byteLen_append, Nat.add_assoc, Nat.add_le_add_iff_left, sliceFrom_shift,
    readQuotedDelimiter_shift, readPlainDelimiter_shift]
  split_ifs
  · rfl
  · split
    · split_ifs
      · rw [Option.map_map, Option.map_map]
        congr 1
        funext r
        obtain ⟨pos, delimiter, closed⟩ := r
        cases closed <;> rfl
      · rw [Option.map_map, Option.map_map]
        rfl
    · rfl

lemma skipLineBreak_shift (endPos : ℕ) :
    skipLineBreak (front ++ input) (byteLen front + endPos) =
      (skipLineBreak input endPos).map (byteLen front + ·) := by
  unfold skipLineBreak
  simp only [byteLen_append, Nat.add_lt_add_iff_left, sliceFrom_shift]
  split_ifs
  · rw [Option.map_map]
    congr 1
    funext rest
    dsimp only [Function.comp_apply]
    split_ifs <;> rfl
  · rfl

lemma lexHeredocBody_shift (delimiter : Text) (stripTabs : Bool) :
    lexHeredocBody (front ++ input) delimiter stripTabs (byteLen front + pos) =
      (lexHeredocBody input delimiter stripTabs pos).map (shiftedResult (byteLen front)) := by
  unfold lexHeredocBody
  simp only [Nat.add_assoc, sliceFrom_shift, skipLineBreak_shift, slice_shift]
  cases sliceFrom input pos with
  | none => rfl
  | some remaining =>
    simp only [Option.bind_eq_bind, Option.bind_some]
    split
    · rfl
    · rename_i n _
      cases sliceFrom input (pos + (n + 1)) with
      | none => rfl
      | some remaining =>
        simp only [Option.bind_some]
        split
        · rfl
        · rename_i lineStart lineLen _
          cases skipLineBreak input (pos + (n + (1 + (lineStart + lineLen)))) with
          | none => rfl
          | some endPos =>
            simp only [Option.bind_some, Option.map_some]
            cases slice input (pos + (n + 1)) (pos + (n + (1 + lineStart))) <;> rfl

lemma lexHeredoc_shift : lexHeredoc (front ++ input) (byteLen front + pos) =
    (lexHeredoc input pos).map (shiftedResult (byteLen front)) := by
  unfold lexHeredoc
  simp only [Nat.add_assoc, sliceFrom_shift]
  cases sliceFrom input (pos + 2) with
  | none => rfl
  | some remaining =>
    simp only [Option.bind_eq_bind, Option.bind_some]
    rw [← apply_ite (byteLen front + ·), skipBlanks_shift]
    cases skipBlanks input (if remaining.head? = some '-' then pos + (2 + 1) else pos + 2) with
    | none => rfl
    | some pos =>
      simp only [Option.map_some, Option.bind_some]
      rw [readHeredocDelimiter_shift]
      cases readHeredocDelimiter input pos with
      | none => rfl
      | some r =>
        obtain ⟨result, pos⟩ := r
        cases result with
        | error e => rfl
        | ok delimiter =>
          simp only [Option.map_some, Option.bind_some, shiftedResult, Except.mapError]
          split_ifs
          · rfl
          · exact lexHeredocBody_shift delimiter.1 _

/-! ### Tokens -/

lemma nextToken_shift : nextToken (front ++ input) (byteLen front + pos) =
    (nextToken input pos).map (shiftedResult (byteLen front)) := by
  induction hn : byteLen input - pos using Nat.strong_induction_on generalizing pos with
  | _ n ih =>
    rw [nextToken, nextToken, skipWhitespace_shift]
    cases skipWhitespace input pos with
    | none => rfl
    | some start =>
      simp only [Option.map_some, byteLen_append, Nat.add_le_add_iff_left, sliceFrom_shift]
      split_ifs
      · rfl
      · split
        · rename_i c rest hslice
          split
          · simp only [Option.map_some, shiftedResult, Nat.add_assoc]
            rfl
          · split_ifs
            · exact lexHeredoc_shift
            · split
              · rfl
              · rw [skipComment_shift]
                cases skipComment input start with
                | none => rfl
                | some next =>
                  simp only [Option.map_some, Nat.add_lt_add_iff_left]
                  split_ifs with hlt
                  · exact ih _ (by omega) rfl
                  · rfl
            · split
              · rfl
              · exact lexWord_shift
        · rfl

/-! ### Lexers -/

/-- The same lexer behind a front. -/
def Lexer.shift (front : Text) (lexer : Lexer) : Lexer :=
  { lexer with input := front ++ lexer.input, pos := byteLen front + lexer.pos }

variable {lexer m : Lexer} {token : Token} {ts : List Token}

lemma takes_shift : Takes (lexer.shift front) token m ↔
    ∃ lexer', Takes lexer token lexer' ∧ m = lexer'.shift front := by
  cases hpeeked : lexer.peeked with
  | some t =>
    have hnext : lexer.next = some (.ok t, { lexer with peeked := none }) := by
      rw [Lexer.next, hpeeked]
    have hnext' : (lexer.shift front).next =
        some (.ok t, { lexer with peeked := none }.shift front) := by
      simp only [Lexer.next, Lexer.shift, hpeeked]
    simp only [Takes, hnext, hnext', Option.some.injEq, Prod.mk.injEq, Except.ok.injEq]
    constructor
    · rintro ⟨rfl, rfl⟩
      exact ⟨_, ⟨rfl, rfl⟩, rfl⟩
    · rintro ⟨_, ⟨rfl, rfl⟩, rfl⟩
      exact ⟨rfl, rfl⟩
  | none =>
    rw [Takes, Lexer.next_eq (by exact hpeeked), Lexer.shift]
    simp only [Takes, Lexer.next_eq hpeeked, nextToken_shift]
    cases nextToken lexer.input lexer.pos with
    | none => simp
    | some r =>
      obtain ⟨result, pos⟩ := r
      cases result with
      | error e => simp [shiftedResult, Except.mapError]
      | ok t =>
        simp only [Option.map_some, shiftedResult, Except.mapError, Option.some.injEq,
          Prod.mk.injEq, Except.ok.injEq]
        constructor
        · rintro ⟨rfl, rfl⟩
          exact ⟨_, ⟨rfl, rfl⟩, rfl⟩
        · rintro ⟨_, ⟨rfl, rfl⟩, rfl⟩
          exact ⟨rfl, rfl⟩

/-- Behind a front the same tokens are read. -/
theorem lexes_shift : Lexes (lexer.shift front) ts ↔ Lexes lexer ts := by
  constructor
  · intro h
    generalize hm : lexer.shift front = m at h
    induction h generalizing lexer with
    | eof htakes =>
      subst hm
      obtain ⟨lexer', htakes', -⟩ := takes_shift.mp htakes
      exact .eof htakes'
    | token htoken htakes _ ih =>
      subst hm
      obtain ⟨lexer', htakes', rfl⟩ := takes_shift.mp htakes
      exact .token htoken htakes' (ih rfl)
  · intro h
    induction h with
    | eof htakes => exact .eof (takes_shift.mpr ⟨_, htakes, rfl⟩)
    | token htoken htakes _ ih => exact .token htoken (takes_shift.mpr ⟨_, htakes, rfl⟩) ih

end AmlaSandbox.Shell
