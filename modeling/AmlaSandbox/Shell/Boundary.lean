import AmlaSandbox.Shell.Lexer

/-!
# Loops between character boundaries

A loop of the lexer whose rounds go from one character boundary to a later one returns, at a
boundary. Of the rounds, only the one over a comment does not.
-/

namespace AmlaSandbox.Shell

open Text

section

variable (input : Text)

def Boundary (pos : ℕ) : Prop := ∃ rest, sliceFrom input pos = some rest

/-- A position that is reached without going back. -/
def Ahead (pos pos' : ℕ) : Prop := pos ≤ pos' ∧ Boundary input pos'

/-- A round that goes on has read something. -/
def Flow.Ahead {α : Type} (pos : ℕ) : Flow α → Prop
  | .next pos' _ => pos < pos' ∧ Boundary input pos'
  | .stop pos' _ => Shell.Ahead input pos pos'

end

variable {α : Type} {input rest : Text} {pos pos' pos'' : ℕ} {c : Char}

/-! ### Positions -/

lemma boundary_zero : Boundary input 0 := ⟨input, by cases input <;> rfl⟩

lemma boundary_byteLen : Boundary input (byteLen input) := ⟨[], sliceFrom_byteLen⟩

namespace Ahead

lemma refl (h : Boundary input pos) : Ahead input pos pos := ⟨le_rfl, h⟩

lemma trans (h : Ahead input pos pos') (h' : Ahead input pos' pos'') : Ahead input pos pos'' :=
  ⟨h.1.trans h'.1, h'.2⟩

lemma of_lt (h : pos < pos' ∧ Boundary input pos') : Ahead input pos pos' := ⟨h.1.le, h.2⟩

end Ahead

/-- A whole character is read. -/
lemma lt_utf8Size (h : sliceFrom input pos = some (c :: rest)) :
    pos < pos + c.utf8Size ∧ Boundary input (pos + c.utf8Size) :=
  ⟨Nat.lt_add_of_pos_right c.utf8Size_pos, rest, sliceFrom_cons h⟩

lemma sliceFrom_succ (h : sliceFrom input pos = some (c :: rest)) (hc : c.utf8Size = 1) :
    sliceFrom input (pos + 1) = some rest := by
  have hcons := sliceFrom_cons h
  rwa [hc] at hcons

lemma lt_succ (h : sliceFrom input pos = some (c :: rest)) (hc : c.utf8Size = 1) :
    pos < pos + 1 ∧ Boundary input (pos + 1) := ⟨pos.lt_succ_self, rest, sliceFrom_succ h hc⟩

lemma lt_add_two {d : Char} (h : sliceFrom input pos = some (c :: rest)) (hc : c.utf8Size = 1)
    (hd : rest.head? = some d) (hd' : d.utf8Size = 1 := by rfl) :
    pos < pos + 2 ∧ Boundary input (pos + 2) := by
  obtain ⟨rest, rfl⟩ := List.head?_eq_some_iff.mp hd
  exact ⟨by omega, rest, sliceFrom_succ (sliceFrom_succ h hc) hd'⟩

/-- Before the end of the input a boundary has a character behind it. -/
lemma Boundary.exists_cons (h : Boundary input pos) (hlt : pos < byteLen input) :
    ∃ c rest, sliceFrom input pos = some (c :: rest) := by
  obtain ⟨rest, h⟩ := h
  cases rest with
  | nil => exact absurd rfl ((pos_lt_iff h).mp hlt)
  | cons c rest => exact ⟨c, rest, h⟩

lemma lt_byteLen (h : sliceFrom input pos = some (c :: rest)) : pos < byteLen input :=
  (pos_lt_iff h).mpr (by simp)

/-- The character behind a backslash is read as well. -/
lemma exists_escaped (h : pos < pos' ∧ Boundary input pos') (hend : pos' < byteLen input) :
    ∃ esc rest, sliceFrom input pos' = some (esc :: rest) ∧
      pos < pos' + esc.utf8Size ∧ Boundary input (pos' + esc.utf8Size) := by
  obtain ⟨esc, rest, hslice⟩ := h.2.exists_cons hend
  obtain ⟨hlt, hb⟩ := lt_utf8Size hslice
  exact ⟨esc, rest, hslice, h.1.trans hlt, hb⟩

/-! ### Loops -/

section

variable {cond : α → Bool} {body : ℕ → Char → Text → α → Option (Flow α)} {a a' : α}

lemma whileChars_nil (h : sliceFrom input pos = some []) :
    whileChars input cond body pos a = some (pos, a) := by
  have hlt : ¬pos < byteLen input := by simp [pos_lt_iff h]
  rw [whileChars, if_neg (by simp [hlt])]

lemma whileChars_stop (h : sliceFrom input pos = some (c :: rest)) (hcond : cond a)
    (hbody : body pos c rest a = some (.stop pos' a')) :
    whileChars input cond body pos a = some (pos', a') := by
  rw [whileChars, if_pos ⟨lt_byteLen h, hcond⟩]
  simp only [h, hbody]

lemma whileChars_next (h : sliceFrom input pos = some (c :: rest)) (hcond : cond a)
    (hbody : body pos c rest a = some (.next pos' a')) (hlt : pos < pos') :
    whileChars input cond body pos a = whileChars input cond body pos' a' := by
  rw [whileChars, if_pos ⟨lt_byteLen h, hcond⟩]
  simp only [h, hbody, if_pos hlt]

/-- Off a boundary a loop panics. -/
lemma whileChars_eq_none (h : sliceFrom input pos = none) (hlt : pos < byteLen input)
    (hcond : cond a) : whileChars input cond body pos a = none := by
  rw [whileChars, if_pos ⟨hlt, hcond⟩]
  simp only [h]

/-- A loop whose rounds go from boundary to boundary returns. -/
theorem whileChars_ahead
    (hbody : ∀ pos c rest a, sliceFrom input pos = some (c :: rest) →
      ∃ flow ∈ body pos c rest a, flow.Ahead input pos)
    (hpos : Boundary input pos) (a : α) :
    ∃ r ∈ whileChars input cond body pos a, Ahead input pos r.1 := by
  induction hn : byteLen input - pos using Nat.strong_induction_on generalizing pos a with
  | _ n ih =>
    by_cases hgo : pos < byteLen input ∧ cond a
    · obtain ⟨hlt, hcond⟩ := hgo
      obtain ⟨c, rest, h⟩ := hpos.exists_cons hlt
      obtain ⟨flow, hflow, hahead⟩ := hbody pos c rest a h
      cases flow with
      | next pos' a' =>
        have hless : byteLen input - pos' < n := by
          have hlt' := hahead.1
          omega
        rw [whileChars_next h hcond hflow hahead.1]
        obtain ⟨r, hr, hrest⟩ := ih _ hless hahead.2 a' rfl
        exact ⟨r, hr, (Ahead.of_lt hahead).trans hrest⟩
      | stop pos' a' => exact ⟨_, whileChars_stop h hcond hflow, hahead⟩
    · rw [whileChars, if_neg hgo]
      exact ⟨_, rfl, .refl hpos⟩

end

/-! ### Quotes and substitutions -/

lemma map_ahead {β γ : Type} {x : Option (ℕ × β)} {f : ℕ × β → ℕ × γ}
    (h : ∃ r ∈ x, Ahead input pos r.1) (hf : ∀ r, (f r).1 = r.1) :
    ∃ r ∈ x.map f, Ahead input pos r.1 := by
  obtain ⟨r, hr, hahead⟩ := h
  exact ⟨f r, Option.mem_map_of_mem f hr, (hf r).symm ▸ hahead⟩

lemma fst_ahead {x : Option (ℕ × α)} (h : ∃ r ∈ x, Ahead input pos r.1) :
    ∃ r ∈ x.map Prod.fst, Ahead input pos r := by
  obtain ⟨r, hr, hahead⟩ := h
  exact ⟨r.1, Option.mem_map_of_mem _ hr, hahead⟩

/-- What goes on where an inner loop ends. -/
lemma next_ahead {β γ : Type} {x : Option (ℕ × β)} {f : ℕ × β → γ} {g : ℕ → α → γ}
    (h : ∃ r ∈ x, Ahead input pos' r.1) (hlt : pos < pos') (hf : ∀ r, ∃ a, f r = g r.1 a) :
    ∃ pos' a, x.map f = some (g pos' a) ∧ pos < pos' ∧ Boundary input pos' := by
  obtain ⟨r, hr, hle, hb⟩ := h
  obtain ⟨a, ha⟩ := hf r
  exact ⟨r.1, a, by rw [hr, Option.map_some, ha], hlt.trans_le hle, hb⟩

lemma copySingleQuoted_ahead (hpos : Boundary input pos) (content : Text) :
    ∃ r ∈ copySingleQuoted input pos content, Ahead input pos r.1 := by
  apply whileChars_ahead _ hpos
  intro pos c rest content h
  split_ifs
  · exact ⟨_, rfl, .of_lt (lt_utf8Size h)⟩
  · exact ⟨_, rfl, lt_utf8Size h⟩

lemma copyDoubleQuoted_ahead (hpos : Boundary input pos) (content : Text) :
    ∃ r ∈ copyDoubleQuoted input pos content, Ahead input pos r.1 := by
  apply whileChars_ahead _ hpos
  intro pos c rest content h
  have hc := lt_utf8Size h
  dsimp only
  split_ifs with hquote hesc
  · exact ⟨_, rfl, .of_lt hc⟩
  · obtain ⟨esc, rest', hslice, hahead⟩ := exists_escaped hc hesc.2
    rw [hslice]
    exact ⟨_, rfl, hahead⟩
  · exact ⟨_, rfl, hc⟩

lemma lexCommandSubstitution_ahead (hpos : Boundary input pos) :
    ∃ r ∈ lexCommandSubstitution input pos, Ahead input pos r.1 := by
  refine map_ahead (whileChars_ahead ?_ hpos _) fun _ => rfl
  rintro pos c rest ⟨content, depth⟩ h
  dsimp only
  split_ifs with hopen hclose hdepth hnested hsingle hdouble hbackslash hend
  · exact ⟨_, rfl, lt_succ h (by rw [hopen]; rfl)⟩
  · exact ⟨_, rfl, lt_succ h (by rw [hclose]; rfl)⟩
  · exact ⟨_, rfl, lt_succ h (by rw [hclose]; rfl)⟩
  · exact ⟨_, rfl, lt_add_two h (by rw [hnested.1]; rfl) hnested.2⟩
  · obtain ⟨hlt, hb⟩ := lt_succ h (by rw [hsingle]; rfl)
    obtain ⟨pos', a, hnext, hahead⟩ :=
      next_ahead (g := Flow.next) (copySingleQuoted_ahead hb _) hlt fun _ => ⟨_, rfl⟩
    exact ⟨_, hnext, hahead⟩
  · obtain ⟨hlt, hb⟩ := lt_succ h (by rw [hdouble]; rfl)
    obtain ⟨pos', a, hnext, hahead⟩ :=
      next_ahead (g := Flow.next) (copyDoubleQuoted_ahead hb _) hlt fun _ => ⟨_, rfl⟩
    exact ⟨_, hnext, hahead⟩
  · obtain ⟨esc, rest', hslice, hahead⟩ :=
      exists_escaped (lt_succ h (by rw [hbackslash]; rfl)) hend
    rw [hslice]
    exact ⟨_, rfl, hahead⟩
  · exact ⟨_, rfl, lt_succ h (by rw [hbackslash]; rfl)⟩
  · exact ⟨_, rfl, lt_utf8Size h⟩

/-! ### Here documents -/

lemma findDelimiter_eq_some {delimiter : Text} {stripTabs : Bool} {lines : List Text}
    {offset lineStart lineLen : ℕ}
    (h : findDelimiter delimiter stripTabs offset lines = some (lineStart, lineLen)) :
    ∃ front line back, lines = front ++ line :: back ∧
      lineStart = offset + byteLen (front.flatMap (· ++ ['\n'])) ∧ lineLen = byteLen line := by
  induction lines generalizing offset with
  | nil => cases h
  | cons line lines ih =>
    unfold findDelimiter at h
    extract_lets trimmed at h
    split at h
    · obtain ⟨rfl, rfl⟩ := Prod.mk.inj (Option.some.inj h)
      exact ⟨[], line, lines, rfl, rfl, rfl⟩
    · obtain ⟨front, found, back, rfl, rfl, rfl⟩ := ih h
      refine ⟨line :: front, found, back, rfl, ?_, rfl⟩
      have hbreak : '\n'.utf8Size = 1 := rfl
      simp only [List.flatMap_cons, byteLen_append, byteLen_cons, byteLen_nil, hbreak]
      omega

lemma skipBlanks_ahead (hpos : Boundary input pos) :
    ∃ r ∈ skipBlanks input pos, Ahead input pos r := by
  refine fst_ahead (whileChars_ahead ?_ hpos _)
  intro pos c rest _ h
  split_ifs with hblank
  · have hc : c.utf8Size = 1 := by obtain rfl | rfl := hblank <;> rfl
    exact ⟨_, rfl, lt_succ h hc⟩
  · exact ⟨_, rfl, Ahead.refl ⟨_, h⟩⟩

lemma readQuotedDelimiter_ahead (hc : c.utf8Size = 1) (hpos : Boundary input pos) :
    ∃ r ∈ readQuotedDelimiter input c pos, Ahead input pos r.1 := by
  apply whileChars_ahead _ hpos
  intro pos d rest _ h
  dsimp only
  split_ifs with hquote
  · exact ⟨_, rfl, .of_lt (lt_succ h (by rw [hquote, hc]))⟩
  · exact ⟨_, rfl, lt_utf8Size h⟩

lemma readPlainDelimiter_ahead (hpos : Boundary input pos) :
    ∃ r ∈ readPlainDelimiter input pos, Ahead input pos r.1 := by
  apply whileChars_ahead _ hpos
  intro pos c rest delimiter h
  split_ifs
  · exact ⟨_, rfl, Ahead.refl ⟨_, h⟩⟩
  · exact ⟨_, rfl, lt_utf8Size h⟩

lemma readHeredocDelimiter_ahead (hpos : Boundary input pos) :
    ∃ r ∈ readHeredocDelimiter input pos, Ahead input pos r.2 := by
  rw [readHeredocDelimiter]
  split_ifs with hend
  · exact ⟨_, rfl, .refl hpos⟩
  · obtain ⟨c, rest, h⟩ := hpos.exists_cons (not_le.mp hend)
    rw [h]
    dsimp only
    split_ifs with hquote
    · have hc : c.utf8Size = 1 := by obtain rfl | rfl := hquote <;> rfl
      obtain ⟨r, hr, hahead⟩ := readQuotedDelimiter_ahead hc (lt_succ h hc).2
      obtain ⟨pos', delimiter, closed⟩ := r
      rw [hr]
      refine ⟨_, rfl, ?_⟩
      have hle := (Ahead.of_lt (lt_succ h hc)).trans hahead
      cases closed <;> exact hle
    · obtain ⟨r, hr, hahead⟩ := readPlainDelimiter_ahead hpos
      rw [hr]
      exact ⟨_, rfl, hahead⟩

lemma skipLineBreak_ahead (hpos : Boundary input pos) :
    ∃ r ∈ skipLineBreak input pos, Ahead input pos r := by
  rw [skipLineBreak]
  split_ifs with hlt
  · obtain ⟨c, rest, h⟩ := hpos.exists_cons hlt
    rw [h, Option.map_some, List.head?_cons]
    split_ifs with hbreak
    · exact ⟨_, rfl, .of_lt (lt_succ h (by rw [Option.some.inj hbreak]; rfl))⟩
    · exact ⟨_, rfl, .refl hpos⟩
  · exact ⟨_, rfl, .refl hpos⟩

lemma lexHeredocBody_ahead (hpos : Boundary input pos) (delimiter : Text) (stripTabs : Bool) :
    ∃ r ∈ lexHeredocBody input delimiter stripTabs pos, Ahead input pos r.2 := by
  have hrefl := Ahead.refl hpos
  obtain ⟨remaining, h⟩ := hpos
  simp only [lexHeredocBody, h, Option.bind_eq_bind, Option.bind_some]
  cases hfind : find '\n' remaining with
  | none => exact ⟨_, rfl, hrefl⟩
  | some n =>
    obtain ⟨a, content, rfl, rfl⟩ := find_eq_some hfind
    have hcontent : sliceFrom input (pos + byteLen a + 1) = some content :=
      sliceFrom_succ (sliceFrom_add h) rfl
    simp only [hcontent, Option.bind_some]
    cases hdelimiter : findDelimiter delimiter stripTabs 0 (content.splitOn '\n') with
    | none => exact ⟨_, rfl, hrefl⟩
    | some found =>
      obtain ⟨lineStart, lineLen⟩ := found
      obtain ⟨front, line, back, hlines, rfl, rfl⟩ := findDelimiter_eq_some hdelimiter
      have hcut : content =
          front.flatMap (· ++ ['\n']) ++ (line ++ back.flatMap (['\n'] ++ ·)) := by
        rw [← intercalate_append_cons, ← hlines, List.intercalate_splitOn]
      rw [hcut] at hcontent
      have hline := sliceFrom_add hcontent
      have hback := sliceFrom_add hline
      obtain ⟨endPos, hend, hahead⟩ := skipLineBreak_ahead ⟨_, hback⟩
      have hslice := slice_append hcontent
      simp only [Nat.zero_add, hslice, Option.bind_some]
      rw [hend]
      exact ⟨_, rfl, Ahead.trans ⟨by omega, _, hback⟩ hahead⟩

lemma lexHeredoc_ahead (h : sliceFrom input pos = some ('<' :: '<' :: rest)) :
    ∃ r ∈ lexHeredoc input pos, pos < r.2 ∧ Boundary input r.2 := by
  have hrest : sliceFrom input (pos + 2) = some rest := sliceFrom_succ (sliceFrom_succ h rfl) rfl
  have hstrip : Ahead input (pos + 2) (if rest.head? = some '-' then pos + 2 + 1 else pos + 2) := by
    split_ifs with hdash
    · obtain ⟨rest, rfl⟩ := List.head?_eq_some_iff.mp hdash
      exact .of_lt (lt_succ hrest rfl)
    · exact .refl ⟨_, hrest⟩
  obtain ⟨blanks, hblanks, hahead₁⟩ := skipBlanks_ahead hstrip.2
  obtain ⟨⟨result, pos'⟩, hdelimiter, hahead₂⟩ := readHeredocDelimiter_ahead hahead₁.2
  have hahead := (hstrip.trans hahead₁).trans hahead₂
  have hlt : ∀ {p}, Ahead input pos' p → pos < p ∧ Boundary input p := by
    intro p hp
    have hle := (hahead.trans hp).1
    exact ⟨by omega, hp.2⟩
  simp only [lexHeredoc, hrest, Option.bind_eq_bind, Option.bind_some]
  rw [hblanks, Option.bind_some, hdelimiter, Option.bind_some]
  cases result with
  | error e => exact ⟨_, rfl, hlt (.refl hahead.2)⟩
  | ok delimiter =>
    dsimp only
    split_ifs
    · exact ⟨_, rfl, hlt (.refl hahead.2)⟩
    · obtain ⟨r, hr, hbody⟩ := lexHeredocBody_ahead hahead.2 delimiter.1 (rest.head? = some '-')
      exact ⟨r, hr, hlt hbody⟩

/-! ### Words -/

lemma lexSingleQuoted_ahead (hpos : Boundary input pos) :
    ∃ r ∈ lexSingleQuoted input pos, Ahead input pos r.1 := by
  apply whileChars_ahead _ hpos
  intro pos c rest quotedText h
  split_ifs with hquote
  · exact ⟨_, rfl, .of_lt (lt_succ h (by rw [hquote]; rfl))⟩
  · exact ⟨_, rfl, lt_utf8Size h⟩

lemma lexDoubleQuoted_ahead (hpos : Boundary input pos) (segments : List WordSegment) :
    ∃ r ∈ lexDoubleQuoted input pos segments, Ahead input pos r.1 := by
  apply whileChars_ahead _ hpos
  rintro pos c rest ⟨segments, quotedText⟩ h
  dsimp only
  split_ifs with hquote hdollar _ hbackslash hend
  · exact ⟨_, rfl, .of_lt (lt_succ h (by rw [hquote]; rfl))⟩
  · obtain ⟨hlt, hb⟩ := lt_add_two h (by rw [hdollar.1]; rfl) hdollar.2
    obtain ⟨pos', a, hnext, hahead⟩ :=
      next_ahead (g := Flow.next) (lexCommandSubstitution_ahead hb) hlt fun _ => ⟨_, rfl⟩
    exact ⟨_, hnext, hahead⟩
  · obtain ⟨hlt, hb⟩ := lt_add_two h (by rw [hdollar.1]; rfl) hdollar.2
    obtain ⟨pos', a, hnext, hahead⟩ :=
      next_ahead (g := Flow.next) (lexCommandSubstitution_ahead hb) hlt fun _ => ⟨_, rfl⟩
    exact ⟨_, hnext, hahead⟩
  · obtain ⟨esc, rest', hslice, hahead⟩ :=
      exists_escaped (lt_succ h (by rw [hbackslash]; rfl)) hend
    rw [hslice]
    exact ⟨_, rfl, hahead⟩
  · exact ⟨_, rfl, lt_succ h (by rw [hbackslash]; rfl)⟩
  · exact ⟨_, rfl, lt_utf8Size h⟩

/-- A round that reads no terminator goes on. -/
lemma lexWordRound_next (h : sliceFrom input pos = some (c :: rest)) (hc : isTerminator c = false)
    (segments : List WordSegment) (text : Text) :
    ∃ pos' a, lexWordRound input pos c rest segments text = some (.next pos' a) ∧ pos < pos' ∧
      Boundary input pos' := by
  rw [lexWordRound, if_neg (by simp [hc])]
  dsimp only
  split_ifs with hbackslash hend hsingle hdouble hdollar
  · obtain ⟨hlt, hb⟩ := lt_succ h (by rw [hbackslash]; rfl)
    obtain ⟨escaped, rest', hslice⟩ := hb.exists_cons hend
    obtain ⟨hlt', hb'⟩ := lt_utf8Size hslice
    rw [hslice]
    exact ⟨_, _, rfl, hlt.trans hlt', hb'⟩
  · exact ⟨_, _, rfl, lt_succ h (by rw [hbackslash]; rfl)⟩
  · obtain ⟨hlt, hb⟩ := lt_succ h (by rw [hsingle]; rfl)
    exact next_ahead (g := Flow.next) (lexSingleQuoted_ahead hb) hlt fun _ => ⟨_, rfl⟩
  · obtain ⟨hlt, hb⟩ := lt_succ h (by rw [hdouble]; rfl)
    exact next_ahead (g := Flow.next) (lexDoubleQuoted_ahead hb _) hlt fun _ => ⟨_, rfl⟩
  · obtain ⟨hlt, hb⟩ := lt_add_two h (by rw [hdollar.1]; rfl) hdollar.2
    exact next_ahead (g := Flow.next) (lexCommandSubstitution_ahead hb) hlt fun _ => ⟨_, rfl⟩
  · exact ⟨_, _, rfl, lt_utf8Size h⟩

lemma lexWordRound_ahead (h : sliceFrom input pos = some (c :: rest))
    (segments : List WordSegment) (text : Text) :
    ∃ flow ∈ lexWordRound input pos c rest segments text, flow.Ahead input pos := by
  cases hc : isTerminator c with
  | true => exact ⟨_, if_pos hc, Ahead.refl ⟨_, h⟩⟩
  | false =>
    obtain ⟨pos', a, hround, hahead⟩ := lexWordRound_next h hc segments text
    exact ⟨_, hround, hahead⟩

/-- A word reads something, as it starts with no terminator. -/
lemma lexWord_ahead (h : sliceFrom input pos = some (c :: rest)) (hc : isTerminator c = false) :
    ∃ pos' token, lexWord input pos = some (.ok token, pos') ∧ pos < pos' ∧
      Boundary input pos' := by
  obtain ⟨pos', a, hround, hlt, hb⟩ := lexWordRound_next h hc [] []
  rw [lexWord, whileChars_next h rfl hround hlt]
  refine next_ahead (g := fun pos (token : Token) => (Except.ok token, pos)) ?_ hlt
    fun _ => ⟨_, rfl⟩
  exact whileChars_ahead (fun _ _ _ a h => lexWordRound_ahead h a.1 a.2) hb a

end AmlaSandbox.Shell
