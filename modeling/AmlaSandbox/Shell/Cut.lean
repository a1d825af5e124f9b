import AmlaSandbox.Shell.Heredoc

/-!
# Where a line ends

A token that ends in its line does not depend on what is behind the line: a lexer of the line alone
reads the same token.
-/

namespace AmlaSandbox.Shell

open Text

/-- Where a round ends. -/
def Flow.pos {α : Type} : Flow α → ℕ
  | .next pos _ => pos
  | .stop pos _ => pos

variable {l s : Text} {pos pos' : ℕ}

/-- What is left of a text, at a position of its first line. -/
lemma sliceFrom_line {rest : Text} (h : sliceFrom (l ++ s) pos = some rest)
    (hpos : pos ≤ byteLen l) : ∃ rest', sliceFrom l pos = some rest' ∧ rest = rest' ++ s := by
  obtain ⟨a, heq, rfl⟩ := exists_of_sliceFrom h
  obtain ⟨m, rfl, hm⟩ | ⟨m, rfl, rfl⟩ := List.append_eq_append_iff.mp heq
  · rw [byteLen_append] at hpos
    obtain rfl : m = [] := byteLen_eq_zero.mp (by omega)
    exact ⟨[], by rw [List.append_nil]; exact sliceFrom_byteLen, hm.symm⟩
  · exact ⟨m, sliceFrom_append, rfl⟩

/-- Behind a character of the line the line goes on, or it ends. -/
lemma head?_line (rest : Text) {c : Char} (hc : c ≠ '\n') :
    (rest ++ '\n' :: s).head? = some c ↔ rest.head? = some c := by
  cases rest with
  | nil => simp [hc.symm]
  | cons d rest => rfl

/-! ### Loops -/

section

variable {α : Type}

variable {cond : α → Bool} {body body' : ℕ → Char → Text → α → Option (Flow α)} {a a' : α}

lemma le_of_whileChars {input : Text}
    (hstop : ∀ pos c rest a pos' a', body pos c rest a = some (.stop pos' a') → pos ≤ pos')
    (h : whileChars input cond body pos a = some (pos', a')) : pos ≤ pos' := by
  induction hn : byteLen input - pos using Nat.strong_induction_on generalizing pos a with
  | _ n ih =>
    rw [whileChars] at h
    split_ifs at h with hgo
    · cases hslice : sliceFrom input pos with
      | none => simp [hslice] at h
      | some rest =>
        cases rest with
        | nil => simp [hslice] at h
        | cons c rest =>
          simp only [hslice] at h
          cases hround : body pos c rest a with
          | none => simp [hround] at h
          | some flow =>
            cases flow with
            | next p b =>
              simp only [hround] at h
              split_ifs at h with hlt
              exact hlt.le.trans (ih _ (by omega) h rfl)
            | stop p b =>
              simp only [hround] at h
              obtain ⟨rfl, -⟩ := Prod.mk.inj (Option.some.inj h)
              exact hstop _ _ _ _ _ _ hround
    · obtain ⟨rfl, -⟩ := Prod.mk.inj (Option.some.inj h)
      exact le_rfl

/-- A loop that ends in its line, where its rounds in the line do not look behind it and a round at
the line break, if it goes nowhere, changes nothing. -/
lemma whileChars_cut
    (hbody : ∀ pos c rest a flow, sliceFrom l pos = some (c :: rest) →
      body pos c (rest ++ '\n' :: s) a = some flow → flow.pos ≤ byteLen l →
      body' pos c rest a = some flow)
    (hend : ∀ a flow, body (byteLen l) '\n' s a = some flow → flow.pos ≤ byteLen l →
      flow = .stop (byteLen l) a)
    (hstop : ∀ pos c rest a pos' a', body pos c rest a = some (.stop pos' a') → pos ≤ pos')
    (h : whileChars (l ++ '\n' :: s) cond body pos a = some (pos', a')) (hle : pos' ≤ byteLen l) :
    whileChars l cond body' pos a = some (pos', a') := by
  induction hn : byteLen (l ++ '\n' :: s) - pos using Nat.strong_induction_on
    generalizing pos a with
  | _ n ih =>
    have hpos := (le_of_whileChars hstop h).trans hle
    rw [whileChars] at h
    split_ifs at h with hgo
    · cases hslice : sliceFrom (l ++ '\n' :: s) pos with
      | none => simp [hslice] at h
      | some rest =>
        obtain ⟨rest', hline, rfl⟩ := sliceFrom_line hslice hpos
        rw [hslice] at h
        cases rest' with
        | nil =>
          -- the round at the line break
          have hlen := pos_add_byteLen hline
          rw [byteLen_nil, Nat.add_zero] at hlen
          subst hlen
          simp only [List.nil_append] at h
          cases hround : body (byteLen l) '\n' s a with
          | none => simp [hround] at h
          | some flow =>
            have hflow : flow = .stop (byteLen l) a := by
              refine hend a flow hround ?_
              cases flow with
              | next p b =>
                simp only [hround] at h
                split_ifs at h
                exact (le_of_whileChars hstop h).trans hle
              | stop p b =>
                simp only [hround] at h
                obtain ⟨rfl, -⟩ := Prod.mk.inj (Option.some.inj h)
                exact hle
            subst hflow
            simp only [hround] at h
            rw [whileChars_nil hline, h]
        | cons c rest' =>
          simp only [List.cons_append] at h
          cases hround : body pos c (rest' ++ '\n' :: s) a with
          | none => simp [hround] at h
          | some flow =>
            cases flow with
            | next p b =>
              simp only [hround] at h
              split_ifs at h with hlt
              have hp := (le_of_whileChars hstop h).trans hle
              rw [whileChars_next hline hgo.2 (hbody _ _ _ _ _ hline hround hp) hlt]
              exact ih _ (by omega) h rfl
            | stop p b =>
              simp only [hround] at h
              obtain ⟨rfl, rfl⟩ := Prod.mk.inj (Option.some.inj h)
              exact whileChars_stop hline hgo.2 (hbody _ _ _ _ _ hline hround hle)
    · have hgo' : ¬ (pos < byteLen l ∧ cond a = true) := by
        intro hgo'
        refine hgo ⟨hgo'.1.trans_le ?_, hgo'.2⟩
        rw [byteLen_append]
        exact Nat.le_add_right ..
      rw [whileChars, if_neg hgo', h]

end

/-- A round that goes on behind the line break ends behind the line. -/
lemma not_le_of_break {α : Type} {a : α} {flow : Flow α}
    (h : some (.next (byteLen l + '\n'.utf8Size) a) = some flow) : ¬ flow.pos ≤ byteLen l := by
  obtain rfl := Option.some.inj h
  exact Nat.not_succ_le_self _

/-- What goes on where an inner loop ends in the line. -/
lemma map_cut {β γ : Type} {x y : Option (ℕ × β)} {f : ℕ × β → Flow γ} {flow : Flow γ}
    (hf : ∀ r, (f r).pos = r.1) (hxy : ∀ r, x = some r → r.1 ≤ byteLen l → y = some r)
    (h : x.map f = some flow) (hle : flow.pos ≤ byteLen l) : y.map f = some flow := by
  obtain ⟨r, hr, rfl⟩ := Option.map_eq_some_iff.mp h
  rw [hf] at hle
  rw [hxy r hr hle, Option.map_some]

/-- The character behind a backslash. -/
lemma escaped_cut {α : Type} {f : Char → α} {a : α} {flow : Flow α} {rest : Text}
    (hslice : sliceFrom l pos = some rest)
    (h : (if pos < byteLen (l ++ '\n' :: s) then
        match sliceFrom (l ++ '\n' :: s) pos with
        | some (esc :: _) => some (.next (pos + esc.utf8Size) (f esc))
        | _ => none
      else some (.next pos a)) = some flow)
    (hle : flow.pos ≤ byteLen l) :
    (if pos < byteLen l then
        match sliceFrom l pos with
        | some (esc :: _) => some (.next (pos + esc.utf8Size) (f esc))
        | _ => none
      else some (.next pos a)) = some flow := by
  have hlen := pos_add_byteLen hslice
  have hlt : pos < byteLen (l ++ '\n' :: s) := by
    rw [byteLen_append, byteLen_cons]
    have hbreak : '\n'.utf8Size = 1 := rfl
    omega
  have hfull : sliceFrom (l ++ '\n' :: s) pos = some (rest ++ '\n' :: s) := by
    obtain ⟨a, rfl, rfl⟩ := exists_of_sliceFrom hslice
    rw [List.append_assoc, sliceFrom_append]
  rw [if_pos hlt, hfull] at h
  cases rest with
  | nil =>
    rw [byteLen_nil, Nat.add_zero] at hlen
    subst hlen
    exact absurd hle (not_le_of_break h)
  | cons c rest =>
    rw [if_pos (lt_byteLen hslice), hslice]
    exact h

lemma ite_cut {β : Type} {c : Prop} [Decidable c] {x x' y y' : Option β} {b : β}
    (hx : c → x = some b → x' = some b) (hy : ¬c → y = some b → y' = some b)
    (h : (if c then x else y) = some b) : (if c then x' else y') = some b := by
  split_ifs at h ⊢ with hc
  · exact hx hc h
  · exact hy hc h

/-! ### Quotes and substitutions -/

lemma copySingleQuoted_cut {content : Text} (r : ℕ × Text)
    (h : copySingleQuoted (l ++ '\n' :: s) pos content = some r) (hle : r.1 ≤ byteLen l) :
    copySingleQuoted l pos content = some r := by
  refine whileChars_cut (fun _ _ _ _ _ _ hround _ => hround) ?_ ?_ h hle
  · intro content flow hround hle
    rw [if_neg (by decide)] at hround
    exact absurd hle (not_le_of_break hround)
  · intro pos c rest content pos' content' hround
    split_ifs at hround
    · cases hround
      exact Nat.le_add_right ..
    · cases hround

lemma copyDoubleQuoted_cut {content : Text} (r : ℕ × Text)
    (h : copyDoubleQuoted (l ++ '\n' :: s) pos content = some r) (hle : r.1 ≤ byteLen l) :
    copyDoubleQuoted l pos content = some r := by
  refine whileChars_cut ?_ ?_ ?_ h hle
  · intro pos c rest content flow hslice hround hle
    refine ite_cut (fun _ hround => hround) (fun _ hround => ?_) hround
    by_cases hbackslash : c = '\\'
    · simp only [hbackslash, true_and] at hround hslice ⊢
      exact escaped_cut (f := fun esc => content ++ ['\\'] ++ [esc]) (sliceFrom_cons hslice)
        hround hle
    · simp only [hbackslash, false_and, if_false] at hround ⊢
      exact hround
  · intro content flow hround hle
    dsimp only at hround
    rw [if_neg (by decide), if_neg (by simp)] at hround
    exact absurd hle (not_le_of_break hround)
  · intro pos c rest content pos' content' hround
    dsimp only at hround
    split_ifs at hround
    · cases hround
      exact Nat.le_add_right ..
    · split at hround <;> cases hround
    · cases hround

lemma lexCommandSubstitution_cut (r : ℕ × Text)
    (h : lexCommandSubstitution (l ++ '\n' :: s) pos = some r) (hle : r.1 ≤ byteLen l) :
    lexCommandSubstitution l pos = some r := by
  obtain ⟨⟨pos', content, depth⟩, hloop, rfl⟩ := Option.map_eq_some_iff.mp h
  refine Option.map_eq_some_iff.mpr ⟨_, whileChars_cut ?_ ?_ ?_ hloop hle, rfl⟩
  · rintro pos c rest ⟨content, depth⟩ flow hslice hround hle
    dsimp only at hround ⊢
    simp only [head?_line rest (by decide : '(' ≠ '\n')] at hround
    refine ite_cut (fun _ hround => hround) (fun _ hround => ?_) hround
    refine ite_cut (fun _ hround => hround) (fun _ hround => ?_) hround
    refine ite_cut (fun _ hround => hround) (fun _ hround => ?_) hround
    refine ite_cut (fun _ hround => ?_) (fun _ hround => ?_) hround
    · exact map_cut (fun _ => rfl) copySingleQuoted_cut hround hle
    refine ite_cut (fun _ hround => ?_) (fun _ hround => ?_) hround
    · exact map_cut (fun _ => rfl) copyDoubleQuoted_cut hround hle
    refine ite_cut (fun hbackslash hround => ?_) (fun _ hround => hround) hround
    have hbehind := sliceFrom_succ hslice (by rw [hbackslash]; rfl)
    exact escaped_cut (f := fun esc => (content ++ [c] ++ [esc], depth)) hbehind hround hle
  · rintro ⟨content, depth⟩ flow hround hle
    dsimp only at hround
    rw [if_neg (by decide), if_neg (by decide), if_neg (by simp), if_neg (by decide),
      if_neg (by decide), if_neg (by decide)] at hround
    exact absurd hle (not_le_of_break hround)
  · rintro pos c rest ⟨content, depth⟩ pos' a hround
    dsimp only at hround
    split_ifs at hround
    · cases hround
    · cases hround
    · cases hround
    · cases hround
    · obtain ⟨_, _, heq⟩ := Option.map_eq_some_iff.mp hround
      cases heq
    · obtain ⟨_, _, heq⟩ := Option.map_eq_some_iff.mp hround
      cases heq
    · split at hround <;> cases hround
    · cases hround
    · cases hround

lemma lexSingleQuoted_cut (r : ℕ × Text) (h : lexSingleQuoted (l ++ '\n' :: s) pos = some r)
    (hle : r.1 ≤ byteLen l) : lexSingleQuoted l pos = some r := by
  refine whileChars_cut (fun _ _ _ _ _ _ hround _ => hround) ?_ ?_ h hle
  · intro quotedText flow hround hle
    rw [if_neg (by decide)] at hround
    exact absurd hle (not_le_of_break hround)
  · intro pos c rest quotedText pos' quotedText' hround
    split_ifs at hround
    · cases hround
      exact Nat.le_succ _
    · cases hround

lemma lexDoubleQuoted_cut {segments : List WordSegment} (r : ℕ × List WordSegment × Text)
    (h : lexDoubleQuoted (l ++ '\n' :: s) pos segments = some r) (hle : r.1 ≤ byteLen l) :
    lexDoubleQuoted l pos segments = some r := by
  refine whileChars_cut ?_ ?_ ?_ h hle
  · rintro pos c rest ⟨segments, quotedText⟩ flow hslice hround hle
    dsimp only at hround ⊢
    simp only [head?_line rest (by decide : '(' ≠ '\n')] at hround
    refine ite_cut (fun _ hround => hround) (fun _ hround => ?_) hround
    refine ite_cut (fun _ hround => ?_) (fun _ hround => ?_) hround
    · exact map_cut (fun _ => rfl) lexCommandSubstitution_cut hround hle
    refine ite_cut (fun hbackslash hround => ?_) (fun _ hround => hround) hround
    have hbehind := sliceFrom_succ hslice (by rw [hbackslash]; rfl)
    exact escaped_cut (f := fun esc => (segments,
      if isEscapable esc then quotedText ++ [esc] else quotedText ++ ['\\', esc]))
      hbehind hround hle
  · rintro ⟨segments, quotedText⟩ flow hround hle
    dsimp only at hround
    rw [if_neg (by decide), if_neg (by simp), if_neg (by decide)] at hround
    exact absurd hle (not_le_of_break hround)
  · rintro pos c rest ⟨segments, quotedText⟩ pos' a hround
    dsimp only at hround
    split_ifs at hround
    · cases hround
      exact Nat.le_succ _
    · obtain ⟨_, _, heq⟩ := Option.map_eq_some_iff.mp hround
      cases heq
    · obtain ⟨_, _, heq⟩ := Option.map_eq_some_iff.mp hround
      cases heq
    · split at hround <;> cases hround
    · cases hround
    · cases hround

/-! ### Words -/

lemma lexWordRound_cut {c : Char} {rest : Text} {segments : List WordSegment} {text : Text}
    {flow : Flow (List WordSegment × Text)} (hslice : sliceFrom l pos = some (c :: rest))
    (h : lexWordRound (l ++ '\n' :: s) pos c (rest ++ '\n' :: s) segments text = some flow)
    (hle : flow.pos ≤ byteLen l) : lexWordRound l pos c rest segments text = some flow := by
  unfold lexWordRound at h ⊢
  simp only [head?_line rest (by decide : '(' ≠ '\n')] at h
  refine ite_cut (fun _ h => h) (fun _ h => ?_) h
  refine ite_cut (fun hbackslash h => ?_) (fun _ h => ?_) h
  · have hbehind := sliceFrom_succ hslice (by rw [hbackslash]; rfl)
    exact escaped_cut (f := fun escaped => (segments, text ++ [escaped])) hbehind h hle
  refine ite_cut (fun _ h => ?_) (fun _ h => ?_) h
  · exact map_cut (fun _ => rfl) lexSingleQuoted_cut h hle
  refine ite_cut (fun _ h => ?_) (fun _ h => ?_) h
  · exact map_cut (fun _ => rfl) lexDoubleQuoted_cut h hle
  refine ite_cut (fun _ h => ?_) (fun _ h => h) h
  exact map_cut (fun _ => rfl) lexCommandSubstitution_cut h hle

lemma lexWord_cut {r : Except ShellError Token × ℕ} (h : lexWord (l ++ '\n' :: s) pos = some r)
    (hle : r.2 ≤ byteLen l) : lexWord l pos = some r := by
  obtain ⟨⟨pos', segments, text⟩, hloop, rfl⟩ := Option.map_eq_some_iff.mp h
  refine Option.map_eq_some_iff.mpr ⟨_, whileChars_cut ?_ ?_ ?_ hloop hle, rfl⟩
  · rintro pos c rest ⟨segments, text⟩ flow hslice hround hle
    exact lexWordRound_cut hslice hround hle
  · rintro ⟨segments, text⟩ flow hround -
    exact (Option.some.inj hround).symm
  · rintro pos c rest ⟨segments, text⟩ pos' a hround
    dsimp only at hround
    unfold lexWordRound at hround
    dsimp only at hround
    split_ifs at hround
    · cases hround
      exact le_rfl
    · split at hround <;> cases hround
    · cases hround
    · obtain ⟨_, _, heq⟩ := Option.map_eq_some_iff.mp hround
      cases heq
    · obtain ⟨_, _, heq⟩ := Option.map_eq_some_iff.mp hround
      cases heq
    · obtain ⟨_, _, heq⟩ := Option.map_eq_some_iff.mp hround
      cases heq
    · cases hround

/-! ### Operators -/

/-- What a text starts with, if it has no line break, its first line starts with. -/
lemma exists_of_append_line {rest t : Text} (front : Text) (hfront : '\n' ∉ front)
    (h : rest ++ '\n' :: s = front ++ t) : ∃ t', rest = front ++ t' ∧ t = t' ++ '\n' :: s := by
  obtain ⟨m, rfl, hm⟩ | ⟨m, rfl, rfl⟩ := List.append_eq_append_iff.mp h
  · cases m with
    | nil => exact ⟨[], by rw [List.append_nil, List.append_nil], hm.symm⟩
    | cons c m =>
      obtain rfl := (List.cons.inj hm).1
      exact absurd (List.mem_append_right _ List.mem_cons_self) hfront
  · exact ⟨m, rfl, rfl⟩

lemma takeWhile_line {p : Char → Bool} (hp : p '\n' = false) (rest : Text) :
    (rest ++ '\n' :: s).takeWhile p = rest.takeWhile p := by
  induction rest with
  | nil => exact List.takeWhile_cons_of_neg (by simp [hp])
  | cons c rest ih => rw [List.cons_append, List.takeWhile_cons, List.takeWhile_cons, ih]

lemma dropWhile_line {p : Char → Bool} (hp : p '\n' = false) (rest : Text) :
    (rest ++ '\n' :: s).dropWhile p = rest.dropWhile p ++ '\n' :: s := by
  induction rest with
  | nil => exact List.dropWhile_cons_of_neg (by simp [hp])
  | cons c rest ih =>
    rw [List.cons_append, List.dropWhile_cons, List.dropWhile_cons, ih]
    split_ifs <;> rfl

lemma tryLexFdDup_line (rest : Text) : tryLexFdDup (rest ++ '\n' :: s) = tryLexFdDup rest := by
  simp only [tryLexFdDup, takeWhile_line (p := Char.isDigit) rfl,
    dropWhile_line (p := Char.isDigit) rfl]
  split_ifs
  · rfl
  · split
    · rename_i t heq
      obtain ⟨t', hrest, rfl⟩ := exists_of_append_line ['>', '&'] (by decide) heq
      simp only [hrest, List.cons_append, List.nil_append, takeWhile_line (p := Char.isDigit) rfl]
    · rename_i hother
      split
      · rename_i t heq
        exact absurd (by rw [heq]; rfl) (hother (t ++ '\n' :: s))
      · rfl

lemma prefix_line_iff {front : Text} (hfront : '\n' ∉ front) (rest : Text) :
    front <+: rest ++ '\n' :: s ↔ front <+: rest := by
  constructor
  · rintro ⟨t, heq⟩
    obtain ⟨t', rfl, -⟩ := exists_of_append_line front hfront heq.symm
    exact List.prefix_append ..
  · exact fun h => h.trans (List.prefix_append ..)

/-- The operators by what the text starts with. -/
lemma lexOperator_eq (rest : Text) :
    lexOperator rest =
      if ['&', '&'] <+: rest then some (.and, 2)
      else if ['|', '|'] <+: rest then some (.or, 2)
      else if ['>', '>'] <+: rest then some (.redirectAppend, 2)
      else if ['&', '>'] <+: rest then some (.redirectBoth, 2)
      else (tryLexFdDup rest).or
        (if ['2', '>', '>'] <+: rest then some (.redirectErrAppend, 3)
        else if ['2', '>'] <+: rest then some (.redirectErr, 2)
        else none) := by
  have hnot {front : Text} (h : ∀ t, rest = front ++ t → False) : ¬front <+: rest := by
    rintro ⟨t, heq⟩
    exact h t heq.symm
  unfold lexOperator
  split
  · rw [if_pos (by simp)]
  · rw [if_neg (by simp), if_pos (by simp)]
  · rw [if_neg (by simp), if_neg (by simp), if_pos (by simp)]
  · rw [if_neg (by simp), if_neg (by simp), if_neg (by simp), if_pos (by simp)]
  · rename_i hand hor happend hboth
    rw [if_neg (hnot hand), if_neg (hnot hor), if_neg (hnot happend), if_neg (hnot hboth)]
    cases tryLexFdDup rest with
    | some dup => rfl
    | none =>
      dsimp only [Option.none_or]
      split
      · rw [if_pos (by simp)]
      · rename_i t hthree
        have hlong : ∀ t', '2' :: '>' :: t = ['2', '>', '>'] ++ t' → False := fun t' heq =>
          hthree t' (List.cons.inj (List.cons.inj heq).2).2
        rw [if_neg (hnot hlong), if_pos (by simp)]
      · rename_i hthree htwo
        rw [if_neg (hnot hthree), if_neg (hnot htwo)]

lemma lexOperator_line (rest : Text) : lexOperator (rest ++ '\n' :: s) = lexOperator rest := by
  rw [lexOperator_eq, lexOperator_eq, tryLexFdDup_line]
  simp only [prefix_line_iff (show '\n' ∉ ['&', '&'] by decide),
    prefix_line_iff (show '\n' ∉ ['|', '|'] by decide),
    prefix_line_iff (show '\n' ∉ ['>', '>'] by decide),
    prefix_line_iff (show '\n' ∉ ['&', '>'] by decide),
    prefix_line_iff (show '\n' ∉ ['2', '>', '>'] by decide),
    prefix_line_iff (show '\n' ∉ ['2', '>'] by decide)]

/-! ### Line breaks -/

/-- A text with a line break at its front, and more behind it. -/
lemma byteLen_le_of_append_break {m t : Text} (hl : '\n' ∉ l)
    (h : l ++ '\n' :: s = m ++ '\n' :: t) : byteLen l ≤ byteLen m := by
  obtain ⟨a, rfl, -⟩ | ⟨a, rfl, ha⟩ := List.append_eq_append_iff.mp h
  · rw [byteLen_append]
    exact Nat.le_add_right ..
  · cases a with
    | nil => rw [List.append_nil]
    | cons c a =>
      obtain rfl := (List.cons.inj ha).1
      exact absurd (List.mem_append_right _ List.mem_cons_self) hl

/-- A here document is not over before the line is. -/
lemma lexHeredocBody_line {delimiter : Text} {stripTabs : Bool} {token : Token} (hl : '\n' ∉ l)
    (h : lexHeredocBody (l ++ '\n' :: s) delimiter stripTabs pos = some (.ok token, pos')) :
    byteLen l < pos' := by
  rw [lexHeredocBody] at h
  obtain ⟨remaining, hslice, h⟩ := Option.bind_eq_some_iff.mp h
  obtain ⟨front, heq, rfl⟩ := exists_of_sliceFrom hslice
  split at h
  · rename_i hfind
    cases h
    -- the line break is before what is looked at
    obtain ⟨m, hm⟩ : ∃ m, front = l ++ '\n' :: m := by
      have hmem : '\n' ∉ remaining := by
        intro hmem
        simp [find, hmem] at hfind
      obtain ⟨m, rfl, hm⟩ | ⟨m, rfl, rfl⟩ := List.append_eq_append_iff.mp heq
      · cases m with
        | nil =>
          rw [List.nil_append] at hm
          exact absurd (hm ▸ List.mem_cons_self) hmem
        | cons c m =>
          obtain rfl := (List.cons.inj hm).1
          exact ⟨m, rfl⟩
      · exact absurd (List.mem_append_right m List.mem_cons_self) hmem
    have hbreak : '\n'.utf8Size = 1 := rfl
    rw [hm, byteLen_append, byteLen_cons, hbreak]
    omega
  · rename_i n hfind
    obtain ⟨m, t, rfl, rfl⟩ := find_eq_some hfind
    rw [← List.append_assoc] at heq
    have hle := byteLen_le_of_append_break hl heq
    rw [byteLen_append] at hle
    obtain ⟨remaining, -, h⟩ := Option.bind_eq_some_iff.mp h
    split at h
    · cases h
    · obtain ⟨endPos, hend, h⟩ := Option.bind_eq_some_iff.mp h
      obtain ⟨content, -, h⟩ := Option.bind_eq_some_iff.mp h
      cases h
      rw [skipLineBreak] at hend
      split_ifs at hend
      · obtain ⟨rest, -, rfl⟩ := Option.map_eq_some_iff.mp hend
        split_ifs <;> omega
      · obtain rfl := Option.some.inj hend
        omega

lemma lexHeredoc_line {token : Token} (hl : '\n' ∉ l)
    (h : lexHeredoc (l ++ '\n' :: s) pos = some (.ok token, pos')) : byteLen l < pos' := by
  obtain ⟨e, herror⟩ | ⟨_, _, _, hbody⟩ := lexHeredoc_eq_some h
  · cases herror
  · exact lexHeredocBody_line hl hbody

lemma nextToken_break {input rest rest' : Text} (h : sliceFrom input pos = some rest)
    (hrest : rest.dropWhile isBlank = '\n' :: rest') :
    nextToken input pos = some (.ok .newline, pos + byteLen (rest.takeWhile isBlank) + 1) := by
  have hstart := sliceFrom_dropWhile isBlank h
  rw [hrest] at hstart
  have hoperator : lexOperator ('\n' :: rest') = none := by
    simp [lexOperator, tryLexFdDup, List.takeWhile]
  rw [nextToken, skipWhitespace_eq h]
  dsimp only
  rw [if_neg (not_le.mpr (lt_byteLen hstart)), hstart]
  dsimp only
  rw [hoperator]
  dsimp only
  rw [if_neg (by simp)]
  rfl

/-! ### The first token -/

/-- A blank line, or a comment. -/
lemma nextToken_blank (hblank : l.dropWhile isBlank = []) :
    nextToken (l ++ '\n' :: s) 0 = some (.ok .newline, byteLen l + 1) := by
  have htake : l.takeWhile isBlank = l := by
    conv_rhs => rw [← List.takeWhile_append_dropWhile (p := isBlank) (l := l), hblank]
    rw [List.append_nil]
  have hdrop := dropWhile_line (s := s) (p := isBlank) rfl l
  rw [hblank] at hdrop
  rw [nextToken_break sliceFrom_zero hdrop, takeWhile_line (p := isBlank) rfl, htake, Nat.zero_add]

lemma line_append (hl : '\n' ∉ l) : line (l ++ '\n' :: s) = l := by
  rw [line, List.takeWhile_append_of_pos, List.takeWhile_cons_of_neg (by simp), List.append_nil]
  intro c hc
  exact decide_eq_true (ne_of_mem_of_not_mem hc hl)

section

variable {comment : Text} {r : Except ShellError Token × ℕ}

/-- Behind the comment of the last line is the end. -/
lemma nextToken_comment_nil (hl : '\n' ∉ l) (hcomment : l.dropWhile isBlank = '#' :: comment)
    (h : nextToken l 0 = some r) : r = (.ok .eof, byteLen l) := by
  have hzero : sliceFrom l 0 = some l := sliceFrom_zero
  have hascii : AsciiComment l := by
    by_contra hlong
    rw [nextToken_eq_none hzero hlong] at h
    cases h
  have hmem : ∀ c ∈ '#' :: comment, c ≠ '\n' := by
    intro c hc
    refine ne_of_mem_of_not_mem ((List.dropWhile_sublist isBlank).subset ?_) hl
    rwa [hcomment]
  have hline : ∀ text : Text, (∀ c ∈ text, c ≠ '\n') → line text = text := by
    intro text htext
    rw [line, List.takeWhile_eq_self_iff]
    exact fun c hc => decide_eq_true (htext c hc)
  have hone : ∀ c ∈ line ('#' :: comment), c.utf8Size = 1 := by
    rw [hline _ hmem]
    refine List.forall_mem_cons.mpr ⟨rfl, fun c hc => hascii _ hcomment c ?_⟩
    rwa [hline _ fun c hc => hmem c (List.mem_cons_of_mem _ hc)]
  have hlen : byteLen (l.takeWhile isBlank) + byteLen ('#' :: comment) = byteLen l := by
    rw [← hcomment, ← byteLen_append, List.takeWhile_append_dropWhile]
  have hstart := sliceFrom_dropWhile isBlank hzero
  rw [hcomment] at hstart
  have hskip := skipComment_eq hstart hone
  rw [hline _ hmem, Nat.zero_add, hlen] at hskip
  rw [nextToken_hash hzero hcomment, Nat.zero_add, hskip, Option.bind_some] at h
  split_ifs at h
  rw [nextToken_nil sliceFrom_byteLen rfl] at h
  exact (Option.some.inj h).symm

/-- Behind the comment of a line is the line break. -/
lemma nextToken_comment (hl : '\n' ∉ l) (hcomment : l.dropWhile isBlank = '#' :: comment)
    (h : nextToken (l ++ '\n' :: s) 0 = some r) :
    r = (.ok .newline, byteLen l + 1) ∧ nextToken l 0 = some (.ok .eof, byteLen l) := by
  have hzero : sliceFrom (l ++ '\n' :: s) 0 = some _ := sliceFrom_zero
  have hdrop := dropWhile_line (s := s) (p := isBlank) rfl l
  rw [hcomment, List.cons_append] at hdrop
  have hascii : AsciiComment (l ++ '\n' :: s) := by
    by_contra hlong
    rw [nextToken_eq_none hzero hlong] at h
    cases h
  have hmem : '\n' ∉ '#' :: comment := by
    intro hmem
    apply hl
    apply (List.dropWhile_sublist isBlank).subset
    rwa [hcomment]
  have hcut : line (comment ++ '\n' :: s) = comment :=
    line_append fun hc => hmem (List.mem_cons_of_mem _ hc)
  have hone : ∀ c ∈ line ('#' :: comment ++ '\n' :: s), c.utf8Size = 1 := by
    rw [line_append hmem]
    refine List.forall_mem_cons.mpr ⟨rfl, fun c hc => hascii _ hdrop c ?_⟩
    rwa [hcut]
  have htake := takeWhile_line (s := s) (p := isBlank) rfl l
  have hlen : byteLen (l.takeWhile isBlank) + byteLen ('#' :: comment) = byteLen l := by
    rw [← hcomment, ← byteLen_append, List.takeWhile_append_dropWhile]
  have hstart := sliceFrom_dropWhile isBlank hzero
  rw [hdrop, ← List.cons_append, htake, Nat.zero_add] at hstart
  have hend := sliceFrom_add hstart
  rw [hlen] at hend
  have hskip := skipComment_eq hstart hone
  rw [line_append hmem, hlen] at hskip
  rw [nextToken_hash hzero hdrop, htake, Nat.zero_add, hskip, Option.bind_some] at h
  split_ifs at h
  rw [nextToken_break hend (List.dropWhile_cons_of_neg (by decide)),
    List.takeWhile_cons_of_neg (by decide)] at h
  refine ⟨(Option.some.inj h).symm, ?_⟩
  have hzero' : sliceFrom l 0 = some l := sliceFrom_zero
  have hascii' : AsciiComment l := by
    intro comment' hcomment' c hc
    obtain rfl := (List.cons.inj (hcomment'.symm.trans hcomment)).2
    refine hascii _ hdrop c ?_
    rw [hcut]
    exact (List.takeWhile_sublist _).subset hc
  obtain ⟨r', hr', -⟩ := nextToken_ahead hzero' hascii'
  rwa [nextToken_comment_nil hl hcomment hr'] at hr'

end

/-- A token that ends in the first line is the first token of that line; one that ends behind it is
the line break, where the line has no token, or has the line break in it. -/
theorem nextToken_cut (hl : '\n' ∉ l) {token : Token}
    (h : nextToken (l ++ '\n' :: s) 0 = some (.ok token, pos)) :
    (pos ≤ byteLen l ∧ token ≠ .newline ∧ nextToken l 0 = some (.ok token, pos)) ∨
      (byteLen l < pos ∧ (token = .newline →
        pos = byteLen l + 1 ∧ nextToken l 0 = some (.ok .eof, byteLen l))) := by
  cases hdrop : l.dropWhile isBlank with
  | nil =>
    rw [nextToken_blank hdrop] at h
    cases h
    exact .inr ⟨Nat.lt_succ_self _, fun _ => ⟨rfl, nextToken_nil sliceFrom_zero hdrop⟩⟩
  | cons c rest =>
    by_cases hhash : c = '#'
    · obtain rfl := hhash
      obtain ⟨heq, hend⟩ := nextToken_comment hl hdrop h
      cases heq
      exact .inr ⟨Nat.lt_succ_self _, fun _ => ⟨rfl, hend⟩⟩
    · have hc : c ≠ '\n' := by
        rintro rfl
        refine hl ((List.dropWhile_sublist isBlank).subset ?_)
        rw [hdrop]
        exact List.mem_cons_self
      have hdrop' := dropWhile_line (s := s) (p := isBlank) rfl l
      rw [hdrop, List.cons_append] at hdrop'
      have hne : token ≠ .newline := by
        rintro rfl
        exact nextToken_ne_newline sliceFrom_zero hdrop' hhash hc h rfl
      by_cases hpos : pos ≤ byteLen l
      · refine .inl ⟨hpos, hne, ?_⟩
        have hzero : sliceFrom (l ++ '\n' :: s) 0 = some _ := sliceFrom_zero
        have hzero' : sliceFrom l 0 = some l := sliceFrom_zero
        have hstart := sliceFrom_dropWhile isBlank hzero
        have hstart' := sliceFrom_dropWhile isBlank hzero'
        rw [hdrop', takeWhile_line (p := isBlank) rfl] at hstart
        rw [hdrop] at hstart'
        rw [nextToken, skipWhitespace_eq sliceFrom_zero, takeWhile_line (p := isBlank) rfl] at h
        dsimp only at h
        rw [if_neg (not_le.mpr (lt_byteLen hstart)), hstart] at h
        rw [nextToken, skipWhitespace_eq sliceFrom_zero]
        dsimp only at h ⊢
        rw [if_neg (not_le.mpr (lt_byteLen hstart')), hstart']
        dsimp only
        rw [← List.cons_append, lexOperator_line] at h
        cases hoperator : lexOperator (c :: rest) with
        | some operator =>
          rw [hoperator] at h
          exact h
        | none =>
          rw [hoperator] at h
          dsimp only at h ⊢
          simp only [head?_line rest (by decide : '<' ≠ '\n')] at h
          split_ifs at h ⊢ with hheredoc
          · exact absurd hpos (not_le.mpr (lexHeredoc_line hl h))
          · cases hsingle : lexSingle c with
            | some token' =>
              rw [hsingle] at h
              exact h
            | none =>
              rw [hsingle] at h
              exact lexWord_cut h hpos
      · exact .inr ⟨not_le.mp hpos, fun heq => absurd heq hne⟩

/-! ### Lines of tokens -/

variable {r : Text} {ts : List Token} {token : Token}

lemma lexes_nil (h : nextToken r 0 = some (.ok .eof, pos)) : Lexes (.new r) [] := by
  have htakes : Takes (.new r) .eof { Lexer.new r with pos } := by
    rw [Takes, Lexer.next_eq rfl]
    simp only [Lexer.new, h, Option.map_some]
  exact .eof htakes

/-- The tokens of a text are its first token and those of what is behind it. -/
lemma lexes_cons_iff {u : Text} (htoken : token ≠ .eof)
    (h : nextToken (u ++ r) 0 = some (.ok token, byteLen u)) :
    Lexes (.new (u ++ r)) (token :: ts) ↔ Lexes (.new r) ts := by
  have htakes : Takes (.new (u ++ r)) token ((Lexer.new r).shift u) := by
    rw [Takes, Lexer.next_eq rfl]
    simp only [Lexer.new, Lexer.shift, h, Option.map_some, Nat.add_zero]
  constructor
  · intro hlexes
    obtain ⟨-, lexer', htakes', hrest⟩ := hlexes.next
    obtain ⟨-, heq⟩ := Prod.mk.inj (Option.some.inj (htakes.symm.trans htakes'))
    rw [← heq] at hrest
    exact lexes_shift.mp hrest
  · exact fun hrest => .token htoken htakes (lexes_shift.mpr hrest)

/-- A text is read token by token. -/
lemma exists_of_lexes_cons (h : Lexes (.new r) (token :: ts)) :
    ∃ u r', r = u ++ r' ∧ u ≠ [] ∧ nextToken r 0 = some (.ok token, byteLen u) ∧
      Lexes (.new r') ts := by
  obtain ⟨htoken, lexer', htakes, hrest⟩ := h.next
  have hfresh : (Lexer.new r).Fresh := ⟨rfl, boundary_zero⟩
  have hcomment := Lexer.asciiComment_of_next hfresh
    (by rw [show (Lexer.new r).next = _ from htakes]; simp)
  have hnew : sliceFrom r 0 = some r := sliceFrom_zero
  obtain ⟨⟨result, pos⟩, hnext, hread, r', hslice⟩ := nextToken_ahead hnew (hcomment r hnew)
  rw [Takes, Lexer.next_eq rfl] at htakes
  obtain ⟨_, hnext', heq⟩ := Option.map_eq_some_iff.mp htakes
  obtain rfl := Option.some.inj (hnext.symm.trans hnext')
  obtain ⟨hresult, -⟩ := Prod.mk.inj heq
  dsimp only at hresult hread hslice
  subst hresult
  obtain ⟨u, rfl, rfl⟩ := exists_of_sliceFrom hslice
  refine ⟨u, r', rfl, ?_, hnext, (lexes_cons_iff htoken hnext).mp h⟩
  rintro rfl
  obtain heof | hpos := hread
  · exact htoken (Except.ok.inj heof)
  · exact absurd hpos (lt_irrefl _)

/-- A line without line breaks has no token that is one. -/
lemma count_newline_of_line (hl : '\n' ∉ l) (h : Lexes (.new l) ts) : ts.count .newline = 0 := by
  induction hn : l.length using Nat.strong_induction_on generalizing l ts with
  | _ n ih =>
    cases ts with
    | nil => rfl
    | cons token ts =>
      obtain ⟨u, r, rfl, hu, hnext, hrest⟩ := exists_of_lexes_cons h
      have hlen := List.length_pos_of_ne_nil hu
      rw [List.length_append] at hn
      have hr := ih r.length (by omega) (fun hmem => hl (List.mem_append_right u hmem)) hrest rfl
      have hne : token ≠ .newline := by
        rintro rfl
        cases hdrop : (u ++ r).dropWhile isBlank with
        | nil =>
          rw [nextToken_nil sliceFrom_zero hdrop] at hnext
          cases hnext
        | cons c rest =>
          have hmem : c ∈ u ++ r := by
            apply (List.dropWhile_sublist isBlank).subset
            rw [hdrop]
            exact List.mem_cons_self
          have hc : c ≠ '\n' := ne_of_mem_of_not_mem hmem hl
          by_cases hhash : c = '#'
          · obtain rfl := hhash
            cases nextToken_comment_nil hl hdrop hnext
          · exact nextToken_ne_newline sliceFrom_zero hdrop hhash hc hnext rfl
      rw [List.count_cons_of_ne hne, hr]

/-- What is read is a part of the first line, or has its line break in it. -/
lemma exists_of_append_le {u : Text} (h : l ++ '\n' :: s = u ++ r) (hle : byteLen u ≤ byteLen l) :
    ∃ l', l = u ++ l' ∧ r = l' ++ '\n' :: s := by
  obtain ⟨m, rfl, hm⟩ | ⟨m, rfl, rfl⟩ := List.append_eq_append_iff.mp h
  · rw [byteLen_append] at hle
    obtain rfl : m = [] := byteLen_eq_zero.mp (by omega)
    exact ⟨[], by rw [List.append_nil, List.append_nil], hm.symm⟩
  · exact ⟨m, rfl, rfl⟩

lemma exists_of_append_lt {u : Text} (h : l ++ '\n' :: s = u ++ r) (hlt : byteLen l < byteLen u) :
    ∃ u', u = l ++ '\n' :: u' ∧ s = u' ++ r := by
  obtain ⟨m, rfl, hm⟩ | ⟨m, rfl, rfl⟩ := List.append_eq_append_iff.mp h
  · cases m with
    | nil => simp at hlt
    | cons c m =>
      obtain ⟨rfl, rfl⟩ := List.cons.inj hm
      exact ⟨m, rfl, rfl⟩
  · rw [byteLen_append] at hlt
    omega

lemma splitOn_cons_of_ne (h : token ≠ .newline) :
    (token :: ts).splitOn .newline = (ts.splitOn .newline).modifyHead (token :: ·) := by
  rw [List.splitOn_cons_eq_if_modifyHead, if_neg (by simpa using h)]

lemma splitOn_cons_self : (.newline :: ts).splitOn Token.newline = [] :: ts.splitOn .newline := by
  rw [List.splitOn_cons_eq_if_modifyHead, if_pos (by simp)]

/-- A text has no more tokens that are line breaks than it has line breaks. If it has as many, then
its tokens are those of its lines, one by one. -/
theorem lexes_lines (h : Lexes (.new r) ts) :
    ts.count .newline ≤ r.count '\n' ∧ (ts.count .newline = r.count '\n' →
      List.Forall₂ (fun line piece => Lexes (.new line) piece) (r.splitOn '\n')
        (ts.splitOn .newline)) := by
  induction hn : r.length using Nat.strong_induction_on generalizing r ts with
  | _ n ih =>
    by_cases hbreak : '\n' ∈ r
    · obtain ⟨l, s, rfl, hl⟩ := List.eq_append_cons_of_mem hbreak
      have hsplit : (l ++ '\n' :: s).splitOn '\n' = l :: s.splitOn '\n' :=
        List.splitOn_append_cons_self_of_not_mem hl s
      have hcount : (l ++ '\n' :: s).count '\n' = s.count '\n' + 1 := by
        rw [List.count_append, List.count_eq_zero_of_not_mem hl, List.count_cons_self, Nat.zero_add]
      cases ts with
      | nil => exact ⟨Nat.zero_le _, fun heq => by simp [hcount] at heq⟩
      | cons token ts =>
        obtain ⟨u, r, heq, hu, hnext, hrest⟩ := exists_of_lexes_cons h
        have hlen := List.length_pos_of_ne_nil hu
        have hlength := congrArg List.length heq
        rw [hn, List.length_append] at hlength
        obtain ⟨hle, hlines⟩ := ih r.length (by omega) hrest rfl
        obtain ⟨hpos, hne, hline⟩ | ⟨hpos, hnewline⟩ := nextToken_cut hl hnext
        · -- a token of the first line
          obtain ⟨l', rfl, rfl⟩ := exists_of_append_le heq hpos
          have hl' : '\n' ∉ l' := fun hmem => hl (List.mem_append_right u hmem)
          have hsplit' : (l' ++ '\n' :: s).splitOn '\n' = l' :: s.splitOn '\n' :=
            List.splitOn_append_cons_self_of_not_mem hl' s
          have hcount' : (l' ++ '\n' :: s).count '\n' = s.count '\n' + 1 := by
            rw [List.count_append, List.count_eq_zero_of_not_mem hl', List.count_cons_self,
              Nat.zero_add]
          rw [List.count_cons_of_ne hne, hcount, ← hcount']
          refine ⟨hle, fun hsame => ?_⟩
          have hlines' := hlines hsame
          rw [hsplit'] at hlines'
          rw [hsplit, splitOn_cons_of_ne hne]
          cases hpieces : ts.splitOn .newline with
          | nil => exact absurd hpieces (List.splitOn_ne_nil _ _)
          | cons piece pieces =>
            rw [hpieces, List.forall₂_cons] at hlines'
            rw [List.modifyHead_cons, List.forall₂_cons]
            exact ⟨(lexes_cons_iff h.next.1 hline).mpr hlines'.1, hlines'.2⟩
        · -- the line break, or a token with the line break in it
          obtain ⟨u, rfl, rfl⟩ := exists_of_append_lt heq hpos
          have hcount' : (u ++ r).count '\n' = u.count '\n' + r.count '\n' := List.count_append
          by_cases hne : token = .newline
          · obtain ⟨hbehind, hend⟩ := hnewline hne
            obtain rfl : u = [] := by
              have hone : '\n'.utf8Size = 1 := rfl
              rw [byteLen_append, byteLen_cons, hone] at hbehind
              exact byteLen_eq_zero.mp (by omega)
            subst hne
            rw [List.nil_append] at hcount hsplit ⊢
            rw [List.count_cons_self, hcount]
            refine ⟨Nat.succ_le_succ hle, fun hsame => ?_⟩
            rw [hsplit, splitOn_cons_self, List.forall₂_cons]
            exact ⟨lexes_nil hend, hlines (Nat.succ.inj hsame)⟩
          · rw [List.count_cons_of_ne hne, hcount, hcount']
            refine ⟨by omega, fun hsame => ?_⟩
            omega
    · have hcount := count_newline_of_line hbreak h
      refine ⟨hcount.le.trans (Nat.zero_le _), fun _ => ?_⟩
      rw [List.splitOn_eq_singleton hbreak,
        List.splitOn_eq_singleton (List.count_eq_zero.mp hcount)]
      exact .cons h .nil

end AmlaSandbox.Shell
