import AmlaSandbox.Shell.Soundness

/-!
# The parser accepts its grammar

On known tokens that start with a sentence, behind which the parser sees that the sentence is over,
each function of the parser returns the tree of the sentence. The fuel that is needed is bounded by
the number of tokens; the constants order the functions by who calls whom on the same tokens.
-/

namespace AmlaSandbox.Shell.Parser

open Text

variable {lexer lexer₁ : Lexer} {fuel : ℕ} {command : Command} {commands : List Command}
  {argv : List Word} {redirects : List Redirect} {ts rest : List Token} {token : Token}

/-! ### First tokens -/

lemma first_append_of_ne_nil (h : ts ≠ []) : first (ts ++ rest) = first ts := by
  cases ts with
  | nil => exact absurd rfl h
  | cons token ts => rfl

def StartsCommand (ts : List Token) : Prop := part (first ts) ≠ none ∨ first ts = .lParen

lemma StartsCommand.ne_nil (h : StartsCommand ts) : ts ≠ [] := by
  rintro rfl
  simp [StartsCommand, first, part] at h

lemma StartsCommand.append (h : StartsCommand ts) (rest : List Token) :
    StartsCommand (ts ++ rest) := by
  rwa [StartsCommand, first_append_of_ne_nil h.ne_nil]

lemma part_of_isParts (h : IsParts ts argv redirects) (hne : ts ≠ []) :
    part (first ts) ≠ none := by
  cases h with
  | nil => exact absurd rfl hne
  | word w _ => simp [first, part]
  | file w hf _ => simp [first, hf]
  | redirect hredirect _ => simp [first, hredirect]

lemma starts_of_isCommand (h : IsCommand ts command) : StartsCommand ts := by
  cases h with
  | simple hparts hne => exact .inl (part_of_isParts hparts hne)
  | subshell _ _ => exact .inr rfl

lemma starts_of_isPipeline : ∀ {ts : List Token} {commands : List Command},
    IsPipeline ts commands → StartsCommand ts
  | _, _, .command h => starts_of_isCommand h
  | _, _, .pipe h _ _ => by
    rw [List.append_assoc]
    exact (starts_of_isPipeline h).append _

lemma starts_of_isList : ∀ {ts : List Token} {command : Command},
    IsList ts command → StartsCommand ts
  | _, _, .pipeline h => starts_of_isPipeline h
  | _, _, .and h _ _ => by
    rw [List.append_assoc]
    exact (starts_of_isList h).append _
  | _, _, .or h _ _ => by
    rw [List.append_assoc]
    exact (starts_of_isList h).append _

lemma starts_of_isCommandLine (h : IsCommandLine ts commands) : StartsCommand ts := by
  cases h with
  | list h => exact starts_of_isList h
  | last h _ => exact (starts_of_isList h).append _
  | cons h _ _ =>
    rw [List.append_assoc]
    exact (starts_of_isList h).append _

/-- What starts a command is no operator, no line break and no end. -/
lemma StartsCommand.ne (h : StartsCommand ts) :
    first ts ≠ .newline ∧ first ts ≠ .amp ∧ endsLine (first ts) = false := by
  obtain h | h := h
  · cases hfirst : first ts <;> simp_all [part, endsLine]
  · simp [h, endsLine]

/-- Line breaks before a command are skipped. -/
lemma dropWhile_newlines {nl : List Token} (hnl : Newlines nl) (hne : first rest ≠ .newline) :
    (nl ++ rest).dropWhile (· = .newline) = rest := by
  rw [List.dropWhile_append_of_pos (by simpa [Newlines] using hnl)]
  cases rest with
  | nil => rfl
  | cons token rest => exact List.dropWhile_cons_of_neg (by simpa [first] using hne)

/-! ### Simple commands -/

lemma simpleLoop_complete {ws : List Word} {rs : List Redirect} (h : IsParts ts ws rs)
    (hlexes : Lexes lexer (ts ++ rest)) (hrest : part (first rest) = none)
    (hfuel : (ts ++ rest).length < fuel) (argv : List Word) (redirects : List Redirect) :
    ∃ lexer', Returns (simpleLoop fuel argv redirects) lexer (argv ++ ws, redirects ++ rs) lexer' ∧
      Lexes lexer' rest := by
  induction h generalizing lexer fuel argv redirects with
  | nil =>
    obtain ⟨fuel, rfl⟩ := Nat.exists_eq_add_one_of_ne_zero (Nat.ne_zero_of_lt hfuel)
    obtain ⟨lexer₁, hpeek, h₁⟩ := returns_peek_of_lexes hlexes
    refine ⟨lexer₁, hpeek.bind ?_, h₁⟩
    rw [List.nil_append, hrest]
    simp
  | word w hparts ih =>
    obtain ⟨fuel, rfl⟩ := Nat.exists_eq_add_one_of_ne_zero (Nat.ne_zero_of_lt hfuel)
    obtain ⟨lexer₁, hpeek, h₁⟩ := returns_peek_of_lexes hlexes
    obtain ⟨lexer₂, hnext, h₂⟩ := returns_next_of_lexes h₁
    obtain ⟨lexer', hloop, h'⟩ := ih h₂ (Nat.lt_of_succ_lt_succ hfuel) (argv ++ [w]) redirects
    rw [List.append_assoc] at hloop
    exact ⟨lexer', hpeek.bind (hnext.bind hloop), h'⟩
  | @file ts ws rs op f w hf hparts ih =>
    obtain ⟨fuel, rfl⟩ := Nat.exists_eq_add_one_of_ne_zero (Nat.ne_zero_of_lt hfuel)
    obtain ⟨lexer₁, hpeek, h₁⟩ := returns_peek_of_lexes hlexes
    obtain ⟨lexer₂, hnext, h₂⟩ := returns_next_of_lexes h₁
    obtain ⟨lexer₃, hword, h₃⟩ := returns_expectWord h₂
    have hless : (ts ++ rest).length < fuel := by
      simp only [List.cons_append, List.length_cons] at hfuel
      omega
    obtain ⟨lexer', hloop, h'⟩ := ih h₃ hless argv (redirects ++ f w)
    rw [List.append_assoc] at hloop
    refine ⟨lexer', hpeek.bind ?_, h'⟩
    rw [List.cons_append, first_cons, hf]
    exact hnext.bind (hword.bind hloop)
  | @redirect ts ws rs op redirect hredirect hparts ih =>
    obtain ⟨fuel, rfl⟩ := Nat.exists_eq_add_one_of_ne_zero (Nat.ne_zero_of_lt hfuel)
    obtain ⟨lexer₁, hpeek, h₁⟩ := returns_peek_of_lexes hlexes
    obtain ⟨lexer₂, hnext, h₂⟩ := returns_next_of_lexes h₁
    obtain ⟨lexer', hloop, h'⟩ :=
      ih h₂ (Nat.lt_of_succ_lt_succ hfuel) argv (redirects ++ [redirect])
    rw [List.append_assoc] at hloop
    refine ⟨lexer', hpeek.bind ?_, h'⟩
    rw [List.cons_append, first_cons, hredirect]
    exact hnext.bind hloop

lemma ne_nil_of_part_file {f : Word → List Redirect} (h : part token = some (.file f)) (w : Word) :
    f w ≠ [] := by
  cases token <;> cases h <;> exact List.cons_ne_nil _ _

lemma argv_or_redirects (h : IsParts ts argv redirects) (hne : ts ≠ []) :
    ¬(argv = [] ∧ redirects = []) := by
  cases h with
  | nil => exact absurd rfl hne
  | word w _ => simp
  | file w hf _ => simp [ne_nil_of_part_file hf]
  | redirect _ _ => simp

lemma parseSimpleCommand_complete (h : IsParts ts argv redirects) (hne : ts ≠ [])
    (hlexes : Lexes lexer (ts ++ rest)) (hrest : part (first rest) = none)
    (hfuel : (ts ++ rest).length < fuel) :
    ∃ lexer', Returns (parseSimpleCommand fuel) lexer
        (.simple (if argv = [] then [.unquoted ":".toList] else argv) redirects) lexer' ∧
      Lexes lexer' rest := by
  obtain ⟨lexer', hloop, h'⟩ := simpleLoop_complete h hlexes hrest hfuel [] []
  refine ⟨lexer', hloop.bind ?_, h'⟩
  have hsome := argv_or_redirects h hne
  simp [hsome]

/-! ### Operators -/

/-- An operator is taken, with the line breaks behind it. -/
lemma operator_complete {nl : List Token} (hlexes : Lexes lexer (token :: nl ++ ts ++ rest))
    (hnl : Newlines nl) (hts : StartsCommand ts) (hfuel : (nl ++ ts ++ rest).length < fuel) :
    ∃ lexer₁ lexer₂ lexer₃, Returns peek lexer token lexer₁ ∧ Returns next lexer₁ token lexer₂ ∧
      Returns (skipNewlines fuel) lexer₂ () lexer₃ ∧ Lexes lexer₃ (ts ++ rest) := by
  rw [List.append_assoc, List.cons_append] at hlexes
  rw [List.append_assoc] at hfuel
  obtain ⟨lexer₁, hpeek, h₁⟩ := returns_peek_of_lexes hlexes
  obtain ⟨lexer₂, hnext, h₂⟩ := returns_next_of_lexes h₁
  obtain ⟨lexer₃, hskip, h₃⟩ := returns_skipNewlines h₂ hfuel
  rw [dropWhile_newlines hnl (hts.append rest).ne.1] at h₃
  exact ⟨lexer₁, lexer₂, lexer₃, hpeek, hnext, hskip, h₃⟩

lemma pipelineLoop_next {nl : List Token} (hlexes : Lexes lexer (.pipe :: nl ++ ts ++ rest))
    (hnl : Newlines nl) (hts : StartsCommand ts) (hfuel : (nl ++ ts ++ rest).length < fuel)
    (hcommand : ∀ {lexer}, Lexes lexer (ts ++ rest) →
      ∃ lexer', Returns (parseCommand fuel) lexer command lexer' ∧ Lexes lexer' rest) :
    ∃ lexer', Lexes lexer' rest ∧ ∀ cs lexer'',
      Returns (pipelineLoop fuel (commands ++ [command])) lexer' cs lexer'' →
        Returns (pipelineLoop (fuel + 1) commands) lexer cs lexer'' := by
  obtain ⟨_, _, _, hpeek, hnext, hskip, h₃⟩ := operator_complete hlexes hnl hts hfuel
  obtain ⟨lexer₄, hparse, h₄⟩ := hcommand h₃
  refine ⟨lexer₄, h₄, fun cs lexer'' hloop => hpeek.bind ?_⟩
  rw [if_pos rfl]
  exact hnext.bind (hskip.bind (hparse.bind hloop))

lemma pipelineLoop_end (hlexes : Lexes lexer rest) (hrest : first rest ≠ .pipe)
    (hfuel : fuel ≠ 0) :
    ∃ lexer', Returns (pipelineLoop fuel commands) lexer commands lexer' ∧ Lexes lexer' rest := by
  obtain ⟨fuel, rfl⟩ := Nat.exists_eq_add_one_of_ne_zero hfuel
  obtain ⟨lexer₁, hpeek, h₁⟩ := returns_peek_of_lexes hlexes
  refine ⟨lexer₁, hpeek.bind ?_, h₁⟩
  rw [if_neg hrest]
  simp

/-- `&&` and `||`, by the command that they make. -/
lemma listLoop_next {nl : List Token} {left right : Command} {f : Command → Command → Command}
    (hop : token = .and ∧ f = .and ∨ token = .or ∧ f = .or)
    (hlexes : Lexes lexer (token :: nl ++ ts ++ rest)) (hnl : Newlines nl)
    (hts : StartsCommand ts) (hfuel : (nl ++ ts ++ rest).length < fuel)
    (hpipeline : ∀ {lexer}, Lexes lexer (ts ++ rest) →
      ∃ lexer', Returns (parsePipeline fuel) lexer right lexer' ∧ Lexes lexer' rest) :
    ∃ lexer', Lexes lexer' rest ∧ ∀ c lexer'',
      Returns (listLoop fuel (f left right)) lexer' c lexer'' →
        Returns (listLoop (fuel + 1) left) lexer c lexer'' := by
  obtain ⟨_, _, _, hpeek, hnext, hskip, h₃⟩ := operator_complete hlexes hnl hts hfuel
  obtain ⟨lexer₄, hparse, h₄⟩ := hpipeline h₃
  refine ⟨lexer₄, h₄, fun c lexer'' hloop => hpeek.bind ?_⟩
  obtain ⟨rfl, rfl⟩ | ⟨rfl, rfl⟩ := hop
  · rw [if_pos rfl]
    exact hnext.bind (hskip.bind (hparse.bind hloop))
  · rw [if_neg (by decide), if_pos rfl]
    exact hnext.bind (hskip.bind (hparse.bind hloop))

lemma listLoop_end {left : Command} (hlexes : Lexes lexer rest) (hand : first rest ≠ .and)
    (hor : first rest ≠ .or) (hfuel : fuel ≠ 0) :
    ∃ lexer', Returns (listLoop fuel left) lexer left lexer' ∧ Lexes lexer' rest := by
  obtain ⟨fuel, rfl⟩ := Nat.exists_eq_add_one_of_ne_zero hfuel
  obtain ⟨lexer₁, hpeek, h₁⟩ := returns_peek_of_lexes hlexes
  refine ⟨lexer₁, hpeek.bind ?_, h₁⟩
  rw [if_neg hand, if_neg hor]
  simp

/-! ### Separators -/

lemma returns_skipNewlines_append {nl : List Token} (h : Lexes lexer (nl ++ rest))
    (hnl : Newlines nl) (hfuel : (nl ++ rest).length < fuel) :
    ∃ lexer', Returns (skipNewlines fuel) lexer () lexer' ∧
      Lexes lexer' (rest.dropWhile (· = .newline)) := by
  obtain ⟨lexer', hskip, h'⟩ := returns_skipNewlines h hfuel
  rw [List.dropWhile_append_of_pos (by simpa [Newlines] using hnl)] at h'
  exact ⟨lexer', hskip, h'⟩

/-- Behind a separator the line ends, or goes on. -/
lemma separator_complete {sep : List Token} {f : Command → Command} (hsep : IsSeparator sep f)
    (hlist : Returns (parseList fuel) lexer command lexer₁) (h₁ : Lexes lexer₁ (sep ++ rest))
    (hrest : first (rest.dropWhile (· = .newline)) ≠ .amp)
    (hfuel : (sep ++ rest).length < fuel) :
    ∃ lexer', Lexes lexer' (rest.dropWhile (· = .newline)) ∧ ∀ cs lexer'',
      Returns (if endsLine (first (rest.dropWhile (· = .newline))) then
          pure (commands ++ [f command])
        else commandLineLoop fuel (commands ++ [f command])) lexer' cs lexer'' →
      Returns (commandLineLoop (fuel + 1) commands) lexer cs lexer'' := by
  cases hsep with
  | semi hnl =>
    rw [List.cons_append] at h₁ hfuel
    obtain ⟨lexer₂, hpeek, h₂⟩ := returns_peek_of_lexes h₁
    obtain ⟨lexer₃, hnext, h₃⟩ := returns_next_of_lexes h₂
    obtain ⟨lexer₄, hskip, h₄⟩ :=
      returns_skipNewlines_append h₃ hnl (Nat.lt_of_succ_lt hfuel)
    obtain ⟨lexer₅, hpeek', h₅⟩ := returns_peek_of_lexes h₄
    refine ⟨lexer₅, h₅, fun cs lexer'' h => hlist.bind (hpeek.bind ?_)⟩
    rw [first_cons, if_pos rfl]
    refine hnext.bind (hskip.bind (hpeek'.bind ?_))
    rwa [if_neg hrest]
  | amp hnl =>
    rw [List.cons_append] at h₁ hfuel
    obtain ⟨lexer₂, hpeek, h₂⟩ := returns_peek_of_lexes h₁
    obtain ⟨lexer₃, hnext, h₃⟩ := returns_next_of_lexes h₂
    obtain ⟨lexer₄, hskip, h₄⟩ :=
      returns_skipNewlines_append h₃ hnl (Nat.lt_of_succ_lt hfuel)
    obtain ⟨lexer₅, hpeek', h₅⟩ := returns_peek_of_lexes h₄
    refine ⟨lexer₅, h₅, fun cs lexer'' h => hlist.bind (hpeek.bind ?_)⟩
    rw [first_cons, if_neg (by decide), if_pos rfl]
    exact hnext.bind (hskip.bind (hpeek'.bind h))
  | @semiAmp nl nl' hnl hnl' =>
    rw [List.append_assoc, List.cons_append] at h₁ hfuel
    obtain ⟨lexer₂, hpeek, h₂⟩ := returns_peek_of_lexes h₁
    obtain ⟨lexer₃, hnext, h₃⟩ := returns_next_of_lexes h₂
    obtain ⟨lexer₄, hskip, h₄⟩ :=
      returns_skipNewlines_append h₃ hnl (Nat.lt_of_succ_lt hfuel)
    rw [List.cons_append, List.dropWhile_cons_of_neg (by decide)] at h₄
    obtain ⟨lexer₅, hpeek', h₅⟩ := returns_peek_of_lexes h₄
    obtain ⟨lexer₆, hnext', h₆⟩ := returns_next_of_lexes h₅
    have hless : (nl' ++ rest).length < fuel := by
      simp only [List.cons_append, List.length_cons, List.length_append] at hfuel ⊢
      omega
    obtain ⟨lexer₇, hskip', h₇⟩ := returns_skipNewlines_append h₆ hnl' hless
    obtain ⟨lexer₈, hpeek'', h₈⟩ := returns_peek_of_lexes h₇
    refine ⟨lexer₈, h₈, fun cs lexer'' h => hlist.bind (hpeek.bind ?_)⟩
    rw [first_cons, if_pos rfl]
    refine hnext.bind (hskip.bind (hpeek'.bind ?_))
    rw [first_cons, if_neg (by decide), if_pos rfl]
    exact hnext'.bind (hskip'.bind (hpeek''.bind h))

/-! ### Sentences -/

/-- The parser returns the command at the front of the tokens. -/
def CommandReturns (ts : List Token) (command : Command) : Prop :=
  ∀ ⦃rest lexer fuel⦄, Lexes lexer (ts ++ rest) → part (first rest) = none →
    6 * (ts ++ rest).length + 2 ≤ fuel →
    ∃ lexer', Returns (parseCommand fuel) lexer command lexer' ∧ Lexes lexer' rest

/-- The loop comes behind the commands at the front of the tokens, and goes on from there. -/
def PipelineReaches (ts : List Token) (commands : List Command) : Prop :=
  ∀ ⦃rest lexer fuel⦄, Lexes lexer (ts ++ rest) → part (first rest) = none →
    6 * (ts ++ rest).length + 3 ≤ fuel →
    ∃ lexer' fuel', Lexes lexer' rest ∧ 6 * rest.length + 2 ≤ fuel' ∧ ∀ cs lexer'',
      Returns (pipelineLoop fuel' commands) lexer' cs lexer'' →
        Returns (parsePipeline fuel) lexer (.ofPipeline cs) lexer''

def ListReaches (ts : List Token) (left : Command) : Prop :=
  ∀ ⦃rest lexer fuel⦄, Lexes lexer (ts ++ rest) → part (first rest) = none →
    first rest ≠ .pipe → 6 * (ts ++ rest).length + 4 ≤ fuel →
    ∃ lexer' fuel', Lexes lexer' rest ∧ 6 * rest.length + 2 ≤ fuel' ∧ ∀ c lexer'',
      Returns (listLoop fuel' left) lexer' c lexer'' → Returns (parseList fuel) lexer c lexer''

/-- Behind the line come line breaks, of which the loop may skip those behind a separator, and then
the end or a closing parenthesis. -/
def LineReturns (ts : List Token) (new : List Command) : Prop :=
  ∀ ⦃rest lexer fuel⦄ (commands : List Command), Lexes lexer (ts ++ rest) →
    endsLine (first rest) → endsLine (first (rest.dropWhile (· = .newline))) →
    6 * (ts ++ rest).length + 5 ≤ fuel →
    ∃ lexer' rest', Returns (commandLineLoop fuel commands) lexer (commands ++ new) lexer' ∧
      Lexes lexer' rest' ∧ (rest' = rest ∨ rest' = rest.dropWhile (· = .newline))

variable {nl ts' sep : List Token} {left right : Command} {new : List Command}

lemma exists_fuel {n : ℕ} (h : n + 1 ≤ fuel) : ∃ fuel', fuel = fuel' + 1 ∧ n ≤ fuel' := by
  obtain ⟨fuel', rfl⟩ := Nat.exists_eq_add_one_of_ne_zero (Nat.ne_zero_of_lt h)
  exact ⟨fuel', rfl, Nat.le_of_succ_le_succ h⟩

lemma commandReturns_simple (h : IsParts ts argv redirects) (hne : ts ≠ []) :
    CommandReturns ts
      (.simple (if argv = [] then [.unquoted ":".toList] else argv) redirects) := by
  intro rest lexer fuel hlexes hrest hfuel
  obtain ⟨fuel, rfl, hless⟩ := exists_fuel hfuel
  have hloop : (ts ++ rest).length < fuel := by omega
  obtain ⟨lexer₁, hpeek, h₁⟩ := returns_peek_of_lexes hlexes
  obtain ⟨lexer₂, hsimple, h₂⟩ := parseSimpleCommand_complete h hne h₁ hrest hloop
  refine ⟨lexer₂, hpeek.bind ?_, h₂⟩
  have hparen : first (ts ++ rest) ≠ .lParen := by
    rw [first_append_of_ne_nil hne]
    intro hfirst
    simpa [hfirst, part] using part_of_isParts h hne
  rwa [if_neg hparen]

lemma LineReturns.parseCommandLine (h : LineReturns ts commands)
    (hlexes : Lexes lexer (ts ++ rest)) (hrest : endsLine (first rest))
    (hrest' : endsLine (first (rest.dropWhile (· = .newline))))
    (hfuel : 6 * (ts ++ rest).length + 6 ≤ fuel) :
    ∃ lexer' rest', Returns (parseCommandLine fuel) lexer (.ofSequence commands) lexer' ∧
      Lexes lexer' rest' ∧ (rest' = rest ∨ rest' = rest.dropWhile (· = .newline)) := by
  obtain ⟨fuel, rfl, hless⟩ := exists_fuel hfuel
  obtain ⟨lexer₁, rest₁, hloop, h₁, hrest₁⟩ := h [] hlexes hrest hrest' hless
  exact ⟨lexer₁, rest₁, hloop.bind (by simp), h₁, hrest₁⟩

lemma commandReturns_subshell (hnl : Newlines nl) (hts : StartsCommand ts)
    (hline : LineReturns ts commands) :
    CommandReturns (.lParen :: nl ++ ts ++ [.rParen]) (.subshell (.ofSequence commands)) := by
  intro rest lexer fuel hlexes hrest hfuel
  have hless : 6 * (nl ++ ts ++ .rParen :: rest).length + 6 + 1 ≤ fuel := by
    simp only [List.length_append, List.length_cons, List.length_nil] at hfuel ⊢
    omega
  obtain ⟨fuel, rfl, hless⟩ := exists_fuel hless
  have hskip : (nl ++ ts ++ .rParen :: rest).length < fuel := by omega
  have hparse : 6 * (ts ++ .rParen :: rest).length + 6 ≤ fuel := by
    simp only [List.length_append] at hless ⊢
    omega
  rw [List.append_assoc, List.singleton_append] at hlexes
  obtain ⟨_, _, _, hpeek, hnext, hskip, h₃⟩ := operator_complete hlexes hnl hts hskip
  obtain ⟨lexer₄, rest', hline, h₄, hrest'⟩ := hline.parseCommandLine h₃ (by rfl) (by rfl) hparse
  obtain rfl : rest' = .rParen :: rest := by
    obtain rfl | rfl := hrest'
    · rfl
    · exact List.dropWhile_cons_of_neg (by decide)
  obtain ⟨lexer₅, hexpect, h₅⟩ := returns_expect h₄
  refine ⟨lexer₅, hpeek.bind ?_, h₅⟩
  rw [if_pos rfl]
  exact hnext.bind (hskip.bind (hline.bind (hexpect.bind (by simp))))

lemma PipelineReaches.parsePipeline (h : PipelineReaches ts commands)
    (hlexes : Lexes lexer (ts ++ rest)) (hrest : part (first rest) = none)
    (hpipe : first rest ≠ .pipe) (hfuel : 6 * (ts ++ rest).length + 3 ≤ fuel) :
    ∃ lexer', Returns (parsePipeline fuel) lexer (.ofPipeline commands) lexer' ∧
      Lexes lexer' rest := by
  obtain ⟨lexer₁, fuel₁, h₁, hfuel₁, hloop⟩ := h hlexes hrest hfuel
  have hpos : fuel₁ ≠ 0 := by omega
  obtain ⟨lexer₂, hend, h₂⟩ := pipelineLoop_end h₁ hpipe hpos
  exact ⟨lexer₂, hloop _ _ hend, h₂⟩

lemma pipelineReaches_command (h : CommandReturns ts command) :
    PipelineReaches ts [command] := by
  intro rest lexer fuel hlexes hrest hfuel
  obtain ⟨fuel, rfl, hless⟩ := exists_fuel hfuel
  obtain ⟨lexer₁, hcommand, h₁⟩ := h hlexes hrest hless
  refine ⟨lexer₁, fuel, h₁, ?_, fun cs lexer'' hloop => hcommand.bind (hloop.bind (by simp))⟩
  rw [List.length_append] at hless
  omega

lemma pipelineReaches_pipe (h : PipelineReaches ts commands) (hnl : Newlines nl)
    (hts : StartsCommand ts') (h' : CommandReturns ts' command) :
    PipelineReaches (ts ++ .pipe :: nl ++ ts') (commands ++ [command]) := by
  intro rest lexer fuel hlexes hrest hfuel
  rw [List.append_assoc, List.append_assoc] at hlexes hfuel
  obtain ⟨lexer₁, fuel₁, h₁, hfuel₁, hloop⟩ := h hlexes (by rfl) hfuel
  rw [← List.append_assoc] at h₁ hfuel₁
  have hless : 6 * (nl ++ ts' ++ rest).length + 6 + 1 ≤ fuel₁ := by
    simp only [List.length_append, List.length_cons] at hfuel₁ ⊢
    omega
  obtain ⟨fuel₁, rfl, hless⟩ := exists_fuel hless
  have hskip : (nl ++ ts' ++ rest).length < fuel₁ := by omega
  have hcommand : 6 * (ts' ++ rest).length + 2 ≤ fuel₁ := by
    simp only [List.length_append] at hless ⊢
    omega
  obtain ⟨lexer₂, h₂, hnext⟩ :=
    pipelineLoop_next h₁ hnl hts hskip fun hlexes => h' hlexes hrest hcommand
  refine ⟨lexer₂, fuel₁, h₂, ?_, fun cs lexer'' hrun => hloop _ _ (hnext _ _ hrun)⟩
  rw [List.length_append] at hcommand
  omega

lemma ListReaches.parseList (h : ListReaches ts left) (hlexes : Lexes lexer (ts ++ rest))
    (hrest : part (first rest) = none) (hpipe : first rest ≠ .pipe) (hand : first rest ≠ .and)
    (hor : first rest ≠ .or) (hfuel : 6 * (ts ++ rest).length + 4 ≤ fuel) :
    ∃ lexer', Returns (parseList fuel) lexer left lexer' ∧ Lexes lexer' rest := by
  obtain ⟨lexer₁, fuel₁, h₁, hfuel₁, hloop⟩ := h hlexes hrest hpipe hfuel
  have hpos : fuel₁ ≠ 0 := by omega
  obtain ⟨lexer₂, hend, h₂⟩ := listLoop_end h₁ hand hor hpos
  exact ⟨lexer₂, hloop _ _ hend, h₂⟩

lemma listReaches_pipeline (h : PipelineReaches ts commands) :
    ListReaches ts (.ofPipeline commands) := by
  intro rest lexer fuel hlexes hrest hpipe hfuel
  obtain ⟨fuel, rfl, hless⟩ := exists_fuel hfuel
  obtain ⟨lexer₁, hpipeline, h₁⟩ := h.parsePipeline hlexes hrest hpipe hless
  refine ⟨lexer₁, fuel, h₁, ?_, fun c lexer'' hloop => hpipeline.bind hloop⟩
  rw [List.length_append] at hless
  omega

lemma listReaches_operator {f : Command → Command → Command}
    (hop : token = .and ∧ f = .and ∨ token = .or ∧ f = .or) (h : ListReaches ts left)
    (hnl : Newlines nl) (hts : StartsCommand ts') (h' : PipelineReaches ts' commands) :
    ListReaches (ts ++ token :: nl ++ ts') (f left (.ofPipeline commands)) := by
  intro rest lexer fuel hlexes hrest hpipe hfuel
  have hfirst : part token = none ∧ token ≠ .pipe := by
    obtain ⟨rfl, -⟩ | ⟨rfl, -⟩ := hop <;> simp [part]
  rw [List.append_assoc, List.append_assoc] at hlexes hfuel
  obtain ⟨lexer₁, fuel₁, h₁, hfuel₁, hloop⟩ := h hlexes hfirst.1 hfirst.2 hfuel
  rw [← List.append_assoc] at h₁ hfuel₁
  have hless : 6 * (nl ++ ts' ++ rest).length + 6 + 1 ≤ fuel₁ := by
    simp only [List.length_append, List.length_cons] at hfuel₁ ⊢
    omega
  obtain ⟨fuel₁, rfl, hless⟩ := exists_fuel hless
  have hskip : (nl ++ ts' ++ rest).length < fuel₁ := by omega
  have hpipeline : 6 * (ts' ++ rest).length + 3 ≤ fuel₁ := by
    simp only [List.length_append] at hless ⊢
    omega
  obtain ⟨lexer₂, h₂, hnext⟩ := listLoop_next hop h₁ hnl hts hskip
    fun hlexes => h'.parsePipeline hlexes hrest hpipe hpipeline
  refine ⟨lexer₂, fuel₁, h₂, ?_, fun c lexer'' hrun => hloop _ _ (hnext _ _ hrun)⟩
  rw [List.length_append] at hpipeline
  omega

/-- Behind a list the line ends without a separator. -/
lemma lineReturns_list (h : ListReaches ts command) : LineReturns ts [command] := by
  intro rest lexer fuel commands hlexes hrest _ hfuel
  obtain ⟨fuel, rfl, hless⟩ := exists_fuel hfuel
  have hfirst : part (first rest) = none ∧ first rest ≠ .pipe ∧ first rest ≠ .and ∧
      first rest ≠ .or ∧ first rest ≠ .semi ∧ first rest ≠ .amp := by
    simp only [endsLine, Bool.or_eq_true, decide_eq_true_eq] at hrest
    obtain (hfirst | hfirst) | hfirst := hrest <;> simp [hfirst, part]
  obtain ⟨hpart, hpipe, hand, hor, hsemi, hamp⟩ := hfirst
  obtain ⟨lexer₁, hlist, h₁⟩ := h.parseList hlexes hpart hpipe hand hor hless
  obtain ⟨lexer₂, hpeek, h₂⟩ := returns_peek_of_lexes h₁
  refine ⟨lexer₂, rest, hlist.bind (hpeek.bind ?_), h₂, .inl rfl⟩
  rw [if_neg hsemi, if_neg hamp]
  simp

lemma exists_cons_of_isSeparator {f : Command → Command} (h : IsSeparator sep f) :
    ∃ ts, sep = .semi :: ts ∨ sep = .amp :: ts := by
  cases h with
  | semi _ => exact ⟨_, .inl rfl⟩
  | semiAmp _ _ => exact ⟨_, .inl rfl⟩
  | amp _ => exact ⟨_, .inr rfl⟩

/-- A list with the separator behind it. -/
lemma separated_complete {f : Command → Command} (commands : List Command)
    (h : ListReaches ts command) (hsep : IsSeparator sep f)
    (hlexes : Lexes lexer (ts ++ sep ++ rest))
    (hrest : first (rest.dropWhile (· = .newline)) ≠ .amp)
    (hfuel : 6 * (ts ++ sep ++ rest).length + 4 ≤ fuel) :
    ∃ lexer', Lexes lexer' (rest.dropWhile (· = .newline)) ∧ ∀ cs lexer'',
      Returns (if endsLine (first (rest.dropWhile (· = .newline))) then
          pure (commands ++ [f command])
        else commandLineLoop fuel (commands ++ [f command])) lexer' cs lexer'' →
      Returns (commandLineLoop (fuel + 1) commands) lexer cs lexer'' := by
  rw [List.append_assoc] at hlexes hfuel
  have hfirst : part (first (sep ++ rest)) = none ∧ first (sep ++ rest) ≠ .pipe ∧
      first (sep ++ rest) ≠ .and ∧ first (sep ++ rest) ≠ .or := by
    obtain ⟨ts, rfl | rfl⟩ := exists_cons_of_isSeparator hsep <;> simp [part]
  obtain ⟨hpart, hpipe, hand, hor⟩ := hfirst
  obtain ⟨lexer₁, hlist, h₁⟩ := h.parseList hlexes hpart hpipe hand hor hfuel
  refine separator_complete hsep hlist h₁ hrest ?_
  rw [List.length_append] at hfuel
  omega

lemma lineReturns_last {f : Command → Command} (h : ListReaches ts command)
    (hsep : IsSeparator sep f) : LineReturns (ts ++ sep) [f command] := by
  intro rest lexer fuel commands hlexes _ hrest hfuel
  obtain ⟨fuel, rfl, hless⟩ := exists_fuel hfuel
  have hamp : first (rest.dropWhile (· = .newline)) ≠ .amp := by
    intro hamp
    simp [hamp, endsLine] at hrest
  obtain ⟨lexer₁, h₁, hloop⟩ := separated_complete commands h hsep hlexes hamp hless
  refine ⟨lexer₁, _, hloop _ _ ?_, h₁, .inr rfl⟩
  rw [if_pos hrest]
  simp

lemma lineReturns_cons {f : Command → Command} (h : ListReaches ts command)
    (hsep : IsSeparator sep f) (hts : StartsCommand ts') (h' : LineReturns ts' new) :
    LineReturns (ts ++ sep ++ ts') (f command :: new) := by
  intro rest lexer fuel commands hlexes hrest hrest' hfuel
  obtain ⟨fuel, rfl, hless⟩ := exists_fuel hfuel
  obtain ⟨hnewline, hamp, hends⟩ := (hts.append rest).ne
  have hdrop := dropWhile_newlines (by simp [Newlines] : Newlines []) hnewline
  rw [List.nil_append] at hdrop
  rw [List.append_assoc] at hlexes hless
  obtain ⟨lexer₁, h₁, hloop⟩ :=
    separated_complete commands h hsep hlexes (by rwa [hdrop]) hless
  rw [hdrop] at h₁ hloop
  have hless' : 6 * (ts' ++ rest).length + 5 ≤ fuel := by
    have hpos : sep.length ≠ 0 := by
      obtain ⟨_, rfl | rfl⟩ := exists_cons_of_isSeparator hsep <;> simp
    simp only [List.length_append] at hless ⊢
    omega
  obtain ⟨lexer₂, rest', hrun, h₂, hrest₂⟩ :=
    h' (commands ++ [f command]) h₁ hrest hrest' hless'
  refine ⟨lexer₂, rest', hloop _ _ ?_, h₂, hrest₂⟩
  rw [if_neg (by simp [hends])]
  rwa [List.append_assoc, List.singleton_append] at hrun

/-! ### Derivations -/

mutual

lemma commandReturns : ∀ {ts : List Token} {command : Command},
    IsCommand ts command → CommandReturns ts command
  | _, _, .simple hparts hne => commandReturns_simple hparts hne
  | _, _, .subshell hnl h =>
    commandReturns_subshell hnl (starts_of_isCommandLine h) (lineReturns h)

lemma pipelineReaches : ∀ {ts : List Token} {commands : List Command},
    IsPipeline ts commands → PipelineReaches ts commands
  | _, _, .command h => pipelineReaches_command (commandReturns h)
  | _, _, .pipe h hnl h' =>
    pipelineReaches_pipe (pipelineReaches h) hnl (starts_of_isCommand h') (commandReturns h')

lemma listReaches : ∀ {ts : List Token} {command : Command},
    IsList ts command → ListReaches ts command
  | _, _, .pipeline h => listReaches_pipeline (pipelineReaches h)
  | _, _, .and h hnl h' =>
    listReaches_operator (.inl ⟨rfl, rfl⟩) (listReaches h) hnl (starts_of_isPipeline h')
      (pipelineReaches h')
  | _, _, .or h hnl h' =>
    listReaches_operator (.inr ⟨rfl, rfl⟩) (listReaches h) hnl (starts_of_isPipeline h')
      (pipelineReaches h')

lemma lineReturns : ∀ {ts : List Token} {commands : List Command},
    IsCommandLine ts commands → LineReturns ts commands
  | _, _, .list h => lineReturns_list (listReaches h)
  | _, _, .last h hsep => lineReturns_last (listReaches h) hsep
  | _, _, .cons h hsep h' =>
    lineReturns_cons (listReaches h) hsep (starts_of_isCommandLine h') (lineReturns h')

end

lemma dropWhile_newlines_eq_nil (hnl : Newlines nl) : nl.dropWhile (· = .newline) = [] := by
  rw [List.dropWhile_eq_nil_iff]
  simpa [Newlines] using hnl

lemma first_of_newlines (hnl : Newlines nl) : endsLine (first nl) := by
  cases nl with
  | nil => rfl
  | cons token nl => simp [first, endsLine, hnl token List.mem_cons_self]

/-- A whole sentence is parsed, up to the end. -/
theorem parse_complete (h : IsInput ts command) (hlexes : Lexes lexer ts)
    (hfuel : 6 * ts.length + 6 ≤ fuel) :
    ∃ lexer', Returns (parse fuel) lexer command lexer' ∧ Lexes lexer' [] := by
  have hskip : ts.length < fuel := by omega
  cases h with
  | empty hnl =>
    obtain ⟨lexer₁, hskip, h₁⟩ := returns_skipNewlines hlexes hskip
    rw [dropWhile_newlines_eq_nil hnl] at h₁
    obtain ⟨lexer₂, hpeek, h₂⟩ := returns_peek_of_lexes h₁
    refine ⟨lexer₂, hskip.bind (hpeek.bind ?_), h₂⟩
    rw [if_pos (by rfl)]
    simp
  | @commandLine nl ts nl' commands hnl hline hnl' =>
    have hstarts := (starts_of_isCommandLine hline).append nl'
    have hne : first (ts ++ nl') ≠ .eof := by
      intro heof
      simpa [heof, endsLine] using hstarts.ne.2.2
    rw [List.append_assoc] at hlexes hfuel hskip
    obtain ⟨lexer₁, hskip₁, h₁⟩ := returns_skipNewlines hlexes hskip
    rw [dropWhile_newlines hnl hstarts.ne.1] at h₁
    obtain ⟨lexer₂, hpeek, h₂⟩ := returns_peek_of_lexes h₁
    have hparse : 6 * (ts ++ nl').length + 6 ≤ fuel := by
      rw [List.length_append] at hfuel
      omega
    have hline := lineReturns hline
    have hdrop := dropWhile_newlines_eq_nil hnl'
    obtain ⟨lexer₃, rest, hparse, h₃, hrest⟩ :=
      hline.parseCommandLine h₂ (first_of_newlines hnl') (by rw [hdrop]; rfl) hparse
    have hnewlines : rest.dropWhile (· = .newline) = [] ∧ rest.length < fuel := by
      obtain rfl | rfl := hrest
      · refine ⟨hdrop, ?_⟩
        simp only [List.length_append] at hskip
        omega
      · rw [hdrop]
        exact ⟨rfl, Nat.zero_lt_of_lt hskip⟩
    obtain ⟨lexer₄, hskip₄, h₄⟩ := returns_skipNewlines h₃ hnewlines.2
    rw [hnewlines.1] at h₄
    refine ⟨lexer₄, hskip₁.bind (hpeek.bind ?_), h₄⟩
    rw [if_neg hne]
    exact hparse.bind (hskip₄.bind (by simp))

/-- Each token before the end takes at least a byte. -/
lemma length_of_lexes (h : Lexes lexer ts) (hfresh : lexer.Fresh) :
    lexer.pos + ts.length ≤ byteLen lexer.input := by
  induction h with
  | eof _ =>
    obtain ⟨-, rest, hrest⟩ := hfresh
    have hlen := pos_add_byteLen hrest
    rw [List.length_nil]
    omega
  | @token lexer lexer' token ts htoken htakes hrest ih =>
    have hcomment := Lexer.asciiComment_of_next hfresh
      (by rw [show lexer.next = _ from htakes]; simp)
    obtain ⟨result, lexer₁, hnext, hinput, hfresh', hread⟩ := Lexer.next_ahead hfresh hcomment
    obtain ⟨rfl, rfl⟩ := Prod.mk.inj (Option.some.inj (htakes.symm.trans hnext))
    have hlen := ih hfresh'
    rw [hinput] at hlen
    obtain heof | hlt := hread
    · exact absurd (Except.ok.inj heof) htoken
    · rw [List.length_cons]
      omega

/-- A sentence has one tree. -/
theorem isInput_unique {command' : Command} (hlexes : Lexes lexer ts) (h : IsInput ts command)
    (h' : IsInput ts command') : command = command' := by
  obtain ⟨_, hparse, -⟩ := parse_complete h hlexes le_rfl
  obtain ⟨_, hparse', -⟩ := parse_complete h' hlexes le_rfl
  have hsame := Except.ok.inj (Option.some.inj (hparse.symm.trans hparse'))
  exact (Prod.mk.inj hsame).1

/-- A parse returns at the end of the input if, and only if, the tokens of the input are a sentence,
and then it returns its tree. -/
theorem parse_eq_ok_iff (input : Text) (command : Command) :
    (∃ lexer, Shell.parse input = some (.ok (command, lexer)) ∧ Lexes lexer []) ↔
      ∃ ts, Lexes (.new input) ts ∧ IsInput ts command := by
  constructor
  · rintro ⟨lexer, hparse, hend⟩
    obtain ⟨ts, hsentence, hreads⟩ := parse_sound hparse
    have hlexes := hreads [] hend
    rw [List.append_nil] at hlexes
    exact ⟨ts, hlexes, hsentence⟩
  · rintro ⟨ts, hlexes, hsentence⟩
    have hlen : 0 + ts.length ≤ byteLen input := length_of_lexes hlexes ⟨rfl, boundary_zero⟩
    have hfuel : 6 * ts.length + 6 ≤ 6 * byteLen input + 6 := by omega
    exact parse_complete hsentence hlexes hfuel

/-! ### The documented grammar -/

/-- A documented sentence starts with a word or a subshell. -/
def DocStarts (ts : List Token) : Prop := (first ts matches .word _) ∨ first ts = .lParen

lemma DocStarts.append (h : DocStarts ts) (rest : List Token) : DocStarts (ts ++ rest) := by
  cases ts with
  | nil => simp [DocStarts, first] at h
  | cons token ts => exact h

lemma docStarts_simpleCommand (h : DocSimpleCommand ts) : DocStarts ts := by
  induction h with
  | @words words hne =>
    cases words with
    | nil => exact absurd rfl hne
    | cons w words => exact .inl rfl
  | redirect _ _ ih => exact ih.append _

mutual

lemma docStarts_command : ∀ {ts : List Token}, DocCommand ts → DocStarts ts
  | _, .simple h => docStarts_simpleCommand h
  | _, .subshell _ => .inr rfl

lemma docStarts_pipeline : ∀ {ts : List Token}, DocPipeline ts → DocStarts ts
  | _, .command h => docStarts_command h
  | _, .pipe h _ => (docStarts_pipeline h).append _

lemma docStarts_list : ∀ {ts : List Token}, DocList ts → DocStarts ts
  | _, .pipeline h => docStarts_pipeline h
  | _, .and h _ => (docStarts_list h).append _
  | _, .or h _ => (docStarts_list h).append _

lemma docStarts_asyncCmd : ∀ {ts : List Token}, DocAsyncCmd ts → DocStarts ts
  | _, .list h => docStarts_list h
  | _, .amp h => (docStarts_list h).append _

lemma docStarts_commandLine : ∀ {ts : List Token}, DocCommandLine ts → DocStarts ts
  | _, .asyncCmd h => docStarts_asyncCmd h
  | _, .separator h _ _ => (docStarts_commandLine h).append _

end

/-- A redirect alone is parsed, though the documented grammar asks for a word before it. -/
theorem not_documented_redirectOnly :
    ∃ command lexer ts, Shell.parse "> f".toList = some (.ok (command, lexer)) ∧
      Lexes lexer [] ∧ Lexes (.new "> f".toList) ts ∧ ¬DocCommandLine ts := by
  have hlexes : Lexes (.new "> f".toList) [.redirectOut, .word (.unquoted ['f'])] := by
    refine .token (by decide) (?_ : Takes _ _ ⟨"> f".toList, 1, none⟩)
      (.token (by decide) (?_ : Takes _ _ ⟨"> f".toList, 3, none⟩)
        (.eof (?_ : Takes _ _ ⟨"> f".toList, 3, none⟩)))
    all_goals
      unfold Takes
      decide +kernel
  have hparts : IsParts [.redirectOut, .word (.unquoted ['f'])] [] _ :=
    .file (.unquoted ['f']) rfl .nil
  have hline : IsCommandLine [.redirectOut, .word (.unquoted ['f'])] _ :=
    .list (.pipeline (.command (.simple hparts (by simp))))
  have hnl : Newlines [] := by simp [Newlines]
  obtain ⟨lexer, hparse, hend⟩ :=
    parse_complete (.commandLine hnl hline hnl) hlexes (by decide : _ ≤ 24)
  refine ⟨_, lexer, _, hparse, hend, hlexes, fun hdoc => ?_⟩
  simpa [DocStarts, first] using docStarts_commandLine hdoc

end AmlaSandbox.Shell.Parser
