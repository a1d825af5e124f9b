import AmlaSandbox.Shell.Grammar

/-!
# What the parser accepts

`Returns` is the outcome of a parser that neither fails nor panics. Each primitive has a rule for
what was read when it returned, and one for that it returns on known tokens.

A function of the parser that returns has read a sentence of its nonterminal and returns the tree of
it. The loops extend the sentence that was read before them.
-/

namespace AmlaSandbox.Shell.Parser

/-! ## What a parser returns -/

section

variable {α β : Type} {x : Parser α} {f : α → Parser β} {lexer lexer' lexer'' : Lexer} {a : α}
  {b : β} {token : Token} {ts nl rest : List Token} {fuel : ℕ}

def Returns (x : Parser α) (lexer : Lexer) (a : α) (lexer' : Lexer) : Prop :=
  x lexer = .mk (some (.ok (a, lexer')))

/-! ### The monad -/

@[simp] lemma returns_pure {a' : α} :
    Returns (pure a) lexer a' lexer' ↔ a' = a ∧ lexer' = lexer := by
  constructor
  · intro h
    have h := Except.ok.inj (Option.some.inj h)
    exact ⟨(Prod.mk.inj h).1.symm, (Prod.mk.inj h).2.symm⟩
  · rintro ⟨rfl, rfl⟩
    rfl

lemma returns_bind :
    Returns (x >>= f) lexer b lexer'' ↔
      ∃ a lexer', Returns x lexer a lexer' ∧ Returns (f a) lexer' b lexer'' := by
  have hbind : (x >>= f) lexer =
      Option.bind (x lexer) (ExceptT.bindCont fun r => f r.1 r.2) := rfl
  unfold Returns
  rw [hbind]
  constructor
  · intro h
    obtain ⟨result, hx, hf⟩ := Option.bind_eq_some_iff.mp h
    cases result with
    | ok r => exact ⟨r.1, r.2, hx, hf⟩
    | error e => cases hf
  · rintro ⟨a, lexer', hx, hf⟩
    exact Option.bind_eq_some_iff.mpr ⟨_, hx, hf⟩

@[simp] lemma not_returns_outOfFuel : ¬Returns outOfFuel lexer a lexer' := nofun

@[simp] lemma not_returns_fail {e : ShellError} : ¬Returns (fail e) lexer a lexer' := nofun

lemma returns_peek : Returns peek lexer token lexer' ↔ lexer.peek = some (.ok token, lexer') := by
  constructor
  · intro h
    obtain ⟨⟨result, lexer₁⟩, hpeek, heq⟩ := Option.map_eq_some_iff.mp h
    cases result with
    | ok token =>
      obtain ⟨rfl, rfl⟩ := Prod.mk.inj (Except.ok.inj heq)
      exact hpeek
    | error e => cases heq
  · intro h
    exact Option.map_eq_some_iff.mpr ⟨_, h, rfl⟩

lemma returns_next : Returns next lexer token lexer' ↔ Takes lexer token lexer' := by
  constructor
  · intro h
    obtain ⟨⟨result, lexer₁⟩, hnext, heq⟩ := Option.map_eq_some_iff.mp h
    cases result with
    | ok token =>
      obtain ⟨rfl, rfl⟩ := Prod.mk.inj (Except.ok.inj heq)
      exact hnext
    | error e => cases heq
  · intro h
    exact Option.map_eq_some_iff.mpr ⟨_, h, rfl⟩

lemma Returns.bind (h : Returns x lexer a lexer') (h' : Returns (f a) lexer' b lexer'') :
    Returns (x >>= f) lexer b lexer'' := returns_bind.mpr ⟨a, lexer', h, h'⟩

/-! ### Reading tokens -/

lemma reads_of_peek (h : Returns peek lexer token lexer') : Reads lexer [] lexer' :=
  .of_peek (returns_peek.mp h)

/-- What is taken is what was looked at. -/
lemma reads_of_peek_next {token' : Token} (hpeek : Returns peek lexer token lexer')
    (htoken : token ≠ .eof) (hnext : Returns next lexer' token' lexer'') :
    Reads lexer [token] lexer'' := by
  have htakes := takes_of_peeked (next_of_peek (returns_peek.mp hpeek)).2
  have hsame := htakes.symm.trans (returns_next.mp hnext)
  obtain ⟨-, rfl⟩ := Prod.mk.inj (Option.some.inj hsame)
  exact (reads_of_peek hpeek).trans (.of_takes htoken htakes)

lemma reads_of_skipNewlines (h : Returns (skipNewlines fuel) lexer () lexer') :
    ∃ nl, Newlines nl ∧ Reads lexer nl lexer' := by
  induction fuel generalizing lexer with
  | zero => exact absurd h not_returns_outOfFuel
  | succ fuel ih =>
    obtain ⟨token, lexer₁, hpeek, h⟩ := returns_bind.mp h
    split_ifs at h with htoken
    · obtain ⟨_, lexer₂, hnext, h⟩ := returns_bind.mp h
      obtain ⟨nl, hnl, hreads⟩ := ih h
      refine ⟨token :: nl, List.forall_mem_cons.mpr ⟨htoken, hnl⟩, ?_⟩
      exact (reads_of_peek_next hpeek (by simp [htoken]) hnext).trans hreads
    · obtain ⟨-, rfl⟩ := returns_pure.mp h
      exact ⟨[], by simp [Newlines], reads_of_peek hpeek⟩

lemma reads_of_expect {expected : Token} (hexpected : expected ≠ .eof)
    (h : Returns (expect expected) lexer () lexer') : Reads lexer [expected] lexer' := by
  obtain ⟨token, lexer₁, hnext, h⟩ := returns_bind.mp h
  split_ifs at h with htoken
  · rw [htoken] at hnext
    obtain ⟨-, rfl⟩ := returns_pure.mp h
    exact .of_takes hexpected (returns_next.mp hnext)
  · obtain ⟨_, _, _, h⟩ := returns_bind.mp h
    exact absurd h not_returns_fail

lemma reads_of_expectWord {w : Word} (h : Returns expectWord lexer w lexer') :
    Reads lexer [.word w] lexer' := by
  obtain ⟨token, lexer₁, hnext, h⟩ := returns_bind.mp h
  split at h
  · obtain ⟨rfl, rfl⟩ := returns_pure.mp h
    exact .of_takes (by simp) (returns_next.mp hnext)
  · obtain ⟨_, _, _, h⟩ := returns_bind.mp h
    exact absurd h not_returns_fail

/-! ### Returning on known tokens -/

lemma returns_peek_of_lexes (h : Lexes lexer ts) :
    ∃ lexer', Returns peek lexer (first ts) lexer' ∧ Lexes lexer' ts := by
  obtain ⟨lexer', hpeek, hlexes⟩ := h.peek
  exact ⟨lexer', returns_peek.mpr hpeek, hlexes⟩

lemma returns_next_of_lexes (h : Lexes lexer (token :: ts)) :
    ∃ lexer', Returns next lexer token lexer' ∧ Lexes lexer' ts := by
  obtain ⟨-, lexer', htakes, hlexes⟩ := h.next
  exact ⟨lexer', returns_next.mpr htakes, hlexes⟩

lemma returns_skipNewlines (h : Lexes lexer ts) (hfuel : ts.length < fuel) :
    ∃ lexer', Returns (skipNewlines fuel) lexer () lexer' ∧
      Lexes lexer' (ts.dropWhile (· = .newline)) := by
  induction fuel generalizing lexer ts with
  | zero => exact absurd hfuel ts.length.not_lt_zero
  | succ fuel ih =>
    obtain ⟨lexer₁, hpeek, h₁⟩ := returns_peek_of_lexes h
    cases ts with
    | nil => exact ⟨lexer₁, hpeek.bind (by simp [first]), h₁⟩
    | cons token ts =>
      by_cases htoken : token = .newline
      · obtain ⟨lexer₂, hnext, h₂⟩ := returns_next_of_lexes h₁
        obtain ⟨lexer', hskip, h'⟩ := ih h₂ (Nat.lt_of_succ_lt_succ hfuel)
        refine ⟨lexer', hpeek.bind ?_, ?_⟩
        · rw [first_cons, if_pos htoken]
          exact hnext.bind hskip
        · rwa [List.dropWhile_cons_of_pos (by simpa using htoken)]
      · refine ⟨lexer₁, hpeek.bind ?_, ?_⟩
        · simp [htoken]
        · rwa [List.dropWhile_cons_of_neg (by simpa using htoken)]

lemma returns_expect (h : Lexes lexer (token :: ts)) :
    ∃ lexer', Returns (expect token) lexer () lexer' ∧ Lexes lexer' ts := by
  obtain ⟨lexer', hnext, hlexes⟩ := returns_next_of_lexes h
  exact ⟨lexer', hnext.bind (by simp), hlexes⟩

lemma returns_expectWord {w : Word} (h : Lexes lexer (.word w :: ts)) :
    ∃ lexer', Returns expectWord lexer w lexer' ∧ Lexes lexer' ts := by
  obtain ⟨lexer', hnext, hlexes⟩ := returns_next_of_lexes h
  exact ⟨lexer', hnext.bind (returns_pure.mpr ⟨rfl, rfl⟩), hlexes⟩

end

/-! ## Sentences -/

variable {lexer lexer' : Lexer} {fuel : ℕ} {command command' left : Command}
  {commands commands' : List Command} {argv argv' : List Word}
  {redirects redirects' : List Redirect}

/-! ### Simple commands -/

lemma ne_eof_of_part {token : Token} {p : Part} (h : part token = some p) : token ≠ .eof := by
  rintro rfl
  cases h

lemma eq_word_of_part {token : Token} {w : Word} (h : part token = some (.word w)) :
    token = .word w := by
  cases token <;> cases h
  rfl

lemma simpleLoop_sound
    (h : Returns (simpleLoop fuel argv redirects) lexer (argv', redirects') lexer') :
    ∃ ts ws rs, argv' = argv ++ ws ∧ redirects' = redirects ++ rs ∧ IsParts ts ws rs ∧
      Reads lexer ts lexer' := by
  induction fuel generalizing lexer argv redirects with
  | zero => exact absurd h not_returns_outOfFuel
  | succ fuel ih =>
    obtain ⟨token, lexer₁, hpeek, h⟩ := returns_bind.mp h
    split at h
    · rename_i w hw
      obtain rfl := eq_word_of_part hw
      obtain ⟨_, lexer₂, hnext, h⟩ := returns_bind.mp h
      obtain ⟨ts, ws, rs, rfl, rfl, hparts, hreads⟩ := ih h
      exact ⟨.word w :: ts, w :: ws, rs, by simp, rfl, hparts.word w,
        (reads_of_peek_next hpeek (by simp) hnext).trans hreads⟩
    · rename_i f hf
      obtain ⟨_, lexer₂, hnext, h⟩ := returns_bind.mp h
      obtain ⟨w, lexer₃, hword, h⟩ := returns_bind.mp h
      obtain ⟨ts, ws, rs, rfl, rfl, hparts, hreads⟩ := ih h
      have hop := reads_of_peek_next hpeek (ne_eof_of_part hf) hnext
      exact ⟨token :: .word w :: ts, ws, f w ++ rs, rfl, by simp, hparts.file w hf,
        hop.trans ((reads_of_expectWord hword).trans hreads)⟩
    · rename_i redirect hredirect
      obtain ⟨_, lexer₂, hnext, h⟩ := returns_bind.mp h
      obtain ⟨ts, ws, rs, rfl, rfl, hparts, hreads⟩ := ih h
      have hop := reads_of_peek_next hpeek (ne_eof_of_part hredirect) hnext
      exact ⟨token :: ts, ws, redirect :: rs, rfl, by simp, hparts.redirect hredirect,
        hop.trans hreads⟩
    · obtain ⟨heq, rfl⟩ := returns_pure.mp h
      obtain ⟨rfl, rfl⟩ := Prod.mk.inj heq
      exact ⟨[], [], [], by simp, by simp, .nil, reads_of_peek hpeek⟩

lemma parseSimpleCommand_sound (h : Returns (parseSimpleCommand fuel) lexer command lexer') :
    ∃ ts, IsCommand ts command ∧ Reads lexer ts lexer' := by
  obtain ⟨⟨argv, redirects⟩, lexer₁, hloop, h⟩ := returns_bind.mp h
  obtain ⟨ts, ws, rs, hargv, hredirects, hparts, hreads⟩ := simpleLoop_sound hloop
  rw [List.nil_append] at hargv hredirects
  subst hargv hredirects
  dsimp only at h
  by_cases hempty : argv = [] ∧ redirects = []
  · rw [if_pos hempty] at h
    obtain ⟨_, _, _, h⟩ := returns_bind.mp h
    exact absurd h not_returns_fail
  · rw [if_neg hempty] at h
    obtain ⟨rfl, rfl⟩ := returns_pure.mp h
    refine ⟨ts, .simple hparts ?_, hreads⟩
    rintro rfl
    cases hparts
    exact hempty ⟨rfl, rfl⟩

/-! ### Command lines -/

/-- The functions of the parser are sound with so much fuel. -/
structure Sound (fuel : ℕ) : Prop where
  commandLineLoop {lexer lexer' : Lexer} {commands commands' : List Command} :
    Returns (commandLineLoop fuel commands) lexer commands' lexer' →
      ∃ ts new, commands' = commands ++ new ∧ IsCommandLine ts new ∧ Reads lexer ts lexer'
  parseCommandLine {lexer lexer' : Lexer} {command : Command} :
    Returns (parseCommandLine fuel) lexer command lexer' →
      ∃ ts commands, command = .ofSequence commands ∧ IsCommandLine ts commands ∧
        Reads lexer ts lexer'
  listLoop {lexer lexer' : Lexer} {left command : Command} :
    Returns (listLoop fuel left) lexer command lexer' →
      ∃ ts, (∀ front, IsList front left → IsList (front ++ ts) command) ∧ Reads lexer ts lexer'
  parseList {lexer lexer' : Lexer} {command : Command} :
    Returns (parseList fuel) lexer command lexer' →
      ∃ ts, IsList ts command ∧ Reads lexer ts lexer'
  pipelineLoop {lexer lexer' : Lexer} {commands commands' : List Command} :
    Returns (pipelineLoop fuel commands) lexer commands' lexer' →
      ∃ ts, (∀ front, IsPipeline front commands → IsPipeline (front ++ ts) commands') ∧
        Reads lexer ts lexer'
  parsePipeline {lexer lexer' : Lexer} {command : Command} :
    Returns (parsePipeline fuel) lexer command lexer' →
      ∃ ts commands, command = .ofPipeline commands ∧ IsPipeline ts commands ∧
        Reads lexer ts lexer'
  parseCommand {lexer lexer' : Lexer} {command : Command} :
    Returns (parseCommand fuel) lexer command lexer' →
      ∃ ts, IsCommand ts command ∧ Reads lexer ts lexer'

lemma sound_zero : Sound 0 where
  commandLineLoop h := absurd h not_returns_outOfFuel
  parseCommandLine h := absurd h not_returns_outOfFuel
  listLoop h := absurd h not_returns_outOfFuel
  parseList h := absurd h not_returns_outOfFuel
  pipelineLoop h := absurd h not_returns_outOfFuel
  parsePipeline h := absurd h not_returns_outOfFuel
  parseCommand h := absurd h not_returns_outOfFuel

variable (ih : Sound fuel)

include ih

lemma parseCommand_sound (h : Returns (parseCommand (fuel + 1)) lexer command lexer') :
    ∃ ts, IsCommand ts command ∧ Reads lexer ts lexer' := by
  obtain ⟨token, lexer₁, hpeek, h⟩ := returns_bind.mp h
  split_ifs at h with htoken
  · obtain rfl := htoken
    obtain ⟨_, lexer₂, hnext, h⟩ := returns_bind.mp h
    obtain ⟨_, lexer₃, hskip, h⟩ := returns_bind.mp h
    obtain ⟨inner, lexer₄, hline, h⟩ := returns_bind.mp h
    obtain ⟨_, lexer₅, hexpect, h⟩ := returns_bind.mp h
    obtain ⟨rfl, rfl⟩ := returns_pure.mp h
    obtain ⟨nl, hnl, hreads⟩ := reads_of_skipNewlines hskip
    obtain ⟨ts, commands, rfl, hsentence, hreads'⟩ := ih.parseCommandLine hline
    have hopen := reads_of_peek_next hpeek (by simp) hnext
    have hclose := reads_of_expect (by simp) hexpect
    exact ⟨_, .subshell hnl hsentence, ((hopen.trans hreads).trans hreads').trans hclose⟩
  · obtain ⟨ts, hcommand, hreads⟩ := parseSimpleCommand_sound h
    exact ⟨ts, hcommand, (reads_of_peek hpeek).trans hreads⟩

lemma pipelineLoop_sound
    (h : Returns (pipelineLoop (fuel + 1) commands) lexer commands' lexer') :
    ∃ ts, (∀ front, IsPipeline front commands → IsPipeline (front ++ ts) commands') ∧
      Reads lexer ts lexer' := by
  obtain ⟨token, lexer₁, hpeek, h⟩ := returns_bind.mp h
  split_ifs at h with htoken
  · obtain rfl := htoken
    obtain ⟨_, lexer₂, hnext, h⟩ := returns_bind.mp h
    obtain ⟨_, lexer₃, hskip, h⟩ := returns_bind.mp h
    obtain ⟨command, lexer₄, hcommand, h⟩ := returns_bind.mp h
    obtain ⟨nl, hnl, hreads₁⟩ := reads_of_skipNewlines hskip
    obtain ⟨ts₁, hsentence, hreads₂⟩ := ih.parseCommand hcommand
    obtain ⟨ts₂, hextend, hreads₃⟩ := ih.pipelineLoop h
    have hpipe := reads_of_peek_next hpeek (by simp) hnext
    refine ⟨_, ?_, ((hpipe.trans hreads₁).trans hreads₂).trans hreads₃⟩
    intro front hfront
    simpa using hextend _ (.pipe hfront hnl hsentence)
  · obtain ⟨rfl, rfl⟩ := returns_pure.mp h
    exact ⟨[], by simp, reads_of_peek hpeek⟩

lemma parsePipeline_sound (h : Returns (parsePipeline (fuel + 1)) lexer command lexer') :
    ∃ ts commands, command = .ofPipeline commands ∧ IsPipeline ts commands ∧
      Reads lexer ts lexer' := by
  obtain ⟨first, lexer₁, hcommand, h⟩ := returns_bind.mp h
  obtain ⟨commands, lexer₂, hloop, h⟩ := returns_bind.mp h
  obtain ⟨rfl, rfl⟩ := returns_pure.mp h
  obtain ⟨ts₁, hsentence, hreads₁⟩ := ih.parseCommand hcommand
  obtain ⟨ts₂, hextend, hreads₂⟩ := ih.pipelineLoop hloop
  exact ⟨_, commands, rfl, hextend _ (.command hsentence), hreads₁.trans hreads₂⟩

/-- An operator and the pipeline behind it extend a list, and the loop goes on. -/
lemma operator_sound {op : Token} {join : Command → Command → Command} {lexer₁ : Lexer}
    (hop : op ≠ .eof)
    (hjoin : ∀ {front nl ts : List Token} {commands : List Command}, IsList front left →
      Newlines nl → IsPipeline ts commands →
        IsList (front ++ op :: nl ++ ts) (join left (.ofPipeline commands)))
    (hpeek : Returns peek lexer op lexer₁)
    (h : Returns (do
      let _ ← next
      skipNewlines fuel
      let right ← parsePipeline fuel
      listLoop fuel (join left right)) lexer₁ command lexer') :
    ∃ ts, (∀ front, IsList front left → IsList (front ++ ts) command) ∧ Reads lexer ts lexer' := by
  obtain ⟨_, lexer₂, hnext, h⟩ := returns_bind.mp h
  obtain ⟨_, lexer₃, hskip, h⟩ := returns_bind.mp h
  obtain ⟨right, lexer₄, hpipeline, h⟩ := returns_bind.mp h
  obtain ⟨nl, hnl, hreads₁⟩ := reads_of_skipNewlines hskip
  obtain ⟨ts₁, commands, rfl, hsentence, hreads₂⟩ := ih.parsePipeline hpipeline
  obtain ⟨ts₂, hextend, hreads₃⟩ := ih.listLoop h
  have hread := reads_of_peek_next hpeek hop hnext
  refine ⟨_, ?_, ((hread.trans hreads₁).trans hreads₂).trans hreads₃⟩
  intro front hfront
  simpa using hextend _ (hjoin hfront hnl hsentence)

lemma listLoop_sound (h : Returns (listLoop (fuel + 1) left) lexer command lexer') :
    ∃ ts, (∀ front, IsList front left → IsList (front ++ ts) command) ∧ Reads lexer ts lexer' := by
  obtain ⟨token, lexer₁, hpeek, h⟩ := returns_bind.mp h
  split_ifs at h with hand hor
  · obtain rfl := hand
    exact operator_sound ih (by simp) .and hpeek h
  · obtain rfl := hor
    exact operator_sound ih (by simp) .or hpeek h
  · obtain ⟨rfl, rfl⟩ := returns_pure.mp h
    exact ⟨[], by simp, reads_of_peek hpeek⟩

lemma parseList_sound (h : Returns (parseList (fuel + 1)) lexer command lexer') :
    ∃ ts, IsList ts command ∧ Reads lexer ts lexer' := by
  obtain ⟨first, lexer₁, hpipeline, h⟩ := returns_bind.mp h
  obtain ⟨ts₁, commands, rfl, hsentence, hreads₁⟩ := ih.parsePipeline hpipeline
  obtain ⟨ts₂, hextend, hreads₂⟩ := ih.listLoop h
  exact ⟨_, hextend _ (.pipeline hsentence), hreads₁.trans hreads₂⟩

/-- Behind a separator the line ends, or goes on. -/
lemma separator_sound {lexer₁ lexer₂ : Lexer} {token : Token} {ts sep : List Token}
    {f : Command → Command} (hlist : IsList ts command) (hsep : IsSeparator sep f)
    (hreads : Reads lexer (ts ++ sep) lexer₁) (hpeek : Returns peek lexer₁ token lexer₂)
    (h : Returns (if endsLine token then pure (commands ++ [f command])
      else commandLineLoop fuel (commands ++ [f command])) lexer₂ commands' lexer') :
    ∃ ts new, commands' = commands ++ new ∧ IsCommandLine ts new ∧ Reads lexer ts lexer' := by
  have hreads' := hreads.trans (reads_of_peek hpeek)
  rw [List.append_nil] at hreads'
  split_ifs at h
  · obtain ⟨rfl, rfl⟩ := returns_pure.mp h
    exact ⟨_, [f command], rfl, .last hlist hsep, hreads'⟩
  · obtain ⟨ts', new, rfl, hline, hrest⟩ := ih.commandLineLoop h
    exact ⟨_, f command :: new, by simp, .cons hlist hsep hline, hreads'.trans hrest⟩

lemma commandLineLoop_sound
    (h : Returns (commandLineLoop (fuel + 1) commands) lexer commands' lexer') :
    ∃ ts new, commands' = commands ++ new ∧ IsCommandLine ts new ∧ Reads lexer ts lexer' := by
  obtain ⟨list, lexer₁, hlist, h⟩ := returns_bind.mp h
  obtain ⟨ts, hsentence, hreads⟩ := ih.parseList hlist
  obtain ⟨token, lexer₂, hpeek, h⟩ := returns_bind.mp h
  by_cases hsemi : token = .semi
  · obtain rfl := hsemi
    rw [if_pos rfl] at h
    obtain ⟨_, lexer₃, hnext, h⟩ := returns_bind.mp h
    obtain ⟨_, lexer₄, hskip, h⟩ := returns_bind.mp h
    obtain ⟨token, lexer₅, hpeek', h⟩ := returns_bind.mp h
    obtain ⟨nl, hnl, hskipped⟩ := reads_of_skipNewlines hskip
    have hreads₁ := hreads.trans ((reads_of_peek_next hpeek (by simp) hnext).trans hskipped)
    by_cases hamp : token = .amp
    · obtain rfl := hamp
      rw [if_neg (by decide), if_pos rfl] at h
      obtain ⟨_, lexer₆, hnext', h⟩ := returns_bind.mp h
      obtain ⟨_, lexer₇, hskip', h⟩ := returns_bind.mp h
      obtain ⟨token, lexer₈, hpeek'', h⟩ := returns_bind.mp h
      obtain ⟨nl', hnl', hskipped'⟩ := reads_of_skipNewlines hskip'
      have hreads₂ := hreads₁.trans ((reads_of_peek_next hpeek' (by simp) hnext').trans hskipped')
      refine separator_sound ih hsentence (.semiAmp hnl hnl') ?_ hpeek'' h
      simpa using hreads₂
    · rw [if_neg hamp] at h
      exact separator_sound ih hsentence (.semi hnl) hreads₁ hpeek' h
  · rw [if_neg hsemi] at h
    by_cases hamp : token = .amp
    · obtain rfl := hamp
      rw [if_pos rfl] at h
      obtain ⟨_, lexer₃, hnext, h⟩ := returns_bind.mp h
      obtain ⟨_, lexer₄, hskip, h⟩ := returns_bind.mp h
      obtain ⟨token, lexer₅, hpeek', h⟩ := returns_bind.mp h
      obtain ⟨nl, hnl, hskipped⟩ := reads_of_skipNewlines hskip
      have hreads₁ := hreads.trans ((reads_of_peek_next hpeek (by simp) hnext).trans hskipped)
      exact separator_sound ih hsentence (.amp hnl) hreads₁ hpeek' h
    · rw [if_neg hamp] at h
      obtain ⟨rfl, rfl⟩ := returns_pure.mp h
      have hreads₁ := hreads.trans (reads_of_peek hpeek)
      rw [List.append_nil] at hreads₁
      exact ⟨ts, [list], rfl, .list hsentence, hreads₁⟩

lemma parseCommandLine_sound (h : Returns (parseCommandLine (fuel + 1)) lexer command lexer') :
    ∃ ts commands, command = .ofSequence commands ∧ IsCommandLine ts commands ∧
      Reads lexer ts lexer' := by
  obtain ⟨commands, lexer₁, hloop, h⟩ := returns_bind.mp h
  obtain ⟨rfl, rfl⟩ := returns_pure.mp h
  obtain ⟨ts, new, rfl, hline, hreads⟩ := ih.commandLineLoop hloop
  exact ⟨ts, _, rfl, hline, hreads⟩

omit ih

theorem sound : Sound fuel := by
  induction fuel with
  | zero => exact sound_zero
  | succ fuel ih => exact {
      commandLineLoop := commandLineLoop_sound ih
      parseCommandLine := parseCommandLine_sound ih
      listLoop := listLoop_sound ih
      parseList := parseList_sound ih
      pipelineLoop := pipelineLoop_sound ih
      parsePipeline := parsePipeline_sound ih
      parseCommand := parseCommand_sound ih }

/-- Where a parse returns at the end of its input, it has read a sentence. -/
theorem parse_sound (h : Returns (parse fuel) lexer command lexer') :
    ∃ ts, IsInput ts command ∧ Reads lexer ts lexer' := by
  obtain ⟨_, lexer₁, hskip, h⟩ := returns_bind.mp h
  obtain ⟨token, lexer₂, hpeek, h⟩ := returns_bind.mp h
  obtain ⟨nl, hnl, hskipped⟩ := reads_of_skipNewlines hskip
  have hreads := hskipped.trans (reads_of_peek hpeek)
  rw [List.append_nil] at hreads
  split_ifs at h
  · obtain ⟨rfl, rfl⟩ := returns_pure.mp h
    exact ⟨nl, .empty hnl, hreads⟩
  · obtain ⟨line, lexer₃, hline, h⟩ := returns_bind.mp h
    obtain ⟨_, lexer₄, hskip', h⟩ := returns_bind.mp h
    obtain ⟨rfl, rfl⟩ := returns_pure.mp h
    obtain ⟨ts, commands, rfl, hsentence, hreads'⟩ := sound.parseCommandLine hline
    obtain ⟨nl', hnl', hskipped'⟩ := reads_of_skipNewlines hskip'
    exact ⟨_, .commandLine hnl hsentence hnl', (hreads.trans hreads').trans hskipped'⟩

end AmlaSandbox.Shell.Parser
