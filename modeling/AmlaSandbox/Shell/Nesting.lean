import AmlaSandbox.Shell.Boundary
import AmlaSandbox.Shell.Simulation
import AmlaSandbox.Shell.Soundness

/-!
# Nested substitutions

A command substitution has fewer bytes than the text that it occurs in. So substitutions are nested
to a finite depth, and each of them runs its command in a shell of the same kind.
-/

namespace AmlaSandbox.Shell

open Text Library Computation

variable {input : Text} {pos pos' : ℕ}

/-! ### Loops -/

lemma pos_le (h : Boundary input pos) : pos ≤ byteLen input := by
  obtain ⟨rest, hrest⟩ := h
  have := pos_add_byteLen hrest
  omega

def Flow.Holds {α : Type} (P : ℕ → α → Prop) : Flow α → Prop
  | .next pos a | .stop pos a => P pos a

/-- What each round of a loop keeps. -/
lemma whileChars_keeps {α : Type} {cond : α → Bool}
    {body : ℕ → Char → Text → α → Option (Flow α)} {P : ℕ → α → Prop} {a a' : α}
    (hbody : ∀ pos c rest a flow, sliceFrom input pos = some (c :: rest) → P pos a →
      body pos c rest a = some flow → flow.Holds P)
    (hpos : P pos a) (h : whileChars input cond body pos a = some (pos', a')) : P pos' a' := by
  induction hn : byteLen input - pos using Nat.strong_induction_on generalizing pos a with
  | _ n ih =>
    rw [whileChars] at h
    split_ifs at h with hgo
    · split at h
      · rename_i c rest hslice
        split at h
        · rename_i next a₁ hround
          split_ifs at h with hlt
          exact ih _ (by omega) (hbody _ _ _ _ _ hslice hpos hround) h rfl
        · rename_i stop a₁ hround
          obtain ⟨rfl, rfl⟩ := Prod.mk.inj (Option.some.inj h)
          exact hbody _ _ _ _ _ hslice hpos hround
        · cases h
      · cases h
    · obtain ⟨rfl, rfl⟩ := Prod.mk.inj (Option.some.inj h)
      exact hpos

/-! ### The length of a substitution -/

/-- What was pushed to the content has been read behind a position. -/
def ReadFrom (start pos : ℕ) (content : Text) : Prop := byteLen content + start ≤ pos

variable {start : ℕ} {content content' : Text} {c : Char}

lemma ReadFrom.push (h : ReadFrom start pos content) (c : Char) :
    ReadFrom start (pos + c.utf8Size) (content ++ [c]) := by
  unfold ReadFrom at *
  simp only [byteLen_append, byteLen_cons, byteLen_nil]
  omega

lemma copySingleQuoted_readFrom (hread : ReadFrom start pos content)
    (h : copySingleQuoted input pos content = some (pos', content')) :
    ReadFrom start pos' content' := by
  refine whileChars_keeps ?_ hread h
  intro pos c rest content flow _ hread hbody
  split_ifs at hbody
  · cases hbody
    exact hread.push c
  · cases hbody
    exact hread.push c

lemma copyDoubleQuoted_readFrom (hread : ReadFrom start pos content)
    (h : copyDoubleQuoted input pos content = some (pos', content')) :
    ReadFrom start pos' content' := by
  refine whileChars_keeps ?_ hread h
  intro pos c rest content flow _ hread hbody
  have hc := hread.push c
  dsimp only at hbody
  split_ifs at hbody
  · cases hbody
    exact hc
  · split at hbody
    · cases hbody
      exact hc.push _
    · cases hbody
  · cases hbody
    exact hc

/-- The command is part of what is read. -/
lemma lexCommandSubstitution_readFrom {cmd : Text}
    (h : lexCommandSubstitution input pos = some (pos', cmd)) : ReadFrom pos pos' cmd := by
  obtain ⟨⟨pos₁, content, depth⟩, hloop, heq⟩ := Option.map_eq_some_iff.mp h
  obtain ⟨rfl, rfl⟩ := Prod.mk.inj heq
  refine whileChars_keeps (P := fun at_ a => ReadFrom pos at_ a.1) ?_ (by simp [ReadFrom]) hloop
  rintro pos c rest ⟨content, depth⟩ flow _ hread hbody
  have hc := hread.push c
  dsimp only at hread hc hbody
  split_ifs at hbody with hopen hclose hdepth hnested hsingle hdouble hbackslash hend
  · cases hbody
    rw [hopen] at hc ⊢
    exact hc
  · cases hbody
    rw [hclose] at hc ⊢
    exact hc
  · cases hbody
    exact Nat.le_succ_of_le hread
  · cases hbody
    rw [hnested.1] at hc
    have := hc.push '('
    rwa [List.append_assoc] at this
  · obtain ⟨⟨pos₂, content₂⟩, hcopy, rfl⟩ := Option.map_eq_some_iff.mp hbody
    rw [hsingle] at hc hcopy
    exact copySingleQuoted_readFrom hc hcopy
  · obtain ⟨⟨pos₂, content₂⟩, hcopy, rfl⟩ := Option.map_eq_some_iff.mp hbody
    rw [hdouble] at hc hcopy
    exact copyDoubleQuoted_readFrom hc hcopy
  · rw [hbackslash] at hc hbody
    split at hbody
    · cases hbody
      exact hc.push _
    · cases hbody
  · cases hbody
    rw [hbackslash] at hc ⊢
    exact hc
  · cases hbody
    exact hc

/-! ### Words -/

/-- A substitution that is shorter than the input. -/
def ShorterThan (input cmd : Text) : Prop := byteLen cmd < byteLen input

def SegmentsNest (nested : Text → Prop) (segments : List WordSegment) : Prop :=
  Word.Nests nested { segments }

variable {nested : Text → Prop} {segments : List WordSegment} {text : Text}

lemma SegmentsNest.push (h : SegmentsNest nested segments) {segment : WordSegment}
    (hsegment : ∀ cmd, segment.commandSubstitution = some cmd → nested cmd) :
    SegmentsNest nested (segments ++ [segment]) := by
  intro s hs
  obtain hs | rfl := List.mem_append.mp hs |>.imp_right List.mem_singleton.mp
  · exact h s hs
  · exact hsegment

lemma SegmentsNest.flush (h : SegmentsNest nested segments) (text : Text) :
    SegmentsNest nested (flushSegment segments text) := by
  unfold flushSegment
  split_ifs
  · exact h
  · exact h.push nofun

/-- A substitution starts behind a `$` and a parenthesis. -/
lemma shorterThan_of_lex {rest cmd : Text} (hslice : sliceFrom input pos = some (c :: rest))
    (hdollar : c = '$' ∧ rest.head? = some '(')
    (h : lexCommandSubstitution input (pos + 2) = some (pos', cmd)) : ShorterThan input cmd := by
  have hstart := lt_add_two hslice (by rw [hdollar.1]; rfl) hdollar.2
  obtain ⟨r, hr, hahead⟩ := lexCommandSubstitution_ahead hstart.2
  obtain rfl : r = (pos', cmd) := Option.some.inj (hr.symm.trans h)
  have hend : pos' ≤ byteLen input := pos_le hahead.2
  have hread : byteLen cmd + (pos + 2) ≤ pos' := lexCommandSubstitution_readFrom h
  unfold ShorterThan
  omega

lemma lexDoubleQuoted_nests {segments' : List WordSegment}
    (hsegments : SegmentsNest (ShorterThan input) segments)
    (h : lexDoubleQuoted input pos segments = some (pos', segments', text)) :
    SegmentsNest (ShorterThan input) segments' := by
  refine whileChars_keeps (P := fun _ a => SegmentsNest (ShorterThan input) a.1) ?_ hsegments h
  rintro pos c rest ⟨segments, quotedText⟩ flow hslice hsegments hbody
  dsimp only at hsegments hbody
  split_ifs at hbody with hquote hdollar hempty hbackslash hend
  · cases hbody
    exact hsegments
  · obtain ⟨⟨pos₂, cmd⟩, hcmd, rfl⟩ := Option.map_eq_some_iff.mp hbody
    refine hsegments.push fun cmd' heq => ?_
    obtain rfl : cmd = cmd' := Option.some.inj heq
    exact shorterThan_of_lex hslice hdollar hcmd
  · obtain ⟨⟨pos₂, cmd⟩, hcmd, rfl⟩ := Option.map_eq_some_iff.mp hbody
    have hquoted : SegmentsNest (ShorterThan input) (segments ++ [.doubleQuoted quotedText]) :=
      hsegments.push nofun
    refine hquoted.push fun cmd' heq => ?_
    obtain rfl : cmd = cmd' := Option.some.inj heq
    exact shorterThan_of_lex hslice hdollar hcmd
  · split at hbody
    · cases hbody
      exact hsegments
    · cases hbody
  · cases hbody
    exact hsegments
  · cases hbody
    exact hsegments

lemma lexWordRound_nests {rest : Text} {flow : Flow (List WordSegment × Text)}
    (hslice : sliceFrom input pos = some (c :: rest))
    (hsegments : SegmentsNest (ShorterThan input) segments)
    (h : lexWordRound input pos c rest segments text = some flow) :
    flow.Holds fun _ a => SegmentsNest (ShorterThan input) a.1 := by
  unfold lexWordRound at h
  dsimp only at h
  split_ifs at h with hend hbackslash hlast hsingle hdouble hdollar
  · cases h
    exact hsegments
  · split at h
    · cases h
      exact hsegments
    · cases h
  · cases h
    exact hsegments
  · obtain ⟨⟨pos₂, quotedText⟩, -, rfl⟩ := Option.map_eq_some_iff.mp h
    exact (hsegments.flush text).push fun _ h => by cases h
  · obtain ⟨⟨pos₂, segments₂, quotedText⟩, hquoted, rfl⟩ := Option.map_eq_some_iff.mp h
    exact (lexDoubleQuoted_nests (hsegments.flush text) hquoted).push fun _ h => by cases h
  · obtain ⟨⟨pos₂, cmd⟩, hcmd, rfl⟩ := Option.map_eq_some_iff.mp h
    refine (hsegments.flush text).push fun cmd' heq => ?_
    obtain rfl : cmd = cmd' := Option.some.inj heq
    exact shorterThan_of_lex hslice hdollar hcmd
  · cases h
    exact hsegments

/-! ### Tokens -/

/-- The substitutions of a token; only words have any. -/
def Token.Nests (nested : Text → Prop) (token : Token) : Prop :=
  ∀ word, token = .word word → word.Nests nested

lemma lexWord_nests {token : Token} (h : lexWord input pos = some (.ok token, pos')) :
    token.Nests (ShorterThan input) := by
  obtain ⟨⟨pos₁, segments, text⟩, hloop, heq⟩ := Option.map_eq_some_iff.mp h
  obtain ⟨htoken, rfl⟩ := Prod.mk.inj heq
  obtain rfl := Except.ok.inj htoken
  have hsegments : SegmentsNest (ShorterThan input) segments := by
    have hnil : SegmentsNest (ShorterThan input) [] := fun _ hmem => absurd hmem List.not_mem_nil
    refine whileChars_keeps (P := fun _ a => SegmentsNest (ShorterThan input) a.1) ?_ hnil hloop
    rintro pos c rest ⟨segments, text⟩ flow hslice hsegments hround
    exact lexWordRound_nests hslice hsegments hround
  rintro word ⟨⟩
  exact hsegments.flush text

lemma lexHeredoc_nests {token : Token} (h : lexHeredoc input pos = some (.ok token, pos')) :
    token.Nests nested := by
  obtain ⟨e, herror⟩ | ⟨content, stripTabs, hdoc⟩ := exists_of_lexHeredoc h
  · cases herror
  · cases hdoc
    exact nofun

lemma Token.nests_of_isOperator {token : Token} (h : token.isOperator = true) :
    token.Nests nested := by
  rintro word rfl
  cases h

lemma lexSingle_nests {token : Token} (h : lexSingle c = some token) : token.Nests nested := by
  obtain htoken | ⟨-, rfl⟩ := isOperator_of_lexSingle h
  · exact Token.nests_of_isOperator htoken
  · exact nofun

lemma nextToken_nests {token : Token} (h : nextToken input pos = some (.ok token, pos')) :
    token.Nests (ShorterThan input) := by
  fun_induction nextToken input pos with
  | case1 | case7 | case8 | case10 => cases h
  | case2 =>
    cases h
    exact nofun
  | case3 start pos _ _ c rest _ operator len hoperator =>
    cases h
    exact Token.nests_of_isOperator (isOperator_of_lexOperator hoperator)
  | case4 => exact lexHeredoc_nests h
  | case5 start pos _ _ c rest _ _ _ single hsingle =>
    cases h
    exact lexSingle_nests hsingle
  -- a comment, and the token behind it
  | case6 _ _ _ _ _ _ _ _ _ _ _ _ ih => exact ih h
  | case9 => exact lexWord_nests h

/-! ### What is parsed -/

namespace Parser

/-- The tokens that the lexer has yet to give. -/
structure Ready (input : Text) (lexer : Lexer) : Prop where
  same : lexer.input = input
  peeked : ∀ token, lexer.peeked = some token → token.Nests (ShorterThan input)

/-- What a parser returns has a property, and it goes on with a lexer of the same input. -/
def Gives {α : Type} (input : Text) (x : Parser α) (Q : α → Prop) : Prop :=
  ∀ lexer a lexer', Ready input lexer → Returns x lexer a lexer' → Ready input lexer' ∧ Q a

section

variable {α β : Type} {x : Parser α} {f : α → Parser β} {Q : α → Prop} {Q' : β → Prop}

lemma Gives.bind (hx : Gives input x Q) (hf : ∀ a, Q a → Gives input (f a) Q') :
    Gives input (x >>= f) Q' := by
  intro lexer b lexer'' hready h
  obtain ⟨a, lexer', ha, hb⟩ := returns_bind.mp h
  obtain ⟨hready', hq⟩ := hx lexer a lexer' hready ha
  exact hf a hq lexer' b lexer'' hready' hb

lemma gives_pure {a : α} (h : Q a) : Gives input (pure a) Q := by
  intro lexer a' lexer' hready hreturns
  obtain ⟨rfl, rfl⟩ := returns_pure.mp hreturns
  exact ⟨hready, h⟩

lemma gives_outOfFuel : Gives input outOfFuel Q :=
  fun _ _ _ _ h => absurd h not_returns_outOfFuel

lemma gives_fail {e : ShellError} : Gives input (fail e) Q :=
  fun _ _ _ _ h => absurd h not_returns_fail

end

lemma gives_peek : Gives input peek (Token.Nests (ShorterThan input)) := by
  intro lexer token lexer' hready h
  have hpeek := returns_peek.mp h
  cases hpeeked : lexer.peeked with
  | some t =>
    rw [Lexer.peek, hpeeked] at hpeek
    cases hpeek
    exact ⟨hready, hready.peeked token hpeeked⟩
  | none =>
    rw [Lexer.peek, hpeeked] at hpeek
    obtain ⟨⟨result, pos⟩, hnext, heq⟩ := Option.map_eq_some_iff.mp hpeek
    cases result with
    | error e => cases heq
    | ok t =>
      cases heq
      rw [hready.same] at hnext
      have htoken := nextToken_nests hnext
      refine ⟨⟨hready.same, ?_⟩, htoken⟩
      rintro token' ⟨⟩
      exact htoken

lemma gives_next : Gives input next (Token.Nests (ShorterThan input)) := by
  intro lexer token lexer' hready h
  have hnext : lexer.next = some (.ok token, lexer') := returns_next.mp h
  cases hpeeked : lexer.peeked with
  | some t =>
    rw [Lexer.next, hpeeked] at hnext
    cases hnext
    exact ⟨⟨hready.same, fun _ h => by cases h⟩, hready.peeked token hpeeked⟩
  | none =>
    rw [Lexer.next_eq hpeeked] at hnext
    obtain ⟨⟨result, pos⟩, htoken, heq⟩ := Option.map_eq_some_iff.mp hnext
    cases heq
    rw [hready.same] at htoken
    refine ⟨⟨hready.same, fun t ht => ?_⟩, nextToken_nests htoken⟩
    cases ht.symm.trans hpeeked

lemma gives_position : Gives input position fun _ => True := by
  intro lexer pos lexer' hready h
  cases h
  exact ⟨hready, trivial⟩

lemma gives_skipNewlines (fuel : ℕ) : Gives input (skipNewlines fuel) fun _ => True := by
  induction fuel with
  | zero => exact gives_outOfFuel
  | succ fuel ih =>
    refine gives_peek.bind fun token _ => ?_
    split_ifs
    · exact gives_next.bind fun _ _ => ih
    · exact gives_pure trivial

lemma gives_expect (expected : Token) : Gives input (expect expected) fun _ => True := by
  refine gives_next.bind fun token _ => ?_
  split_ifs
  · exact gives_pure trivial
  · exact gives_position.bind fun _ _ => gives_fail

lemma gives_expectWord : Gives input expectWord (Word.Nests (ShorterThan input)) := by
  refine gives_next.bind fun token htoken => ?_
  split
  · exact gives_pure (htoken _ rfl)
  · exact gives_position.bind fun _ _ => gives_fail

/-! ### Simple commands -/

def RedirectsNest (input : Text) (redirects : List Redirect) : Prop :=
  ∀ redirect ∈ redirects, ∀ word ∈ redirect.words, word.Nests (ShorterThan input)

lemma RedirectsNest.append {redirects redirects' : List Redirect}
    (h : RedirectsNest input redirects) (h' : RedirectsNest input redirects') :
    RedirectsNest input (redirects ++ redirects') := by
  intro redirect hmem
  obtain hmem | hmem := List.mem_append.mp hmem
  · exact h redirect hmem
  · exact h' redirect hmem

/-- A redirect names the word that follows it, and no other. -/
lemma redirectsNest_of_file {token : Token} {f : Word → List Redirect}
    (h : part token = some (.file f)) {word : Word} (hword : word.Nests (ShorterThan input)) :
    RedirectsNest input (f word) := by
  have hwords : ∀ redirect ∈ f word, ∀ w ∈ redirect.words, w = word := by
    cases token <;> cases h <;> simp [Redirect.words, Redirect.stdoutWrite, Redirect.stdoutAppend,
      Redirect.stdinRead, Redirect.stderrWrite, Redirect.stderrAppend, Redirect.dupFd]
  intro redirect hmem w hw
  rw [hwords redirect hmem w hw]
  exact hword

lemma redirectsNest_of_redirect {token : Token} {redirect : Redirect}
    (h : part token = some (.redirect redirect)) : RedirectsNest input [redirect] := by
  have hwords : redirect.words = [] := by cases token <;> cases h <;> rfl
  intro redirect' hmem w hw
  rw [List.mem_singleton.mp hmem, hwords] at hw
  exact absurd hw List.not_mem_nil

lemma gives_simpleLoop (fuel : ℕ) {argv : List Word} {redirects : List Redirect}
    (hargv : ∀ word ∈ argv, word.Nests (ShorterThan input))
    (hredirects : RedirectsNest input redirects) :
    Gives input (simpleLoop fuel argv redirects) fun result =>
      (∀ word ∈ result.1, word.Nests (ShorterThan input)) ∧ RedirectsNest input result.2 := by
  induction fuel generalizing argv redirects with
  | zero => exact gives_outOfFuel
  | succ fuel ih =>
    refine gives_peek.bind fun token htoken => ?_
    split
    · rename_i w hw
      refine gives_next.bind fun _ _ => ih ?_ hredirects
      intro word hmem
      obtain hmem | hmem := List.mem_append.mp hmem
      · exact hargv word hmem
      · rw [List.mem_singleton.mp hmem]
        exact htoken w (eq_word_of_part hw)
    · rename_i f hf
      refine gives_next.bind fun _ _ => gives_expectWord.bind fun target htarget => ?_
      exact ih hargv (hredirects.append (redirectsNest_of_file hf htarget))
    · rename_i redirect hredirect
      exact gives_next.bind fun _ _ =>
        ih hargv (hredirects.append (redirectsNest_of_redirect hredirect))
    · exact gives_pure ⟨hargv, hredirects⟩

lemma gives_parseSimpleCommand (fuel : ℕ) :
    Gives input (parseSimpleCommand fuel) (Command.Nests (ShorterThan input)) := by
  refine (gives_simpleLoop fuel (fun _ hmem => absurd hmem List.not_mem_nil)
    (fun _ hmem => absurd hmem List.not_mem_nil)).bind ?_
  rintro ⟨argv, redirects⟩ ⟨hargv, hredirects⟩
  dsimp only
  split_ifs with hempty hnone
  · exact gives_position.bind fun _ _ => gives_fail
  · refine gives_pure (Command.nests_simple.mpr ⟨fun word hmem => ?_, hredirects⟩)
    rw [List.mem_singleton.mp hmem]
    intro segment hsegment
    rw [List.mem_singleton.mp hsegment]
    exact nofun
  · exact gives_pure (Command.nests_simple.mpr ⟨hargv, hredirects⟩)

/-! ### Command lines -/

def CommandsNest (input : Text) (commands : List Command) : Prop :=
  ∀ command ∈ commands, command.Nests (ShorterThan input)

lemma CommandsNest.push {commands : List Command} {command : Command}
    (h : CommandsNest input commands) (hcommand : command.Nests (ShorterThan input)) :
    CommandsNest input (commands ++ [command]) := by
  intro c hmem
  obtain hmem | hmem := List.mem_append.mp hmem
  · exact h c hmem
  · rw [List.mem_singleton.mp hmem]
    exact hcommand

lemma nests_ofPipeline {commands : List Command} (h : CommandsNest input commands) :
    (Command.ofPipeline commands).Nests (ShorterThan input) := by
  unfold Command.ofPipeline
  split
  · exact h _ List.mem_cons_self
  · exact Command.nests_pipeline.mpr h

lemma nests_ofSequence {commands : List Command} (h : CommandsNest input commands) :
    (Command.ofSequence commands).Nests (ShorterThan input) := by
  unfold Command.ofSequence
  split
  · exact fun _ hmem => absurd hmem List.not_mem_nil
  · exact h _ List.mem_cons_self
  · exact Command.nests_sequence.mpr h

/-- The functions of the parser, with so much fuel. -/
structure AllGive (input : Text) (fuel : ℕ) : Prop where
  commandLineLoop : ∀ {commands}, CommandsNest input commands →
    Gives input (commandLineLoop fuel commands) (CommandsNest input)
  parseCommandLine : Gives input (parseCommandLine fuel) (Command.Nests (ShorterThan input))
  listLoop : ∀ {left : Command}, left.Nests (ShorterThan input) →
    Gives input (listLoop fuel left) (Command.Nests (ShorterThan input))
  parseList : Gives input (parseList fuel) (Command.Nests (ShorterThan input))
  pipelineLoop : ∀ {commands}, CommandsNest input commands →
    Gives input (pipelineLoop fuel commands) (CommandsNest input)
  parsePipeline : Gives input (parsePipeline fuel) (Command.Nests (ShorterThan input))
  parseCommand : Gives input (parseCommand fuel) (Command.Nests (ShorterThan input))

lemma allGive_zero : AllGive input 0 where
  commandLineLoop _ := gives_outOfFuel
  parseCommandLine := gives_outOfFuel
  listLoop _ := gives_outOfFuel
  parseList := gives_outOfFuel
  pipelineLoop _ := gives_outOfFuel
  parsePipeline := gives_outOfFuel
  parseCommand := gives_outOfFuel

variable {fuel : ℕ}

lemma AllGive.commandLineLoop_succ (h : AllGive input fuel) {commands : List Command}
    (hcommands : CommandsNest input commands) :
    Gives input (Parser.commandLineLoop (fuel + 1) commands) (CommandsNest input) := by
  refine h.parseList.bind fun list hlist => gives_peek.bind fun token _ => ?_
  have hpushed := hcommands.push hlist
  have hbackground : CommandsNest input (commands ++ [.background list]) := hcommands.push hlist
  have hgo {commands : List Command} (hcommands : CommandsNest input commands) :
      Gives input (peek >>= fun token =>
        if endsLine token then pure commands else Parser.commandLineLoop fuel commands)
        (CommandsNest input) := by
    refine gives_peek.bind fun token _ => ?_
    split_ifs
    · exact gives_pure hcommands
    · exact h.commandLineLoop hcommands
  split_ifs
  · refine gives_next.bind fun _ _ => (gives_skipNewlines fuel).bind fun _ _ => ?_
    refine gives_peek.bind fun token _ => ?_
    split_ifs
    · exact gives_pure hpushed
    · exact gives_next.bind fun _ _ => (gives_skipNewlines fuel).bind fun _ _ => hgo hpushed
    · exact h.commandLineLoop hpushed
  · exact gives_next.bind fun _ _ => (gives_skipNewlines fuel).bind fun _ _ => hgo hbackground
  · exact gives_pure hpushed

lemma AllGive.listLoop_succ (h : AllGive input fuel) {left : Command}
    (hleft : left.Nests (ShorterThan input)) :
    Gives input (Parser.listLoop (fuel + 1) left) (Command.Nests (ShorterThan input)) := by
  refine gives_peek.bind fun token _ => ?_
  split_ifs
  · refine gives_next.bind fun _ _ => (gives_skipNewlines fuel).bind fun _ _ => ?_
    refine h.parsePipeline.bind fun right hright => ?_
    exact h.listLoop (Command.nests_and.mpr ⟨hleft, hright⟩)
  · refine gives_next.bind fun _ _ => (gives_skipNewlines fuel).bind fun _ _ => ?_
    refine h.parsePipeline.bind fun right hright => ?_
    exact h.listLoop (Command.nests_or.mpr ⟨hleft, hright⟩)
  · exact gives_pure hleft

lemma AllGive.pipelineLoop_succ (h : AllGive input fuel) {commands : List Command}
    (hcommands : CommandsNest input commands) :
    Gives input (Parser.pipelineLoop (fuel + 1) commands) (CommandsNest input) := by
  refine gives_peek.bind fun token _ => ?_
  split_ifs
  · refine gives_next.bind fun _ _ => (gives_skipNewlines fuel).bind fun _ _ => ?_
    exact h.parseCommand.bind fun command hcommand => h.pipelineLoop (hcommands.push hcommand)
  · exact gives_pure hcommands

lemma AllGive.parseCommand_succ (h : AllGive input fuel) :
    Gives input (Parser.parseCommand (fuel + 1)) (Command.Nests (ShorterThan input)) := by
  refine gives_peek.bind fun token _ => ?_
  split_ifs
  · refine gives_next.bind fun _ _ => (gives_skipNewlines fuel).bind fun _ _ => ?_
    refine h.parseCommandLine.bind fun command hcommand => ?_
    exact (gives_expect .rParen).bind fun _ _ => gives_pure hcommand
  · exact gives_parseSimpleCommand fuel

lemma allGive (fuel : ℕ) : AllGive input fuel := by
  induction fuel with
  | zero => exact allGive_zero
  | succ fuel ih =>
    exact {
      commandLineLoop := ih.commandLineLoop_succ
      parseCommandLine :=
        (ih.commandLineLoop fun _ hmem => absurd hmem List.not_mem_nil).bind
          fun _ hcommands => gives_pure (nests_ofSequence hcommands)
      listLoop := ih.listLoop_succ
      parseList := ih.parsePipeline.bind fun _ hleft => ih.listLoop hleft
      pipelineLoop := ih.pipelineLoop_succ
      parsePipeline := by
        refine ih.parseCommand.bind fun command hcommand => ?_
        have hsingle : CommandsNest input [command] := by
          rintro c hmem
          rw [List.mem_singleton.mp hmem]
          exact hcommand
        exact (ih.pipelineLoop hsingle).bind fun _ hcommands =>
          gives_pure (nests_ofPipeline hcommands)
      parseCommand := ih.parseCommand_succ }

lemma gives_parse (fuel : ℕ) :
    Gives input (parse fuel) (Command.Nests (ShorterThan input)) := by
  refine (gives_skipNewlines fuel).bind fun _ _ => gives_peek.bind fun token _ => ?_
  split_ifs
  · exact gives_pure fun _ hmem => absurd hmem List.not_mem_nil
  · refine (allGive fuel).parseCommandLine.bind fun command hcommand => ?_
    exact (gives_skipNewlines fuel).bind fun _ _ => gives_pure hcommand

end Parser

/-- The substitutions in a text are parts of it. -/
theorem nests_of_parse {command : Command} {lexer : Lexer}
    (h : parse input = some (.ok (command, lexer))) : command.Nests (ShorterThan input) :=
  (Parser.gives_parse _ (.new input) command lexer ⟨rfl, nofun⟩ h).2

/-! ### Shells of the same kind -/

section

variable {sys : System} {capture capture' : Text → Step sys Text} {lastExit : ℤ}

lemma lockstep_refl {α : Type} {x : Step sys α} : Lockstep Eq (fun _ => True) x x := by
  refine ⟨fun _ _ => trivial, ?_⟩
  rintro s _ rfl -
  exact ⟨rfl, rfl⟩

/-- Shells that capture the same do the same. -/
lemma simulates_of_eq (h : ∀ cmd, nested cmd → capture cmd = capture' cmd) :
    Simulates nested capture capture' lastExit lastExit Eq fun _ => True where
  cwd := congrArg fun (s : ShellState sys) => s.cwd
  stdin := congrArg fun (s : ShellState sys) => s.world.stdin
  stdout := congrArg fun (s : ShellState sys) => s.world.stdout
  stderr := congrArg fun (s : ShellState sys) => s.world.stderr
  shared := congrArg fun (s : ShellState sys) => s.world.shared
  restored := by
    rintro s _ t _ rfl rfl
    rfl
  quiet_restored := id
  capture cmd hcmd := by
    rw [h cmd hcmd]
    exact lockstep_refl
  expandText _ := lockstep_refl
  onShared _ := lockstep_refl
  onJobs _ := lockstep_refl
  spawnTask _ _ := lockstep_refl
  applyEffects _ := lockstep_refl
  concludePipeline _ := lockstep_refl

lemma captureWith_congr {command : Text}
    (h : ∀ cmd, ShorterThan command cmd → capture cmd = capture' cmd) :
    captureWith (interpreterWith capture) command =
      captureWith (interpreterWith capture') command := by
  funext s
  unfold captureWith
  cases hparse : parse command with
  | none => rfl
  | some result =>
    match result with
    | .error e => rfl
    | .ok (cmd, lexer) =>
      obtain ⟨buffer, shared⟩ := sys.newBuffer s.world.shared
      have hsimulates : Simulates (ShorterThan command) capture capture' 0 0 Eq fun _ => True :=
        simulates_of_eq h
      have hstep := hsimulates.executeCommand (nests_of_parse hparse)
      obtain ⟨hresult, hstate⟩ :=
        hstep.agrees (captureShell s buffer shared).toContext _ rfl trivial
      have houtcome : (executeCommand (interpreterWith capture) cmd
          (captureShell s buffer shared)).outcome = (executeCommand (interpreterWith capture') cmd
          (captureShell s buffer shared)).outcome := hresult
      have hsession : (executeCommand (interpreterWith capture) cmd
          (captureShell s buffer shared)).session.toContext =
          (executeCommand (interpreterWith capture') cmd
          (captureShell s buffer shared)).session.toContext := hstate
      simp only [outputOf, houtcome, hsession]

/-- A depth beyond the length of the command makes no difference. -/
lemma captureToDepth_eq {depth depth' : ℕ} {command : Text} (h : byteLen command < depth)
    (h' : byteLen command < depth') :
    (captureToDepth depth command : Step sys Text) = captureToDepth depth' command := by
  induction depth generalizing depth' command with
  | zero => omega
  | succ depth ih =>
    cases depth' with
    | zero => omega
    | succ depth' =>
      have hnested : ∀ cmd, ShorterThan command cmd →
          (captureToDepth depth cmd : Step sys Text) = captureToDepth depth' cmd := by
        intro cmd hcmd
        unfold ShorterThan at hcmd
        exact ih (by omega) (by omega)
      unfold captureToDepth
      rw [captureWith_congr hnested]

/-- A substitution runs its command in a shell that captures its own substitutions. -/
theorem captureOutput_eq (command : Text) :
    captureOutput command = .ofFun fun (s : ShellState sys) =>
      let (result, shared) := captureWith (interpreter sys) command s
      (result, { s with world := { s.world with shared } }) := by
  have hnested : ∀ cmd, ShorterThan command cmd →
      (captureToDepth (byteLen command) cmd : Step sys Text) = captureOutput cmd :=
    fun cmd hcmd => captureToDepth_eq hcmd (Nat.lt_succ_self _)
  rw [captureOutput, captureToDepth, captureWith_congr hnested, interpreter]

end

end AmlaSandbox.Shell
