import AmlaSandbox.Shell.Parser
import AmlaSandbox.Shell.Scan

/-!
# The grammar of the shell

`DocCommandLine` is the grammar of the documentation. The parser accepts more, by design: words and
redirects in any order, a redirect alone, here documents, a separator at the end of a command line,
and line breaks behind operators. `IsCommandLine` is that grammar, with the tree of a sentence.
-/

namespace AmlaSandbox.Shell

/-! ### The documented grammar -/

/-- `('>' | '>>' | '<' | '2>' | '2>>' | '&>') word | N '>&' M` -/
inductive DocRedirect : List Token → Prop
  | file {op : Token} {f : Word → List Redirect} {w : Word} : Parser.part op = some (.file f) →
      DocRedirect [op, .word w]
  | dupFd {source target : ℕ} : DocRedirect [.dupFd source target]

/-- `word+ redirect*` -/
inductive DocSimpleCommand : List Token → Prop
  | words {words : List Word} : words ≠ [] → DocSimpleCommand (words.map .word)
  | redirect {ts r : List Token} : DocSimpleCommand ts → DocRedirect r → DocSimpleCommand (ts ++ r)

mutual

/-- `simple_command | '(' command_line ')'` -/
inductive DocCommand : List Token → Prop
  | simple {ts : List Token} : DocSimpleCommand ts → DocCommand ts
  | subshell {ts : List Token} : DocCommandLine ts → DocCommand (.lParen :: ts ++ [.rParen])

/-- `command ('|' command)*` -/
inductive DocPipeline : List Token → Prop
  | command {ts : List Token} : DocCommand ts → DocPipeline ts
  | pipe {ts ts' : List Token} : DocPipeline ts → DocCommand ts' → DocPipeline (ts ++ .pipe :: ts')

/-- `pipeline (('&&' | '||') pipeline)*` -/
inductive DocList : List Token → Prop
  | pipeline {ts : List Token} : DocPipeline ts → DocList ts
  | and {ts ts' : List Token} : DocList ts → DocPipeline ts' → DocList (ts ++ .and :: ts')
  | or {ts ts' : List Token} : DocList ts → DocPipeline ts' → DocList (ts ++ .or :: ts')

/-- `list ('&')?` -/
inductive DocAsyncCmd : List Token → Prop
  | list {ts : List Token} : DocList ts → DocAsyncCmd ts
  | amp {ts : List Token} : DocList ts → DocAsyncCmd (ts ++ [.amp])

/-- `async_cmd ((';' | '&') async_cmd)*`, where a line break separates commands too. -/
inductive DocCommandLine : List Token → Prop
  | asyncCmd {ts : List Token} : DocAsyncCmd ts → DocCommandLine ts
  | separator {ts ts' : List Token} {sep : Token} : DocCommandLine ts →
      sep = .semi ∨ sep = .amp ∨ sep = .newline → DocAsyncCmd ts' →
      DocCommandLine (ts ++ sep :: ts')

end

/-! ### The accepted grammar -/

def Newlines (ts : List Token) : Prop := ∀ t ∈ ts, t = .newline

/-- Words and redirects in any order. -/
inductive IsParts : List Token → List Word → List Redirect → Prop
  | nil : IsParts [] [] []
  | word {ts : List Token} {argv : List Word} {redirects : List Redirect} (w : Word) :
      IsParts ts argv redirects → IsParts (.word w :: ts) (w :: argv) redirects
  | file {ts : List Token} {argv : List Word} {redirects : List Redirect} {op : Token}
      {f : Word → List Redirect} (w : Word) : Parser.part op = some (.file f) →
      IsParts ts argv redirects → IsParts (op :: .word w :: ts) argv (f w ++ redirects)
  | redirect {ts : List Token} {argv : List Word} {redirects : List Redirect} {op : Token}
      {redirect : Redirect} : Parser.part op = some (.redirect redirect) →
      IsParts ts argv redirects → IsParts (op :: ts) argv (redirect :: redirects)

/-- A separator, and what it makes of the command before it. -/
inductive IsSeparator : List Token → (Command → Command) → Prop
  | semi {nl : List Token} : Newlines nl → IsSeparator (.semi :: nl) id
  -- the `&` behind a `;` puts nothing in the background
  | semiAmp {nl nl' : List Token} : Newlines nl → Newlines nl' →
      IsSeparator (.semi :: nl ++ .amp :: nl') id
  | amp {nl : List Token} : Newlines nl → IsSeparator (.amp :: nl) .background

mutual

/-- A simple command, which runs `:` where it has redirects only, or a subshell. -/
inductive IsCommand : List Token → Command → Prop
  | simple {ts : List Token} {argv : List Word} {redirects : List Redirect} :
      IsParts ts argv redirects → ts ≠ [] →
      IsCommand ts (.simple (if argv = [] then [.unquoted ":".toList] else argv) redirects)
  | subshell {nl ts : List Token} {commands : List Command} : Newlines nl →
      IsCommandLine ts commands →
      IsCommand (.lParen :: nl ++ ts ++ [.rParen]) (.subshell (.ofSequence commands))

inductive IsPipeline : List Token → List Command → Prop
  | command {ts : List Token} {command : Command} : IsCommand ts command → IsPipeline ts [command]
  | pipe {ts nl ts' : List Token} {commands : List Command} {command : Command} :
      IsPipeline ts commands → Newlines nl → IsCommand ts' command →
      IsPipeline (ts ++ .pipe :: nl ++ ts') (commands ++ [command])

/-- `&&` and `||` associate to the left, with the same precedence. -/
inductive IsList : List Token → Command → Prop
  | pipeline {ts : List Token} {commands : List Command} : IsPipeline ts commands →
      IsList ts (.ofPipeline commands)
  | and {ts nl ts' : List Token} {left : Command} {right : List Command} : IsList ts left →
      Newlines nl → IsPipeline ts' right →
      IsList (ts ++ .and :: nl ++ ts') (.and left (.ofPipeline right))
  | or {ts nl ts' : List Token} {left : Command} {right : List Command} : IsList ts left →
      Newlines nl → IsPipeline ts' right →
      IsList (ts ++ .or :: nl ++ ts') (.or left (.ofPipeline right))

/-- Lists with a separator between them, and perhaps behind the last one. -/
inductive IsCommandLine : List Token → List Command → Prop
  | list {ts : List Token} {command : Command} : IsList ts command → IsCommandLine ts [command]
  | last {ts sep : List Token} {command : Command} {f : Command → Command} : IsList ts command →
      IsSeparator sep f → IsCommandLine (ts ++ sep) [f command]
  | cons {ts sep ts' : List Token} {command : Command} {f : Command → Command}
      {commands : List Command} : IsList ts command → IsSeparator sep f →
      IsCommandLine ts' commands → IsCommandLine (ts ++ sep ++ ts') (f command :: commands)

end

/-- A whole input, with line breaks around its command line. -/
inductive IsInput : List Token → Command → Prop
  | empty {nl : List Token} : Newlines nl → IsInput nl .empty
  | commandLine {nl ts nl' : List Token} {commands : List Command} : Newlines nl →
      IsCommandLine ts commands → Newlines nl' → IsInput (nl ++ ts ++ nl') (.ofSequence commands)

/-! ### The tokens of an input -/

/-- The tokens that calls of `next` take before the end. -/
inductive Lexes : Lexer → List Token → Prop
  | eof {lexer lexer' : Lexer} : Takes lexer .eof lexer' → Lexes lexer []
  | token {lexer lexer' : Lexer} {token : Token} {ts : List Token} : token ≠ .eof →
      Takes lexer token lexer' → Lexes lexer' ts → Lexes lexer (token :: ts)

/-- The next token, or the end. -/
def first (ts : List Token) : Token := ts.headD .eof

@[simp] lemma first_cons (token : Token) (ts : List Token) : first (token :: ts) = token := rfl

/-- The tokens between two states of a lexer. -/
def Reads (lexer : Lexer) (ts : List Token) (lexer' : Lexer) : Prop :=
  ∀ rest, Lexes lexer' rest → Lexes lexer (ts ++ rest)

variable {lexer lexer' lexer'' : Lexer} {token : Token} {ts ts' rest : List Token}

lemma lexes_congr (h : lexer.next = lexer'.next) : Lexes lexer ts ↔ Lexes lexer' ts := by
  constructor
  · intro hlexes
    cases hlexes with
    | eof htakes => exact .eof (h.symm.trans htakes)
    | token htoken htakes hrest => exact .token htoken (h.symm.trans htakes) hrest
  · intro hlexes
    cases hlexes with
    | eof htakes => exact .eof (h.trans htakes)
    | token htoken htakes hrest => exact .token htoken (h.trans htakes) hrest

/-- A look at the next token takes nothing. -/
lemma next_of_peek (h : lexer.peek = some (.ok token, lexer')) :
    lexer'.next = lexer.next ∧ lexer'.peeked = some token := by
  cases hpeeked : lexer.peeked with
  | some t =>
    rw [Lexer.peek, hpeeked] at h
    obtain ⟨htoken, rfl⟩ := Prod.mk.inj (Option.some.inj h)
    exact ⟨rfl, by rw [hpeeked, Except.ok.inj htoken]⟩
  | none =>
    rw [Lexer.peek, hpeeked] at h
    obtain ⟨⟨result, pos⟩, hnext, heq⟩ := Option.map_eq_some_iff.mp h
    cases result with
    | error e => cases heq
    | ok t =>
      obtain ⟨htoken, rfl⟩ := Prod.mk.inj heq
      obtain rfl := Except.ok.inj htoken
      exact ⟨by simp [Lexer.next, hpeeked, hnext], rfl⟩

lemma takes_of_peeked (h : lexer.peeked = some token) :
    Takes lexer token { lexer with peeked := none } := by
  rw [Takes, Lexer.next, h]

lemma peek_of_takes (h : Takes lexer token lexer') :
    ∃ lexer'', lexer.peek = some (.ok token, lexer'') := by
  cases hpeeked : lexer.peeked with
  | some t =>
    rw [Takes, Lexer.next, hpeeked] at h
    obtain rfl := Except.ok.inj (Prod.mk.inj (Option.some.inj h)).1
    exact ⟨lexer, by rw [Lexer.peek, hpeeked]⟩
  | none =>
    rw [Takes, Lexer.next_eq hpeeked] at h
    obtain ⟨⟨result, pos⟩, hnext, heq⟩ := Option.map_eq_some_iff.mp h
    obtain ⟨rfl, -⟩ := Prod.mk.inj heq
    exact ⟨{ lexer with pos, peeked := some token }, by simp [Lexer.peek, hpeeked, hnext]⟩

/-- Where the tokens are known, the first of them can be looked at. -/
lemma Lexes.peek (h : Lexes lexer ts) :
    ∃ lexer', lexer.peek = some (.ok (first ts), lexer') ∧ Lexes lexer' ts := by
  have htakes : ∃ lexer', Takes lexer (first ts) lexer' := by
    cases h with
    | eof htakes => exact ⟨_, htakes⟩
    | token _ htakes _ => exact ⟨_, htakes⟩
  obtain ⟨lexer', htakes⟩ := htakes
  obtain ⟨lexer'', hpeek⟩ := peek_of_takes htakes
  exact ⟨lexer'', hpeek, (lexes_congr (next_of_peek hpeek).1).mpr h⟩

lemma Lexes.next (h : Lexes lexer (token :: ts)) :
    token ≠ .eof ∧ ∃ lexer', Takes lexer token lexer' ∧ Lexes lexer' ts := by
  cases h with
  | token htoken htakes hrest => exact ⟨htoken, _, htakes, hrest⟩

namespace Reads

lemma trans (h : Reads lexer ts lexer') (h' : Reads lexer' ts' lexer'') :
    Reads lexer (ts ++ ts') lexer'' := by
  intro rest hrest
  rw [List.append_assoc]
  exact h _ (h' _ hrest)

lemma of_takes (htoken : token ≠ .eof) (h : Takes lexer token lexer') :
    Reads lexer [token] lexer' := fun _ hrest => .token htoken h hrest

lemma of_peek (h : lexer.peek = some (.ok token, lexer')) : Reads lexer [] lexer' :=
  fun _ hrest => (lexes_congr (next_of_peek h).1).mp hrest

end Reads

end AmlaSandbox.Shell
