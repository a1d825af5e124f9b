import Mathlib.Data.List.Forall2
import AmlaSandbox.Shell.Completeness
import AmlaSandbox.Shell.Cut
import AmlaSandbox.Shell.Execute
import AmlaSandbox.Shell.HeredocScript

/-!
# Scripts

The applet `sh` runs a script line by line, while lists, quotes and here documents of the grammar go
over lines. The script behaves like its text where its lines are command lines of their own.
-/

namespace AmlaSandbox.Shell

open Library Text

/-! ### The applet -/

/-- Where a script comes from. -/
inductive ScriptSource
  | command (script : Text)
  | file (path : Text)
  | stdin

/-- The source of the script and the positional arguments, or a message. -/
def parseArgs : List Text → Except Text (ScriptSource × List Text)
  | [] => .ok (.stdin, [])
  | first :: rest =>
    if first = "-c".toList then
      match rest with
      | [] => .error "sh: -c requires an argument".toList
      | script :: positional => .ok (.command script, positional)
    else if first.head? = some '-' then .error ("sh: unknown option: ".toList ++ first)
    else .ok (.file first, rest)

/-- `$0`, `$1`, …, `$#`, `$@` and `$*` -/
def positionalVars : List Text → List (Text × Text)
  | [] => [("0".toList, "sh".toList), ("#".toList, "0".toList), ("@".toList, []), ("*".toList, [])]
  | zero :: args =>
    ("0".toList, zero) ::
      args.zipIdx.map (fun arg => ((toString (arg.2 + 1)).toList, arg.1)) ++
      [("#".toList, (toString args.length).toList), ("@".toList, [' '].intercalate args),
        ("*".toList, [' '].intercalate args)]

/-- What `sh` calls, at a state of its surroundings. -/
structure ShContext (σ : Type) where
  /-- the text of a file, or what is wrong with it -/
  readFile : Text → σ → Except Text Text × σ
  /-- the text of the standard input, unless it is no UTF-8 -/
  readStdin : σ → Except ExecError (Option Text) × σ
  eprintln : Text → σ → Except ExecError Unit × σ
  /-- the shell that runs the script, with these variables -/
  enter : List (Text × Text) → σ → σ
  /-- `execute` of that shell, behind the parser and the test for an empty command -/
  execute : Command → σ → Outcome × σ
  display : ExecError → Text

namespace ShContext

variable {σ : Type} (ctx : ShContext σ)

/-- A message, and an exit code. -/
def fail (message : Text) (code : ℤ) (s : σ) : Outcome × σ :=
  match ctx.eprintln message s with
  | (.ok (), s) => (.ok code, s)
  | (.error e, s) => (.error e, s)

/-- The script, or what `sh` ends with if there is none. -/
def readScript (source : ScriptSource) (s : σ) : Except Outcome Text × σ :=
  match source with
  | .command script => (.ok script, s)
  | .file path =>
    match ctx.readFile path s with
    | (.ok script, s) => (.ok script, s)
    | (.error e, s) =>
      let (outcome, s) := ctx.fail ("sh: ".toList ++ path ++ ": ".toList ++ e) 1 s
      (.error outcome, s)
  | .stdin =>
    match ctx.readStdin s with
    | (.ok (some script), s) => (.ok script, s)
    | (.ok none, s) =>
      let (outcome, s) := ctx.fail "sh: stdin: invalid UTF-8".toList 1 s
      (.error outcome, s)
    | (.error e, s) => (.error (.error e), s)

/-- An empty command has the code 0. -/
def executeParsed (cmd : Command) (s : σ) : Outcome × σ :=
  if cmd.isEmpty then (.ok 0, s) else ctx.execute cmd s

def reportError (e : ExecError) (s : σ) : Outcome × σ :=
  ctx.fail ("sh: ".toList ++ ctx.display e) 1 s

/-- The loop over the lines; `none` where the parser panics. -/
def runLines : List Text → ℤ → σ → Option (Outcome × σ)
  | [], lastExit, s => some (.ok lastExit, s)
  | line :: lines, lastExit, s =>
    let line := trim line
    if line = [] ∨ line.head? = some '#' then runLines lines lastExit s
    else
      match parse line with
      | none => none
      | some (.error e) => some (ctx.reportError (.parse e) s)
      | some (.ok (cmd, _)) =>
        match ctx.executeParsed cmd s with
        | (.ok code, s) => runLines lines code s
        | (.error e, s) => some (ctx.reportError e s)

def sh (args : List Text) (s : σ) : Option (Outcome × σ) :=
  match parseArgs args with
  | .error message => some (ctx.fail message 2 s)
  | .ok (source, positional) =>
    match ctx.readScript source s with
    | (.error outcome, s) => some (outcome, s)
    | (.ok script, s) => ctx.runLines (lines script) 0 (ctx.enter (positionalVars positional) s)

/-- The commands one by one, up to an error. -/
def runCommands : List Command → ℤ → σ → Outcome × σ
  | [], lastExit, s => (.ok lastExit, s)
  | cmd :: cmds, _, s =>
    match ctx.executeParsed cmd s with
    | (.ok code, s) => runCommands cmds code s
    | (.error e, s) => ctx.reportError e s

end ShContext

/-! ### The meaning of a text -/

/-- Command lines with line breaks between them. -/
inductive IsScript : List Token → List Command → Prop
  | nil : IsScript [] []
  | newline {ts : List Token} {commands : List Command} : IsScript ts commands →
      IsScript (.newline :: ts) commands
  | last {ts : List Token} {commands : List Command} : IsCommandLine ts commands →
      IsScript ts commands
  | line {ts ts' : List Token} {commands commands' : List Command} : IsCommandLine ts commands →
      IsScript ts' commands' → IsScript (ts ++ .newline :: ts') (commands ++ commands')

/-- The text behind the comment that it starts with, if any. -/
def behindComment (text : Text) : Text :=
  match text.dropWhile isBlank with
  | '#' :: comment => comment.dropWhile (· ≠ '\n')
  | _ => text

/-- The tokens of a text. A comment goes up to the end of its line, whatever its characters are. -/
inductive HasTokens : Text → List Token → Prop
  | eof {text : Text} : (behindComment text).dropWhile isBlank = [] → HasTokens text []
  | token {text u rest : Text} {token : Token} {ts : List Token} : token ≠ .eof →
      behindComment text = u ++ rest →
      nextToken (u ++ rest) 0 = some (.ok token, byteLen u) → HasTokens rest ts →
      HasTokens text (token :: ts)

/-- The commands that the grammar assigns to a text. -/
def Means (script : Text) (commands : List Command) : Prop :=
  ∃ ts, HasTokens script ts ∧ IsScript ts commands

/-- However `sh` comes to the script, it runs these commands, and nothing else. -/
def Executes (script : Text) (commands : List Command) : Prop :=
  ∀ {σ : Type} (ctx : ShContext σ) {args positional : List Text} {source : ScriptSource} {s s' : σ},
    parseArgs args = .ok (source, positional) → ctx.readScript source s = (.ok script, s') →
    ctx.sh args s =
      some (ctx.runCommands commands 0 (ctx.enter (positionalVars positional) s'))

/-- The commands of the text are executed in their order, in command lines. -/
def BehavesAsText (script : Text) : Prop :=
  ∀ commands, Means script commands →
    ∃ groups : List (List Command), groups.flatten = commands ∧
      Executes script (groups.map .ofSequence)

/-- A line is emptied if it is a comment as a whole. -/
def uncommentedLine (line : Text) : Text := if (trim line).head? = some '#' then [] else line

def uncommented (script : Text) : Text :=
  ['\n'].intercalate ((script.splitOn '\n').map uncommentedLine)

/-- The lines of a script are command lines of their own. -/
structure LineByLine (script : Text) : Prop where
  /-- No line in the middle of a token looks like a comment. -/
  comments : ∀ ts, HasTokens script ts → HasTokens (uncommented script) ts
  /-- The comments behind commands have characters of one byte only. -/
  ascii : ∀ lexer, Reach Takes (fun _ token => token ≠ .eof) (.new (uncommented script)) lexer →
    lexer.AsciiComment
  /-- No token has a line break in it, but for the line breaks themselves. -/
  breaks : ∀ ts, HasTokens script ts → ts.count .newline = script.count '\n'
  /-- Between two line breaks there is nothing, or a whole command line. -/
  complete : ∀ ts, HasTokens script ts → ∀ piece ∈ ts.splitOn .newline, piece ≠ [] →
    ∃ commands, IsCommandLine piece commands
  /-- White space around a line belongs to no token. -/
  trimmed : ∀ line ∈ (uncommented script).splitOn '\n', ∀ ts, Lexes (.new line) ts →
    Lexes (.new (trim line)) ts

/-! ### The tokens of a text -/

section

variable {text text' : Text} {token : Token} {ts ts' : List Token} {lexer : Lexer}

/-- Where comments have characters of one byte only, the lexer skips them. -/
lemma exists_behindComment (h : AsciiComment text) : ∃ front, text = front ++ behindComment text ∧
    nextToken text 0 = (nextToken (behindComment text) 0).map (shiftedResult (byteLen front)) := by
  have hnew : sliceFrom text 0 = some text := sliceFrom_zero
  unfold behindComment
  split
  · rename_i comment hdrop
    have hhash := sliceFrom_dropWhile isBlank hnew
    rw [hdrop] at hhash
    have hone : ∀ c ∈ line ('#' :: comment), c.utf8Size = 1 := by
      rw [line, List.takeWhile_cons_of_pos (by rfl), List.forall_mem_cons]
      exact ⟨rfl, h comment hdrop⟩
    have hsplit : text = text.takeWhile isBlank ++ line ('#' :: comment) ++
        comment.dropWhile (· ≠ '\n') := by
      have hbehind : ('#' :: comment).dropWhile (· ≠ '\n') = comment.dropWhile (· ≠ '\n') :=
        List.dropWhile_cons_of_pos (by decide)
      rw [List.append_assoc, ← hbehind, line, List.takeWhile_append_dropWhile, ← hdrop,
        List.takeWhile_append_dropWhile]
    have hpos : 0 < byteLen (line ('#' :: comment)) := by
      rw [line, List.takeWhile_cons_of_pos (by rfl), byteLen_cons]
      exact Nat.lt_add_right _ (Char.utf8Size_pos '#')
    have hlen := congrArg byteLen hsplit
    rw [byteLen_append, byteLen_append] at hlen
    refine ⟨_, hsplit, ?_⟩
    rw [nextToken_hash hnew hdrop, skipComment_eq hhash hone, Option.bind_some,
      if_pos ⟨by omega, by omega⟩, ← nextToken_shift, ← hsplit, byteLen_append, Nat.zero_add,
      Nat.add_zero]
  · have hshift : nextToken ([] ++ text) (byteLen [] + 0) = _ := nextToken_shift
    exact ⟨[], rfl, hshift⟩

lemma takes_of_nextToken {n : ℕ} (hpeeked : lexer.peeked = none)
    (hslice : sliceFrom lexer.input lexer.pos = some text)
    (h : nextToken text 0 = some (.ok token, n)) :
    Takes lexer token { lexer with pos := lexer.pos + n } := by
  obtain ⟨a, heq, hpos⟩ := exists_of_sliceFrom hslice
  have hshift : nextToken (a ++ text) (byteLen a + 0) = _ := nextToken_shift
  rw [h, Nat.add_zero, ← heq, ← hpos] at hshift
  rw [Takes, Lexer.next_eq hpeeked, hshift]
  rfl

/-- The lexer reads the tokens of the text, unless it comes to a comment with longer characters. -/
lemma lexes_of_hasTokens (h : HasTokens text ts) (hpeeked : lexer.peeked = none)
    (hslice : sliceFrom lexer.input lexer.pos = some text)
    (hascii : ∀ lexer', Reach Takes (fun _ token => token ≠ .eof) lexer lexer' →
      lexer'.AsciiComment) : Lexes lexer ts := by
  induction h generalizing lexer with
  | eof hend =>
    obtain ⟨front, -, hnext⟩ := exists_behindComment (hascii lexer .refl _ hslice)
    rw [nextToken_nil sliceFrom_zero hend] at hnext
    exact .eof (takes_of_nextToken hpeeked hslice hnext)
  | @token text u rest token ts htoken hbehind hread _ ih =>
    obtain ⟨front, hsplit, hnext⟩ := exists_behindComment (hascii lexer .refl _ hslice)
    rw [hbehind, hread] at hnext
    have htakes := takes_of_nextToken hpeeked hslice hnext
    have hfirst : Reach Takes (fun _ token => token ≠ .eof) lexer _ :=
      Reach.tail .refl htoken htakes
    refine .token htoken htakes (ih hpeeked ?_ fun lexer' hreach =>
      hascii lexer' (hfirst.trans hreach))
    · rw [hsplit, hbehind, ← List.append_assoc] at hslice
      have hadd := sliceFrom_add hslice
      rwa [byteLen_append] at hadd

lemma rest_unique {u u' rest rest' : Text} (h : u ++ rest = u' ++ rest')
    (hlen : byteLen u = byteLen u') : rest = rest' := by
  have hslice : sliceFrom (u ++ rest) (byteLen u) = some rest := sliceFrom_append
  rw [h, hlen, sliceFrom_append] at hslice
  exact (Option.some.inj hslice).symm

lemma hasTokens_unique (h : HasTokens text ts) (h' : HasTokens text ts') : ts = ts' := by
  have hend {text u rest : Text} {token : Token} (hblank : (behindComment text).dropWhile isBlank =
      []) (htoken : token ≠ .eof) (hbehind : behindComment text = u ++ rest)
      (hread : nextToken (u ++ rest) 0 = some (.ok token, byteLen u)) : False := by
    rw [← hbehind, nextToken_nil sliceFrom_zero hblank] at hread
    exact htoken (Except.ok.inj (Prod.mk.inj (Option.some.inj hread)).1).symm
  induction h generalizing ts' with
  | eof hblank =>
    cases h' with
    | eof _ => rfl
    | token htoken hbehind hread _ => exact (hend hblank htoken hbehind hread).elim
  | token htoken hbehind hread _ ih =>
    cases h' with
    | eof hblank => exact (hend hblank htoken hbehind hread).elim
    | token _ hbehind' hread' hrest' =>
      rw [← hbehind, hbehind'] at hread
      obtain ⟨hresult, hlen⟩ := Prod.mk.inj (Option.some.inj (hread.symm.trans hread'))
      obtain rfl := Except.ok.inj hresult
      obtain rfl := rest_unique (hbehind.symm.trans hbehind') hlen
      rw [ih hrest']

/-- A text without the character has no comments. -/
lemma asciiComment_of_notMem (h : '#' ∉ text) :
    ∀ lexer, Reach Takes (fun _ token => token ≠ .eof) (.new text) lexer →
      lexer.AsciiComment := by
  intro lexer hreach
  obtain ⟨hinput, -⟩ : lexer.input = text ∧ lexer.peeked = none := by
    refine hreach.invariant (I := fun lexer => lexer.input = text ∧ lexer.peeked = none)
      ⟨rfl, rfl⟩ ?_
    rintro lexer token lexer' ⟨hinput, hpeeked⟩ - htakes
    rw [Takes, Lexer.next_eq hpeeked] at htakes
    obtain ⟨r, -, heq⟩ := Option.map_eq_some_iff.mp htakes
    rw [← (Prod.mk.inj heq).2]
    exact ⟨hinput, hpeeked⟩
  intro rest hrest comment hdrop
  obtain ⟨a, heq, -⟩ := exists_of_sliceFrom hrest
  refine absurd ?_ h
  rw [← hinput, heq]
  refine List.mem_append_right _ ((List.dropWhile_sublist isBlank).subset ?_)
  rw [hdrop]
  exact List.mem_cons_self

end

/-! ### Lines that are comments -/

lemma notMem_uncommentedLine {line : Text} (h : '\n' ∉ line) : '\n' ∉ uncommentedLine line := by
  rw [uncommentedLine]
  split_ifs
  · exact List.not_mem_nil
  · exact h

lemma splitOn_uncommented (script : Text) :
    (uncommented script).splitOn '\n' = (script.splitOn '\n').map uncommentedLine := by
  refine List.splitOn_intercalate '\n' ?_ (by simp)
  rw [List.forall_mem_map]
  exact fun line hline => notMem_uncommentedLine (not_mem_of_mem_splitOn hline)

lemma count_intercalate {texts : List Text} (h : ∀ line ∈ texts, '\n' ∉ line) :
    (['\n'].intercalate texts).count '\n' = texts.length - 1 := by
  induction texts with
  | nil => rfl
  | cons line texts ih =>
    obtain ⟨hline, htexts⟩ := List.forall_mem_cons.mp h
    cases texts with
    | nil =>
      rw [List.intercalate_singleton]
      exact List.count_eq_zero.mpr hline
    | cons line' texts =>
      rw [List.intercalate_cons_of_ne_nil (by simp), List.count_append, List.count_append,
        List.count_eq_zero.mpr hline, ih htexts]
      simp [Nat.add_comm]

lemma count_uncommented (script : Text) :
    (uncommented script).count '\n' = script.count '\n' := by
  have hlines : ∀ line ∈ script.splitOn '\n', '\n' ∉ line :=
    fun line hline => not_mem_of_mem_splitOn hline
  have hcount := count_intercalate hlines
  rw [List.intercalate_splitOn] at hcount
  rw [uncommented, count_intercalate, List.length_map, hcount]
  rw [List.forall_mem_map]
  exact fun line hline => notMem_uncommentedLine (hlines line hline)

/-! ### Scripts have one meaning -/

open Shell.Parser

/-- What stands between two lists of a script, and what it makes of the command before it. -/
inductive IsBreak : List Token → (Command → Command) → Prop
  | newline : IsBreak [.newline] id
  | separator {sep : List Token} {f : Command → Command} : IsSeparator sep f → IsBreak sep f

/-- The lists of a script. -/
inductive IsLists : List Token → List Command → Prop
  | nil : IsLists [] []
  | newline {ts : List Token} {commands : List Command} : IsLists ts commands →
      IsLists (.newline :: ts) commands
  | last {ts : List Token} {command : Command} : IsList ts command → IsLists ts [command]
  | cons {ts sep ts' : List Token} {command : Command} {f : Command → Command}
      {commands : List Command} : IsList ts command → IsBreak sep f → IsLists ts' commands →
      IsLists (ts ++ sep ++ ts') (f command :: commands)

variable {ts ts' sep rest rest' : List Token} {commands commands' : List Command}
  {command command' : Command} {f f' : Command → Command}

lemma isLists_of_isCommandLine {ts : List Token} {commands : List Command}
    (h : IsCommandLine ts commands) : IsLists ts commands := by
  induction commands generalizing ts with
  | nil => cases h
  | cons command commands ih =>
    cases h with
    | list h => exact .last h
    | last h hsep =>
      have hcons := IsLists.cons h (.separator hsep) .nil
      rwa [List.append_nil] at hcons
    | cons h hsep h' => exact .cons h (.separator hsep) (ih h')

lemma isLists_line {ts ts' : List Token} {commands commands' : List Command}
    (h' : IsLists ts' commands') (h : IsCommandLine ts commands) :
    IsLists (ts ++ .newline :: ts') (commands ++ commands') := by
  induction commands generalizing ts with
  | nil => cases h
  | cons command commands ih =>
    cases h with
    | list h =>
      have hcons := IsLists.cons h .newline h'
      rwa [List.append_assoc] at hcons
    | last h hsep => exact .cons h (.separator hsep) (.newline h')
    | cons h hsep hline =>
      rw [List.append_assoc]
      exact .cons h (.separator hsep) (ih hline)

lemma isLists_of_isScript (h : IsScript ts commands) : IsLists ts commands := by
  induction h with
  | nil => exact .nil
  | newline _ ih => exact .newline ih
  | last h => exact isLists_of_isCommandLine h
  | line h _ ih => exact isLists_line ih h

/-- The tokens without the line breaks before them. -/
def skipped (ts : List Token) : List Token := ts.dropWhile (· = .newline)

lemma skipped_of_starts (h : StartsCommand ts) : skipped ts = ts := by
  have hdrop := dropWhile_newlines (by simp [Newlines] : Newlines []) h.ne.1
  rwa [List.nil_append] at hdrop

lemma skipped_append {nl : List Token} (hnl : Newlines nl) : skipped (nl ++ ts) = skipped ts :=
  List.dropWhile_append_of_pos (by simpa [Newlines] using hnl)

lemma starts_of_cons (h : IsList ts command) : StartsCommand (ts ++ sep ++ rest) := by
  rw [List.append_assoc]
  exact (starts_of_isList h).append _

lemma IsLists.skipped (h : IsLists ts commands) :
    IsLists (skipped ts) commands ∧ first (Shell.skipped ts) ≠ .amp := by
  induction h with
  | nil => exact ⟨.nil, by decide⟩
  | newline _ ih => exact ih
  | last h =>
    rw [skipped_of_starts (starts_of_isList h)]
    exact ⟨.last h, (starts_of_isList h).ne.2.1⟩
  | cons h hbreak h' _ =>
    rw [skipped_of_starts (starts_of_cons h)]
    exact ⟨.cons h hbreak h', (starts_of_cons h).ne.2.1⟩

/-- What is behind a break at the front of the tokens. -/
def behindBreak : List Token → List Token
  | .semi :: ts => if first (skipped ts) = .amp then skipped (skipped ts).tail else skipped ts
  | _ :: ts => skipped ts
  | [] => []

/-- A break can be read off the tokens. -/
lemma IsBreak.eq (h : IsBreak sep f) (hrest : first (skipped rest) ≠ .amp) :
    behindBreak (sep ++ rest) = skipped rest ∧
      f = if first (sep ++ rest) = .amp then .background else id := by
  cases h with
  | newline => exact ⟨rfl, rfl⟩
  | separator h =>
    cases h with
    | semi hnl =>
      refine ⟨?_, rfl⟩
      rw [List.cons_append, behindBreak, skipped_append hnl, if_neg hrest]
    | amp hnl =>
      refine ⟨?_, rfl⟩
      rw [List.cons_append, behindBreak, skipped_append hnl]
      simp
    | @semiAmp nl nl' hnl hnl' =>
      refine ⟨?_, rfl⟩
      have hamp : skipped (.amp :: (nl' ++ rest)) = .amp :: (nl' ++ rest) :=
        List.dropWhile_cons_of_neg (by decide)
      rw [List.append_assoc, List.cons_append, List.cons_append, behindBreak, skipped_append hnl,
        hamp, first_cons, if_pos rfl, List.tail_cons, skipped_append hnl']

/-- Here a list is over. -/
def EndsList (rest : List Token) : Prop :=
  part (first rest) = none ∧ first rest ≠ .pipe ∧ first rest ≠ .and ∧ first rest ≠ .or

lemma IsBreak.endsList (h : IsBreak sep f) : EndsList (sep ++ rest) := by
  cases h with
  | newline => simp [EndsList, part]
  | separator h =>
    obtain ⟨ts, rfl | rfl⟩ := exists_cons_of_isSeparator h <;> simp [EndsList, part]

/-- The list at the front of the tokens is the one that the parser reads. -/
lemma isList_unique {lexer : Lexer} (hlexes : Lexes lexer (ts ++ rest)) (h : IsList ts command)
    (hrest : EndsList rest) (h' : IsList ts' command') (hrest' : EndsList rest')
    (heq : ts ++ rest = ts' ++ rest') : command = command' ∧ rest = rest' := by
  obtain ⟨hpart, hpipe, hand, hor⟩ := hrest
  obtain ⟨hpart', hpipe', hand', hor'⟩ := hrest'
  obtain ⟨_, hparse, hbehind⟩ := (listReaches h).parseList hlexes hpart hpipe hand hor le_rfl
  rw [heq] at hlexes hparse
  obtain ⟨_, hparse', hbehind'⟩ := (listReaches h').parseList hlexes hpart' hpipe' hand' hor' le_rfl
  obtain ⟨rfl, rfl⟩ := Prod.mk.inj (Except.ok.inj (Option.some.inj (hparse.symm.trans hparse')))
  exact ⟨rfl, lexes_unique hbehind hbehind'⟩

lemma exists_lexes_append {lexer : Lexer} (h : Lexes lexer (ts ++ rest)) :
    ∃ lexer', Lexes lexer' rest := by
  induction ts generalizing lexer with
  | nil => exact ⟨lexer, h⟩
  | cons token ts ih =>
    obtain ⟨-, lexer', -, hrest⟩ := Lexes.next h
    exact ih hrest

lemma IsBreak.ne_nil (h : IsBreak sep f) : sep ≠ [] := by
  cases h with
  | newline => simp
  | separator h => obtain ⟨ts, rfl | rfl⟩ := exists_cons_of_isSeparator h <;> simp

/-- Behind a list the script is over, or there is a break and the rest of the script. -/
lemma IsLists.starts (h : IsLists ts commands) (hts : StartsCommand ts) :
    ∃ front rest command, ts = front ++ rest ∧ IsList front command ∧ EndsList rest ∧
      ((rest = [] ∧ commands = [command]) ∨ ∃ sep ts' f commands', rest = sep ++ ts' ∧
        IsBreak sep f ∧ IsLists ts' commands' ∧ commands = f command :: commands') := by
  cases h with
  | nil => exact absurd rfl hts.ne_nil
  | newline _ => exact absurd rfl hts.ne.1
  | last h =>
    exact ⟨_, [], _, (List.append_nil _).symm, h, by simp [EndsList, first, part], .inl ⟨rfl, rfl⟩⟩
  | cons h hbreak h' =>
    exact ⟨_, _, _, List.append_assoc .., h, hbreak.endsList,
      .inr ⟨_, _, _, _, rfl, hbreak, h', rfl⟩⟩

lemma length_skipped_le (ts : List Token) : (skipped ts).length ≤ ts.length :=
  (List.dropWhile_sublist _).length_le

lemma exists_lexes_skipped {lexer : Lexer} (h : Lexes lexer ts) :
    ∃ lexer', Lexes lexer' (skipped ts) := by
  rw [← List.takeWhile_append_dropWhile (p := (· = .newline)) (l := ts)] at h
  exact exists_lexes_append h

lemma starts_or_nil (h : IsLists ts commands) :
    (skipped ts = [] ∧ commands = []) ∨ StartsCommand (skipped ts) := by
  induction h with
  | nil => exact .inl ⟨rfl, rfl⟩
  | newline _ ih => exact ih
  | last h =>
    rw [skipped_of_starts (starts_of_isList h)]
    exact .inr (starts_of_isList h)
  | cons h _ _ _ =>
    rw [skipped_of_starts (starts_of_cons h)]
    exact .inr (starts_of_cons h)

lemma isLists_unique {lexer : Lexer} (hlexes : Lexes lexer ts) (h : IsLists ts commands)
    (h' : IsLists ts commands') : commands = commands' := by
  induction hn : ts.length using Nat.strong_induction_on
    generalizing lexer ts commands commands' with
  | _ n ih =>
    obtain ⟨hnil, rfl⟩ | hstarts := starts_or_nil h
    · obtain ⟨-, rfl⟩ | hstarts' := starts_or_nil h'
      · rfl
      · exact absurd hnil hstarts'.ne_nil
    · obtain ⟨lexer', hskipped⟩ := exists_lexes_skipped hlexes
      have hlen := length_skipped_le ts
      obtain ⟨front, rest, command, heq, hlist, hends, hrest⟩ := h.skipped.1.starts hstarts
      obtain ⟨front', rest', command', heq', hlist', hends', hrest'⟩ := h'.skipped.1.starts hstarts
      rw [heq] at hskipped
      obtain ⟨rfl, rfl⟩ := isList_unique hskipped hlist hends hlist' hends' (heq.symm.trans heq')
      obtain ⟨rfl, rfl⟩ | ⟨sep, behind, f, cs, rfl, hbreak, hlists, rfl⟩ := hrest
      · obtain ⟨-, rfl⟩ | ⟨sep', _, _, _, hnil, hbreak', -, -⟩ := hrest'
        · rfl
        · exact absurd (List.append_eq_nil_iff.mp hnil.symm).1 hbreak'.ne_nil
      · obtain ⟨hnil, -⟩ | ⟨sep', behind', f', cs', heq'', hbreak', hlists', rfl⟩ := hrest'
        · exact absurd (List.append_eq_nil_iff.mp hnil).1 hbreak.ne_nil
        · obtain ⟨hlists, hamp⟩ := hlists.skipped
          obtain ⟨hlists', hamp'⟩ := hlists'.skipped
          obtain ⟨hbehind, hf⟩ := hbreak.eq hamp
          obtain ⟨hbehind', hf'⟩ := hbreak'.eq hamp'
          rw [heq''] at hbehind hf
          rw [hbehind'] at hbehind
          rw [← hbehind] at hlists
          obtain ⟨_, hlexes'⟩ := exists_lexes_append hskipped
          rw [heq''] at hlexes'
          obtain ⟨_, hlexes'⟩ := exists_lexes_append hlexes'
          obtain ⟨_, hlexes'⟩ := exists_lexes_skipped hlexes'
          have hless : (skipped behind').length < n := by
            have hfront := List.length_pos_of_ne_nil (starts_of_isList hlist).ne_nil
            have hlen' := length_skipped_le behind'
            rw [heq, heq'', List.length_append, List.length_append] at hlen
            omega
          rw [ih _ hless hlexes' hlists hlists' rfl, hf, hf']

lemma isScript_unique {lexer : Lexer} (hlexes : Lexes lexer ts) (h : IsScript ts commands)
    (h' : IsScript ts commands') : commands = commands' :=
  isLists_unique hlexes (isLists_of_isScript h) (isLists_of_isScript h')

/-! ### Lines -/

variable {line : Text} {texts texts' : List Text} {σ : Type} (ctx : ShContext σ)

/-- The first character behind the white space is none. -/
lemma isWhitespace_of_head?_trim {c : Char} (h : (trim line).head? = some c) :
    isWhitespace c = false := by
  obtain ⟨rest, hrest⟩ := List.head?_eq_some_iff.mp h
  obtain ⟨behind, hbehind⟩ := List.rdropWhile_prefix isWhitespace (line.dropWhile isWhitespace)
  rw [← trim, hrest, List.cons_append] at hbehind
  exact not_of_dropWhile_eq_cons hbehind.symm

lemma isWhitespace_of_isBlank {c : Char} (h : isBlank c = true) : isWhitespace c = true := by
  simp only [isBlank, Bool.or_eq_true, decide_eq_true_eq] at h
  obtain (rfl | rfl) | rfl := h <;> decide

/-- A line has no tokens if, and only if, it is skipped. -/
lemma lexes_trim (hline : '\n' ∉ line) (h : Lexes (.new (trim line)) ts) :
    ts = [] ↔ trim line = [] ∨ (trim line).head? = some '#' := by
  have hmem : '\n' ∉ trim line := by
    intro hmem
    apply hline
    apply (List.dropWhile_sublist isWhitespace).subset
    exact (List.rdropWhile_prefix isWhitespace _).subset hmem
  rw [lexes_line hmem h]
  cases htrim : trim line with
  | nil => simp
  | cons c rest =>
    have hblank : isBlank c ≠ true := by
      intro hblank
      have hwhite := isWhitespace_of_head?_trim (by rw [htrim, List.head?_cons] :
        (trim line).head? = some c)
      rw [isWhitespace_of_isBlank hblank] at hwhite
      cases hwhite
    rw [List.dropWhile_cons_of_neg hblank]
    simp

/-- A carriage return at the end of a line is trimmed too. -/
lemma trim_stripped (line : Text) :
    trim (if line.getLast? = some '\r' then line.dropLast else line) = trim line := by
  split_ifs with hcr
  · obtain ⟨front, rfl⟩ := List.getLast?_eq_some_iff.mp hcr
    rw [List.dropLast_concat, trim, trim]
    by_cases hall : ∀ c ∈ front, isWhitespace c = true
    · rw [List.dropWhile_append_of_pos hall, List.dropWhile_eq_nil_iff.mpr hall,
        List.dropWhile_cons_of_pos (by decide), List.dropWhile_nil]
    · have hne : (front.dropWhile isWhitespace).isEmpty = false := by
        simpa [List.isEmpty_iff, List.dropWhile_eq_nil_iff] using hall
      rw [List.dropWhile_append, hne, if_neg (by simp),
        List.rdropWhile_concat_pos _ _ _ (by decide)]
  · rfl

namespace ShContext

/-- Only what is left of a line without white space around it is looked at. -/
lemma runLines_congr (h : texts.map trim = texts'.map trim) :
    ctx.runLines texts = ctx.runLines texts' := by
  induction texts generalizing texts' with
  | nil =>
    obtain rfl := List.map_eq_nil_iff.mp h.symm
    rfl
  | cons line texts ih =>
    cases texts' with
    | nil => cases h
    | cons line' texts' =>
      obtain ⟨hline, htexts⟩ := List.cons.inj h
      funext lastExit s
      rw [runLines, runLines, hline, ih htexts]

lemma runLines_concat_nil : ctx.runLines (texts ++ [[]]) = ctx.runLines texts := by
  induction texts with
  | nil =>
    funext lastExit s
    have hnil : trim [] = [] ∨ (trim []).head? = some '#' := .inl rfl
    rw [List.nil_append, runLines, runLines, if_pos hnil]
    rfl
  | cons line texts ih =>
    funext lastExit s
    rw [List.cons_append, runLines, runLines, ih]

lemma runLines_lines (script : Text) :
    ctx.runLines (lines script) = ctx.runLines (script.splitOn '\n') := by
  have hne : script.splitOn '\n' ≠ [] := List.splitOn_ne_nil _ _
  have hparts := List.dropLast_append_getLast hne
  rw [lines, List.getLastD_eq_getLast?, List.getLast?_eq_getLast_of_ne_nil hne, Option.getD_some]
  split_ifs with hlast
  · rw [hlast] at hparts
    rw [← hparts, runLines_concat_nil, List.dropLast_concat, List.append_nil]
    apply runLines_congr
    simp only [List.map_map, Function.comp_def, trim_stripped]
  · apply runLines_congr
    conv_rhs => rw [← hparts]
    simp only [List.map_append, List.map_map, Function.comp_def, trim_stripped]

/-- A line that is skipped. -/
lemma runLines_skip (h : trim line = [] ∨ (trim line).head? = some '#') :
    ctx.runLines (line :: texts) = ctx.runLines texts := by
  funext lastExit s
  rw [runLines]
  exact if_pos h

/-- A line that is a comment is skipped, as an empty one is. -/
lemma runLines_uncommented : ctx.runLines (texts.map uncommentedLine) = ctx.runLines texts := by
  induction texts with
  | nil => rfl
  | cons line texts ih =>
    rw [List.map_cons, uncommentedLine]
    split_ifs with hhash
    · have hnil : trim [] = [] ∨ (trim []).head? = some '#' := .inl rfl
      rw [ctx.runLines_skip hnil, ctx.runLines_skip (.inr hhash), ih]
    · funext lastExit s
      rw [runLines, runLines, ih]

/-- A line that is a command line. -/
lemma runLines_cons {lexer : Lexer} (h : ¬ (trim line = [] ∨ (trim line).head? = some '#'))
    (hparse : parse (trim line) = some (.ok (command, lexer)))
    (hrest : ∀ lastExit s, ctx.runLines texts lastExit s =
      some (ctx.runCommands commands lastExit s)) (lastExit : ℤ) (s : σ) :
    ctx.runLines (line :: texts) lastExit s =
      some (ctx.runCommands (command :: commands) lastExit s) := by
  rw [runLines, runCommands, if_neg h, hparse]
  dsimp only
  cases ctx.executeParsed command s with
  | mk outcome s =>
    cases outcome with
    | ok code => exact hrest code s
    | error e => rfl

end ShContext

/-- Lines that are command lines of their own are run one by one, and the script means the commands
that are run. -/
lemma exists_groups {pieces : List (List Token)}
    (h : List.Forall₂ (fun line piece => '\n' ∉ line ∧ Lexes (.new (trim line)) piece ∧
      (piece ≠ [] → ∃ commands, IsCommandLine piece commands)) texts pieces) :
    ∃ groups : List (List Command),
      (∀ {σ : Type} (ctx : ShContext σ) (lastExit : ℤ) (s : σ), ctx.runLines texts lastExit s =
        some (ctx.runCommands (groups.map .ofSequence) lastExit s)) ∧
      IsScript ([.newline].intercalate pieces) groups.flatten := by
  induction h with
  | nil => exact ⟨[], fun ctx lastExit s => rfl, .nil⟩
  | @cons line piece texts pieces hhead hrest ih =>
    obtain ⟨groups, hrun, hscript⟩ := ih
    obtain ⟨hline, hlexes, hcommands⟩ := hhead
    have hskip := lexes_trim hline hlexes
    by_cases hpiece : piece = []
    · refine ⟨groups, fun ctx lastExit s => ?_, ?_⟩
      · rw [ctx.runLines_skip (hskip.mp hpiece), hrun]
      · cases pieces with
        | nil => rwa [hpiece]
        | cons piece' pieces =>
          rw [hpiece, List.intercalate_cons_of_ne_nil (by simp), List.nil_append,
            List.singleton_append]
          exact .newline hscript
    · obtain ⟨commands, hcommandLine⟩ := hcommands hpiece
      have hinput : IsInput piece (.ofSequence commands) := by
        have hnone : Newlines [] := by simp [Newlines]
        have hinput := IsInput.commandLine hnone hcommandLine hnone
        rwa [List.nil_append, List.append_nil] at hinput
      obtain ⟨lexer, hparse, -⟩ := (parse_eq_ok_iff _ _).mpr ⟨_, hlexes, hinput⟩
      refine ⟨commands :: groups, fun ctx => ?_, ?_⟩
      · exact ctx.runLines_cons (fun h => hpiece (hskip.mpr h)) hparse (hrun ctx)
      · cases pieces with
        | nil =>
          have hnil : groups.flatten = [] := by
            obtain ⟨-, hnil⟩ | hstarts := starts_or_nil (isLists_of_isScript hscript)
            · exact hnil
            · exact absurd rfl hstarts.ne_nil
          rw [List.flatten_cons, hnil, List.append_nil]
          exact .last (by rwa [List.intercalate_singleton])
        | cons piece' pieces =>
          rw [List.intercalate_cons_of_ne_nil (by simp), List.append_assoc, List.singleton_append]
          exact .line hcommandLine hscript

/-- A script whose lines are command lines of their own behaves like its text. -/
theorem behavesAsText_of_lineByLine (script : Text) (h : LineByLine script) :
    BehavesAsText script := by
  rintro commands ⟨ts, htokens, hscript⟩
  have hlexes : Lexes (.new (uncommented script)) ts :=
    lexes_of_hasTokens (h.comments ts htokens) rfl sliceFrom_zero h.ascii
  have hlines := (lexes_lines hlexes).2
    ((h.breaks ts htokens).trans (count_uncommented script).symm)
  have hpieces : List.Forall₂ (fun line piece => '\n' ∉ line ∧ Lexes (.new (trim line)) piece ∧
      (piece ≠ [] → ∃ commands, IsCommandLine piece commands))
      ((uncommented script).splitOn '\n') (ts.splitOn .newline) := by
    rw [List.forall₂_iff_zip] at hlines ⊢
    refine ⟨hlines.1, fun {line piece} hmem => ?_⟩
    obtain ⟨hline, hpiece⟩ := List.of_mem_zip hmem
    exact ⟨not_mem_of_mem_splitOn hline, h.trimmed line hline piece (hlines.2 hmem),
      h.complete ts htokens piece hpiece⟩
  obtain ⟨groups, hrun, hgroups⟩ := exists_groups hpieces
  rw [List.intercalate_splitOn] at hgroups
  refine ⟨groups, isScript_unique hlexes hgroups hscript, ?_⟩
  intro σ ctx args positional source s s' hargs hsource
  rw [ShContext.sh, hargs]
  dsimp only
  rw [hsource]
  dsimp only
  rw [ctx.runLines_lines, ← ctx.runLines_uncommented, ← splitOn_uncommented, hrun]

/-- The tokens of a text, if they are read with the fuel. -/
def readTokens : ℕ → Text → Option (List Token)
  | 0, _ => none
  | fuel + 1, text =>
    let text := behindComment text
    if text.dropWhile isBlank = [] then some []
    else
      match nextToken text 0 with
      | some (.ok token, pos) =>
        if token = .eof then none
        else ((sliceFrom text pos).bind (readTokens fuel)).map (token :: ·)
      | _ => none

lemma hasTokens_of_readTokens {fuel : ℕ} {text : Text} (h : readTokens fuel text = some ts) :
    HasTokens text ts := by
  induction fuel generalizing text ts with
  | zero => cases h
  | succ fuel ih =>
    simp only [readTokens] at h
    split_ifs at h with hblank
    · obtain rfl := Option.some.inj h
      exact .eof hblank
    · split at h
      · rename_i token pos hnext
        split_ifs at h with heof
        obtain ⟨ts, hts, rfl⟩ := Option.map_eq_some_iff.mp h
        obtain ⟨rest, hslice, hrest⟩ := Option.bind_eq_some_iff.mp hts
        obtain ⟨u, hbehind, rfl⟩ := exists_of_sliceFrom hslice
        exact .token heof hbehind (hbehind ▸ hnext) (ih hrest)
      · cases h

lemma lexes_of_readTokens {fuel : ℕ} {text : Text} (h : readTokens fuel text = some ts)
    (hhash : '#' ∉ text) : Lexes (.new text) ts :=
  lexes_of_hasTokens (hasTokens_of_readTokens h) rfl sliceFrom_zero (asciiComment_of_notMem hhash)

/-- A comment with an accent, and two command lines with an empty line between them. -/
theorem behavesAsText_of_lineByLine_twoLines : BehavesAsText "# é\necho a\n\n wc".toList := by
  have hwc : Lexes (.new "wc".toList) [.word (.unquoted "wc".toList)] :=
    lexes_of_readTokens (by decide +kernel : readTokens 9 _ = _) (by decide)
  have hblank : Lexes (.new " wc".toList) [.word (.unquoted "wc".toList)] :=
    lexes_of_readTokens (by decide +kernel : readTokens 9 _ = _) (by decide)
  have htokens : HasTokens "# é\necho a\n\n wc".toList [.newline, .word (.unquoted "echo".toList),
      .word (.unquoted "a".toList), .newline, .newline, .word (.unquoted "wc".toList)] :=
    hasTokens_of_readTokens (by decide +kernel : readTokens 9 _ = _)
  have huncommented : uncommented "# é\necho a\n\n wc".toList = "\necho a\n\n wc".toList := by
    decide +kernel
  have hcommand {ts : List Token} {argv : List Word} (h : IsParts ts argv []) (hne : ts ≠ []) :
      ∃ commands, IsCommandLine ts commands :=
    ⟨_, .list (.pipeline (.command (.simple h hne)))⟩
  refine behavesAsText_of_lineByLine _ ⟨?_, ?_, ?_, ?_, ?_⟩
  · intro ts h
    rw [hasTokens_unique h htokens, huncommented]
    exact hasTokens_of_readTokens (by decide +kernel : readTokens 9 _ = _)
  · rw [huncommented]
    exact asciiComment_of_notMem (by decide)
  · intro ts h
    rw [hasTokens_unique h htokens]
    decide
  · intro ts h piece hpiece hne
    rw [hasTokens_unique h htokens] at hpiece
    have hpieces : piece ∈ [[], [.word (.unquoted "echo".toList), .word (.unquoted "a".toList)], [],
      [Token.word (.unquoted "wc".toList)]] := hpiece
    simp only [List.mem_cons, List.not_mem_nil, or_false] at hpieces
    obtain rfl | rfl | rfl | rfl := hpieces
    · exact absurd rfl hne
    · exact hcommand (.word _ (.word _ .nil)) hne
    · exact absurd rfl hne
    · exact hcommand (.word _ .nil) hne
  · intro line hline ts h
    rw [huncommented] at hline
    have hlines : line ∈ [[], "echo a".toList, [], " wc".toList] := hline
    simp only [List.mem_cons, List.not_mem_nil, or_false] at hlines
    obtain rfl | rfl | rfl | rfl := hlines
    · exact h
    · exact h
    · exact h
    · rw [lexes_unique h hblank]
      exact hwc

/-- A shell that counts the commands. -/
def counter : ShContext ℕ where
  readFile _ n := (.error [], n)
  readStdin n := (.ok none, n)
  eprintln _ n := (.ok (), n)
  enter _ n := n
  execute _ n := (.ok 0, n + 1)
  display _ := []

lemma runCommands_counter (lastExit : ℤ) (n : ℕ) :
    (counter.runCommands commands lastExit n).2 = n + commands.countP (!Command.isEmpty ·) := by
  induction commands generalizing lastExit n with
  | nil => rfl
  | cons cmd commands ih =>
    rw [ShContext.runCommands, List.countP_cons, ShContext.executeParsed]
    cases hempty : cmd.isEmpty with
    | true =>
      rw [if_pos rfl]
      simpa using ih 0 n
    | false =>
      rw [if_neg (by simp), Bool.not_false, if_pos rfl, ← Nat.add_assoc, Nat.add_right_comm]
      exact ih 0 (n + 1)

/-- A command line with a command in it is not empty. -/
lemma isEmpty_ofSequence (h : command ∈ commands) (hne : command.isEmpty = false) :
    (Command.ofSequence commands).isEmpty = false := by
  cases commands with
  | nil => cases h
  | cons first rest =>
    cases rest with
    | nil =>
      obtain rfl := List.mem_singleton.mp h
      exact hne
    | cons second rest => rfl

/-- A list that goes on behind a line break is not run. -/
theorem not_behavesAsText : ¬ ∀ script, BehavesAsText script := by
  intro h
  have htokens : HasTokens "echo a &&\necho b".toList ([.word (.unquoted "echo".toList),
      .word (.unquoted "a".toList)] ++ .and :: [.newline] ++ [.word (.unquoted "echo".toList),
      .word (.unquoted "b".toList)]) :=
    hasTokens_of_readTokens (by decide +kernel : readTokens 9 _ = _)
  have hcommand (c d : Word) : IsPipeline [.word c, .word d] [.simple [c, d] []] :=
    .command (.simple (.word _ (.word _ .nil)) (by simp))
  have hnewlines : Newlines [.newline] := by simp [Newlines]
  have hleft := hcommand (.unquoted "echo".toList) (.unquoted "a".toList)
  have hright := hcommand (.unquoted "echo".toList) (.unquoted "b".toList)
  have hscript := IsScript.last (.list (.and (.pipeline hleft) hnewlines hright))
  obtain ⟨groups, hgroups, hexecutes⟩ := h _ _ ⟨_, htokens, hscript⟩
  have hrun : counter.sh ["-c".toList, "echo a &&\necho b".toList] 0 = some (.ok 1, 0) := by
    decide +kernel
  have hargs : parseArgs ["-c".toList, "echo a &&\necho b".toList] =
      .ok (.command "echo a &&\necho b".toList, []) := rfl
  rw [hexecutes counter hargs rfl] at hrun
  -- no command is run
  have hnone := congrArg Prod.snd (Option.some.inj hrun)
  rw [runCommands_counter, counter, Nat.zero_add, List.countP_eq_zero] at hnone
  obtain ⟨group, hgroup, hmem⟩ := List.mem_flatten.mp (hgroups ▸ List.mem_singleton_self _)
  have hsome := isEmpty_ofSequence hmem rfl
  have hempty := hnone _ (List.mem_map_of_mem hgroup)
  rw [hsome] at hempty
  exact hempty rfl

end AmlaSandbox.Shell
