import AmlaSandbox.Shell.Scan
import AmlaSandbox.Shell.Shift

/-!
# Here documents

What the lexer makes of a script with a here document, and of the script that is left when the lines
of the document and its delimiter line are deleted. The lexer goes on behind the delimiter line:
what stands behind the delimiter on the command line is lost, and the line break with it.
-/

namespace AmlaSandbox.Shell

open Text

variable {input rest : Text} {pos : ℕ}

/-! ### Lines -/

/-- Lines that end in a line break each. -/
def linesText (ls : List Text) : Text := ls.flatMap (· ++ ['\n'])

/-- A line of a document, without its leading tabs if so asked. -/
def stripLine (stripTabs : Bool) (line : Text) : Text :=
  if stripTabs then line.dropWhile (· = '\t') else line

/-- The lines of a document, joined. -/
def documentContent (stripTabs : Bool) (ls : List Text) : Text :=
  ['\n'].intercalate (ls.map (stripLine stripTabs))

/-- The line is taken for the delimiter. -/
def TakenFor (delimiter : Text) (stripTabs : Bool) (line : Text) : Prop :=
  stripLine stripTabs line = delimiter ∨
    (stripLine stripTabs line).rdropWhile isWhitespace = delimiter

instance (delimiter : Text) (stripTabs : Bool) (line : Text) :
    Decidable (TakenFor delimiter stripTabs line) := inferInstanceAs (Decidable (_ ∨ _))

lemma splitOn_linesText {ls : List Text} (h : ∀ l ∈ ls, '\n' ∉ l) (text : Text) :
    (linesText ls ++ text).splitOn '\n' = ls ++ text.splitOn '\n' := by
  induction ls with
  | nil => rfl
  | cons l ls ih =>
    obtain ⟨hl, hrest⟩ := List.forall_mem_cons.mp h
    have heq : linesText (l :: ls) ++ text = l ++ '\n' :: (linesText ls ++ text) := by
      simp [linesText]
    rw [heq, List.splitOn_append_cons_self_of_not_mem hl, ih hrest, List.cons_append]

lemma intercalate_append_singleton (front : List Text) (last : Text) :
    ['\n'].intercalate (front ++ [last]) = linesText front ++ last := by
  rw [intercalate_append_cons, List.flatMap_nil, List.append_nil, linesText]

/-- The first line that is taken for the delimiter ends the document. -/
lemma findDelimiter_append {delimiter : Text} {stripTabs : Bool} {ls back : List Text} {line : Text}
    (hls : ∀ l ∈ ls, ¬ TakenFor delimiter stripTabs l) (hline : TakenFor delimiter stripTabs line)
    (offset : ℕ) :
    findDelimiter delimiter stripTabs offset (ls ++ line :: back) =
      some (offset + byteLen (linesText ls), byteLen line) := by
  induction ls generalizing offset with
  | nil =>
    rw [List.nil_append, findDelimiter]
    exact if_pos hline
  | cons l ls ih =>
    obtain ⟨hl, hrest⟩ := List.forall_mem_cons.mp hls
    have hstep : findDelimiter delimiter stripTabs offset (l :: (ls ++ line :: back)) =
        findDelimiter delimiter stripTabs (offset + (byteLen l + 1)) (ls ++ line :: back) := by
      rw [findDelimiter]
      exact if_neg hl
    rw [List.cons_append, hstep, ih hrest]
    have hbreak : '\n'.utf8Size = 1 := rfl
    simp only [linesText, List.flatMap_cons, byteLen_append, byteLen_cons, byteLen_nil, hbreak]
    congr 2
    omega

lemma findDelimiter_eq_none {delimiter : Text} {stripTabs : Bool} {ls : List Text}
    (h : ∀ l ∈ ls, ¬ TakenFor delimiter stripTabs l) (offset : ℕ) :
    findDelimiter delimiter stripTabs offset ls = none := by
  induction ls generalizing offset with
  | nil => rfl
  | cons l ls ih =>
    obtain ⟨hl, hrest⟩ := List.forall_mem_cons.mp h
    rw [findDelimiter]
    exact (if_neg hl).trans (ih hrest _)

/-! ### The content -/

lemma linesText_append_singleton (front : List Text) (last : Text) :
    linesText (front ++ [last]) = linesText front ++ last ++ ['\n'] := by
  simp [linesText]

/-- Without tabs to strip the content is that of the lines. -/
lemma heredocContent_false (ls : List Text) :
    heredocContent false (linesText ls) = documentContent false ls := by
  have hmap : ls.map (stripLine false) = ls := List.map_id ls
  rw [documentContent, hmap, heredocContent]
  induction ls using List.reverseRecOn with
  | nil => rfl
  | append_singleton front last =>
    rw [linesText_append_singleton, intercalate_append_singleton]
    simp

/-- A line without the carriage return that `str::lines` takes for a part of the line break. -/
def chomp (l : Text) : Text := if l.getLast? = some '\r' then l.dropLast else l

lemma lines_linesText {ls : List Text} (h : ∀ l ∈ ls, '\n' ∉ l) :
    lines (linesText ls) = ls.map chomp := by
  have hsplit := splitOn_linesText h []
  rw [List.append_nil, List.splitOn_nil] at hsplit
  simp only [lines, hsplit, List.dropLast_concat, List.getLastD_concat, if_true, List.append_nil]
  rfl

/-- The line that the content has for a line, where tabs are stripped. -/
def chompedLine (l : Text) : Text := (chomp l).dropWhile (· = '\t')

lemma chompedLine_of_ne {l : Text} (h : l.getLast? ≠ some '\r') :
    chompedLine l = stripLine true l := by
  rw [chompedLine, chomp, if_neg h]
  rfl

lemma stripLine_of_carriageReturn {l : Text} (h : l.getLast? = some '\r') :
    stripLine true l = chompedLine l ++ ['\r'] := by
  obtain ⟨body, rfl⟩ : ∃ body, l = body ++ ['\r'] := List.getLast?_eq_some_iff.mp h
  have hchomp : chomp (body ++ ['\r']) = body := by
    rw [chomp, if_pos h, List.dropLast_concat]
  have hstrip : stripLine true (body ++ ['\r']) = (body ++ ['\r']).dropWhile (· = '\t') := rfl
  rw [chompedLine, hchomp, hstrip, List.dropWhile_append]
  split_ifs with hempty
  · rw [List.isEmpty_iff.mp hempty]
    rfl
  · rfl

lemma length_chompedLine_le (l : Text) :
    (chompedLine l).length ≤ (stripLine true l).length := by
  by_cases h : l.getLast? = some '\r'
  · rw [stripLine_of_carriageReturn h, List.length_append]
    exact Nat.le_add_right ..
  · rw [chompedLine_of_ne h]

lemma chompedLine_eq_iff (l : Text) :
    chompedLine l = stripLine true l ↔ l.getLast? ≠ some '\r' := by
  refine ⟨fun heq h => ?_, chompedLine_of_ne⟩
  rw [stripLine_of_carriageReturn h] at heq
  simpa using congrArg List.length heq

lemma not_mem_stripLine {l : Text} (h : '\n' ∉ l) (stripTabs : Bool) :
    '\n' ∉ stripLine stripTabs l := by
  cases stripTabs with
  | false => exact h
  | true => exact fun hmem => h ((List.dropWhile_sublist _).subset hmem)

lemma not_mem_chompedLine {l : Text} (h : '\n' ∉ l) : '\n' ∉ chompedLine l := by
  intro hmem
  have hmem' := (List.dropWhile_sublist _).subset hmem
  rw [chomp] at hmem'
  split_ifs at hmem'
  · exact h ((List.dropLast_sublist _).subset hmem')
  · exact h hmem'

/-- The content before its last line break is removed. -/
def joined (ls : List Text) : Text := ['\n'].intercalate (ls.map chompedLine)

lemma heredocContent_joined {ls : List Text} (h : ∀ l ∈ ls, '\n' ∉ l) :
    heredocContent true (linesText ls) =
      if (joined ls).getLast? = some '\n' then (joined ls).dropLast else joined ls := by
  simp only [heredocContent, if_true, lines_linesText h, List.map_map]
  rfl

lemma length_linesText_le {f g : Text → Text} {ls : List Text}
    (h : ∀ l ∈ ls, (f l).length ≤ (g l).length) :
    (linesText (ls.map f)).length ≤ (linesText (ls.map g)).length := by
  induction ls with
  | nil => exact le_rfl
  | cons l ls ih =>
    obtain ⟨hl, hrest⟩ := List.forall_mem_cons.mp h
    have := ih hrest
    simp only [linesText, List.map_cons, List.flatMap_cons, List.length_append] at this ⊢
    omega

lemma documentContent_append_singleton (stripTabs : Bool) (front : List Text) (last : Text) :
    documentContent stripTabs (front ++ [last]) =
      linesText (front.map (stripLine stripTabs)) ++ stripLine stripTabs last := by
  rw [documentContent, List.map_append, List.map_singleton, intercalate_append_singleton]

lemma length_joined_le (ls : List Text) :
    (joined ls).length ≤ (documentContent true ls).length := by
  induction ls using List.reverseRecOn with
  | nil => exact le_rfl
  | append_singleton front last =>
    have hfront : (linesText (front.map chompedLine)).length ≤
        (linesText (front.map (stripLine true))).length :=
      length_linesText_le fun l _ => length_chompedLine_le l
    have hlast := length_chompedLine_le last
    rw [documentContent_append_singleton, joined, List.map_append, List.map_singleton,
      intercalate_append_singleton, List.length_append, List.length_append]
    omega

lemma splitOn_documentContent {ls : List Text} (h : ∀ l ∈ ls, '\n' ∉ l) (hne : ls ≠ [])
    (stripTabs : Bool) :
    (documentContent stripTabs ls).splitOn '\n' = ls.map (stripLine stripTabs) := by
  refine List.splitOn_intercalate _ (fun l' hl' => ?_) (by simpa using hne)
  obtain ⟨l, hl, rfl⟩ := List.mem_map.mp hl'
  exact not_mem_stripLine (h l hl) stripTabs

lemma splitOn_joined {ls : List Text} (h : ∀ l ∈ ls, '\n' ∉ l) (hne : ls ≠ []) :
    (joined ls).splitOn '\n' = ls.map chompedLine := by
  refine List.splitOn_intercalate _ (fun l' hl' => ?_) (by simpa using hne)
  obtain ⟨l, hl, rfl⟩ := List.mem_map.mp hl'
  exact not_mem_chompedLine (h l hl)

lemma joined_eq_iff {ls : List Text} (h : ∀ l ∈ ls, '\n' ∉ l) :
    joined ls = documentContent true ls ↔ ∀ l ∈ ls, l.getLast? ≠ some '\r' := by
  constructor
  · intro heq l hl
    have hne : ls ≠ [] := List.ne_nil_of_mem hl
    have hchomped := splitOn_joined h hne
    have hstripped := splitOn_documentContent h hne true
    rw [heq, hstripped] at hchomped
    exact (chompedLine_eq_iff l).mp (List.map_inj_left.mp hchomped.symm l hl)
  · intro hcr
    rw [joined, documentContent]
    congr 1
    exact List.map_congr_left fun l hl => chompedLine_of_ne (hcr l hl)

/-- The lines end in a line break where the last of several is blank. -/
lemma getLast_documentContent {stripTabs : Bool} {ls : List Text} (h : ∀ l ∈ ls, '\n' ∉ l) :
    (documentContent stripTabs ls).getLast? ≠ some '\n' ↔
      ∀ front last, ls = front ++ [last] → front ≠ [] → stripLine stripTabs last ≠ [] := by
  induction ls using List.reverseRecOn with
  | nil => simp [documentContent]
  | append_singleton front last =>
    have hlast : '\n' ∉ stripLine stripTabs last :=
      not_mem_stripLine (h last (by simp)) stripTabs
    have hne : stripLine stripTabs last ≠ [] →
        (linesText (front.map (stripLine stripTabs)) ++ stripLine stripTabs last).getLast? ≠
          some '\n' := by
      intro hblank heq
      rw [List.getLast?_append_of_ne_nil _ hblank] at heq
      exact hlast (List.mem_of_getLast? heq)
    rw [documentContent_append_singleton]
    constructor
    · rintro hend front' last' heq hfront hblank
      obtain ⟨rfl, hsame⟩ := List.append_inj' heq rfl
      obtain rfl := List.singleton_inj.mp hsame
      rw [hblank, List.append_nil] at hend
      obtain ⟨first, second, rfl⟩ : ∃ first second, front = first ++ [second] :=
        ⟨_, _, (List.dropLast_append_getLast hfront).symm⟩
      rw [List.map_append, List.map_singleton, linesText_append_singleton] at hend
      exact hend List.getLast?_concat
    · intro hblank
      by_cases hfront : front = []
      · subst hfront
        intro heq
        exact hlast (List.mem_of_getLast? heq)
      · exact hne (hblank front last rfl hfront)

/-- Where tabs are stripped, a carriage return at the end of a line is lost, and so is a last line
that is blank. -/
lemma heredocContent_true {ls : List Text} (h : ∀ l ∈ ls, '\n' ∉ l) :
    heredocContent true (linesText ls) = documentContent true ls ↔
      (∀ l ∈ ls, l.getLast? ≠ some '\r') ∧
        ∀ front last, ls = front ++ [last] → front ≠ [] → stripLine true last ≠ [] := by
  rw [heredocContent_joined h, ← joined_eq_iff h, ← getLast_documentContent h]
  have hle := length_joined_le ls
  split_ifs with hend
  · constructor
    · intro heq
      have hne : joined ls ≠ [] := by
        intro hnil
        rw [hnil] at hend
        cases hend
      have hpos := List.length_pos_of_ne_nil hne
      have hlen := congrArg List.length heq
      rw [List.length_dropLast] at hlen
      omega
    · rintro ⟨heq, hlast⟩
      rw [heq] at hend
      exact absurd hend hlast
  · constructor
    · intro heq
      rw [heq] at hend
      exact ⟨heq, hend⟩
    · exact fun heq => heq.1

/-- The content is at most as long as that of the lines. -/
lemma length_heredocContent_le {stripTabs : Bool} {ls : List Text} (h : ∀ l ∈ ls, '\n' ∉ l) :
    (heredocContent stripTabs (linesText ls)).length ≤ (documentContent stripTabs ls).length := by
  cases stripTabs with
  | false => rw [heredocContent_false]
  | true =>
    have hle := length_joined_le ls
    rw [heredocContent_joined h]
    split_ifs
    · rw [List.length_dropLast]
      omega
    · exact hle

/-- Fewer lines have a shorter content. -/
lemma length_documentContent_lt {stripTabs : Bool} {front back : List Text} {line : Text}
    (hline : stripLine stripTabs line ≠ []) :
    (documentContent stripTabs front).length <
      (documentContent stripTabs (front ++ line :: back)).length := by
  have hpos := List.length_pos_of_ne_nil hline
  have hfront : (documentContent stripTabs front).length ≤
      (linesText (front.map (stripLine stripTabs))).length := by
    induction front using List.reverseRecOn with
    | nil => exact Nat.zero_le _
    | append_singleton front last =>
      rw [documentContent_append_singleton, List.map_append, List.map_singleton,
        linesText_append_singleton, List.length_append, List.length_append, List.length_append]
      omega
  have hall : documentContent stripTabs (front ++ line :: back) =
      linesText (front.map (stripLine stripTabs)) ++ (stripLine stripTabs line ++
        (back.map (stripLine stripTabs)).flatMap (['\n'] ++ ·)) := by
    rw [documentContent, List.map_append, List.map_cons, intercalate_append_cons, linesText]
  rw [hall, List.length_append, List.length_append]
  omega

/-- A document that goes on has another content, even where a blank line is lost at its end. -/
lemma heredocContent_ne {stripTabs : Bool} {front back : List Text} {line : Text}
    (h : ∀ l ∈ front ++ line :: back, '\n' ∉ l) (hline : stripLine stripTabs line ≠ [])
    (hcr : line.getLast? ≠ some '\r') :
    heredocContent stripTabs (linesText (front ++ line :: back)) ≠
      documentContent stripTabs front := by
  intro heq
  cases stripTabs with
  | false =>
    have hlt : (documentContent false front).length <
        (documentContent false (front ++ line :: back)).length := length_documentContent_lt hline
    rw [heredocContent_false] at heq
    rw [heq] at hlt
    exact lt_irrefl _ hlt
  | true =>
    have hlen : ((documentContent true front).splitOn '\n').length ≤ front.length ∨
        front = [] ∧ (documentContent true front).splitOn '\n' = [[]] := by
      by_cases hfront : front = []
      · subst hfront
        exact .inr ⟨rfl, rfl⟩
      · rw [splitOn_documentContent (fun l hl => h l (List.mem_append_left _ hl)) hfront true,
          List.length_map]
        exact .inl le_rfl
    have hsplit := splitOn_joined h (by simp)
    rw [List.map_append, List.map_cons, chompedLine_of_ne hcr] at hsplit
    rw [heredocContent_joined h] at heq
    split_ifs at heq with hend
    · -- the last line of the longer document is blank, so it is not the one that was added
      have hall : joined (front ++ line :: back) = documentContent true front ++ '\n' :: [] := by
        rw [← heq, List.dropLast_append_getLast? _ hend]
      rw [hall, List.splitOn_append_cons_self, List.splitOn_nil] at hsplit
      obtain hle | ⟨rfl, hblank⟩ := hlen
      · have hback : back = [] := by
          have hcount := congrArg List.length hsplit
          simp only [List.length_append, List.length_map, List.length_cons, List.length_nil]
            at hcount
          exact List.length_eq_zero_iff.mp (by omega)
        subst hback
        exact hline (List.singleton_inj.mp (List.append_inj_right' hsplit rfl)).symm
      · rw [hblank] at hsplit
        exact hline (List.cons.inj hsplit).1.symm
    · rw [heq] at hsplit
      obtain hle | ⟨rfl, hblank⟩ := hlen
      · have hcount := congrArg List.length hsplit
        simp only [List.length_append, List.length_map, List.length_cons] at hcount
        omega
      · rw [hblank] at hsplit
        exact hline (List.cons.inj hsplit).1.symm

/-! ### The operator and its delimiter -/

lemma sliceFrom_zero : sliceFrom input 0 = some input := by cases input <;> rfl

lemma takeWhile_append_of_head? {p : Char → Bool} {front : Text} (hfront : ∀ c ∈ front, p c = true)
    (hrest : ∀ c ∈ rest.head?, p c = false) : (front ++ rest).takeWhile p = front := by
  rw [List.takeWhile_append_of_pos hfront]
  cases rest with
  | nil => simp
  | cons c rest => simp [hrest c rfl]

lemma skipBlanks_append {blanks : Text} (hblanks : ∀ c ∈ blanks, c = ' ' ∨ c = '\t')
    (hrest : ∀ c ∈ rest.head?, c ≠ ' ' ∧ c ≠ '\t') :
    skipBlanks (blanks ++ rest) 0 = some (byteLen blanks) := by
  have htake : (blanks ++ rest).takeWhile (fun c => decide (c = ' ' ∨ c = '\t')) = blanks := by
    refine takeWhile_append_of_head? (fun c hc => decide_eq_true (hblanks c hc)) fun c hc => ?_
    exact decide_eq_false (not_or.mpr (hrest c hc))
  rw [skipBlanks, whileChars_skip (p := fun c => decide (c = ' ' ∨ c = '\t')) _ sliceFrom_zero]
  · rw [htake, Nat.zero_add]
    rfl
  · rw [htake]
    intro c hc
    obtain rfl | rfl := hblanks c hc <;> rfl
  · intro pos c rest
    simp only [decide_eq_true_eq]

/-- A loop that takes the characters of a text. -/
lemma whileChars_collect {α : Type} {body : ℕ → Char → Text → α → Option (Flow α)}
    (step : α → Char → α) {text : Text}
    (hbody : ∀ c ∈ text, ∀ pos rest a,
      body pos c rest a = some (.next (pos + c.utf8Size) (step a c)))
    (h : sliceFrom input pos = some (text ++ rest)) (a : α) :
    whileChars input always body pos a =
      whileChars input always body (pos + byteLen text) (text.foldl step a) := by
  induction text generalizing pos a with
  | nil => rfl
  | cons c text ih =>
    obtain ⟨hc, htext⟩ := List.forall_mem_cons.mp hbody
    rw [whileChars_next h rfl (hc pos _ a) (Nat.lt_add_of_pos_right c.utf8Size_pos),
      ih htext (sliceFrom_cons h), byteLen_cons, Nat.add_assoc, List.foldl_cons]

lemma foldl_push (text acc : Text) : text.foldl (fun acc c => acc ++ [c]) acc = acc ++ text := by
  induction text generalizing acc with
  | nil => simp
  | cons c text ih => rw [List.foldl_cons, ih, List.append_assoc, List.singleton_append]

/-- A delimiter without quotes reaches up to white space. -/
lemma readPlainDelimiter_append {delimiter : Text}
    (hplain : ∀ c ∈ delimiter, isWhitespace c = false)
    (hrest : ∀ c ∈ rest.head?, isWhitespace c = true) :
    readPlainDelimiter (delimiter ++ rest) 0 = some (byteLen delimiter, delimiter) := by
  have hcollect : delimiter.foldl (fun text c => text ++ [c]) [] = delimiter :=
    foldl_push delimiter []
  have hslice : sliceFrom (delimiter ++ rest) (0 + byteLen delimiter) = some rest := by
    rw [Nat.zero_add, sliceFrom_append]
  rw [readPlainDelimiter, whileChars_collect (fun text c => text ++ [c]) _ sliceFrom_zero,
    hcollect]
  · cases rest with
    | nil => rw [whileChars_nil hslice, Nat.zero_add]
    | cons c rest =>
      rw [whileChars_stop hslice rfl (if_pos (.inl (hrest c rfl))), Nat.zero_add]
  · intro c hc pos rest text
    have hbreak : c ≠ '\n' := by
      rintro rfl
      exact absurd (hplain _ hc) (by decide)
    rw [if_neg]
    simp [hplain c hc, hbreak]

lemma readQuotedDelimiter_append {quote : Char} {delimiter : Text} (hquote : quote ∉ delimiter) :
    readQuotedDelimiter (delimiter ++ quote :: rest) quote 0 =
      some (byteLen delimiter + 1, delimiter, true) := by
  have hcollect : delimiter.foldl (fun (a : Text × Bool) c => (a.1 ++ [c], false)) ([], false) =
      (delimiter, false) := by
    suffices h : ∀ text, delimiter.foldl (fun (a : Text × Bool) c => (a.1 ++ [c], false))
        (text, false) = (text ++ delimiter, false) from h []
    clear hquote
    induction delimiter with
    | nil => simp
    | cons c delimiter ih =>
      intro text
      rw [List.foldl_cons, ih, List.append_assoc, List.singleton_append]
  have hslice : sliceFrom (delimiter ++ quote :: rest) (0 + byteLen delimiter) =
      some (quote :: rest) := by
    rw [Nat.zero_add, sliceFrom_append]
  rw [readQuotedDelimiter,
    whileChars_collect (fun (a : Text × Bool) c => (a.1 ++ [c], false)) _ sliceFrom_zero,
    hcollect]
  · rw [whileChars_stop hslice rfl (if_pos rfl), Nat.zero_add]
  · intro c hc pos rest a
    exact if_neg (ne_of_mem_of_not_mem hc hquote)

variable {text : Text}

lemma find_lineBreak (hrest : '\n' ∉ rest) :
    find '\n' (rest ++ '\n' :: text) = some (byteLen rest) := by
  rw [find, if_pos (by simp), takeWhile_append_of_head?]
  · intro c hc
    exact decide_eq_true (ne_of_mem_of_not_mem hc hrest)
  · simp

lemma sliceFrom_lineBreak : sliceFrom (rest ++ '\n' :: text) (byteLen rest + 1) = some text := by
  have happend := sliceFrom_append (a := rest ++ ['\n']) (b := text)
  rw [byteLen_append, List.append_assoc] at happend
  exact happend

/-- Lines with a line break between them. -/
lemma eq_of_splitOn {front back : List Text} {line : Text}
    (h : text.splitOn '\n' = front ++ line :: back) :
    text = linesText front ++ (line ++ back.flatMap (['\n'] ++ ·)) := by
  rw [linesText, ← intercalate_append_cons, ← h, List.intercalate_splitOn]

/-- The document ends at the first line that is taken for the delimiter. -/
lemma lexHeredocBody_append {delimiter line : Text} {stripTabs : Bool} {front back : List Text}
    (hrest : '\n' ∉ rest) (hlines : text.splitOn '\n' = front ++ line :: back)
    (hfront : ∀ l ∈ front, ¬ TakenFor delimiter stripTabs l)
    (hline : TakenFor delimiter stripTabs line) :
    lexHeredocBody (rest ++ '\n' :: text) delimiter stripTabs 0 =
      some (.ok (.hereDoc (heredocContent stripTabs (linesText front)) stripTabs),
        byteLen (rest ++ '\n' :: (linesText front ++ (line ++
          (back.flatMap (['\n'] ++ ·)).take 1)))) := by
  have hbreak : '\n'.utf8Size = 1 := rfl
  have hdelimiter : findDelimiter delimiter stripTabs 0 (front ++ line :: back) = _ :=
    findDelimiter_append hfront hline 0
  have htext := eq_of_splitOn hlines
  have hend : skipLineBreak (rest ++ '\n' :: text)
      (byteLen rest + 1 + byteLen (linesText front) + byteLen line) =
      some (byteLen (rest ++ '\n' :: (linesText front ++ (line ++
        (back.flatMap (['\n'] ++ ·)).take 1)))) := by
    have hpos : byteLen rest + 1 + byteLen (linesText front) + byteLen line =
        byteLen (rest ++ '\n' :: (linesText front ++ line)) := by
      simp only [byteLen_append, byteLen_cons, hbreak]
      omega
    have hsame : rest ++ '\n' :: text =
        (rest ++ '\n' :: (linesText front ++ line)) ++ back.flatMap (['\n'] ++ ·) := by
      rw [htext]
      simp
    rw [skipLineBreak, hpos, hsame, sliceFrom_append]
    cases back with
    | nil => simp
    | cons next back =>
      rw [if_pos]
      · simp only [List.flatMap_cons, List.cons_append, List.head?_cons,
          if_true, Option.map_some, List.take_succ_cons, List.take_zero, byteLen_append,
          byteLen_cons, byteLen_nil, hbreak, Option.some.injEq]
        omega
      · rw [byteLen_append (b := List.flatMap _ _), List.flatMap_cons, List.append_assoc,
          List.singleton_append, byteLen_cons, hbreak]
        omega
  have hslice : slice (rest ++ '\n' :: text) (byteLen rest + 1)
      (byteLen rest + 1 + byteLen (linesText front)) = some (linesText front) := by
    rw [htext]
    exact slice_append sliceFrom_lineBreak
  rw [lexHeredocBody, sliceFrom_zero]
  simp only [Option.bind_eq_bind, Option.bind_some, find_lineBreak hrest, Nat.zero_add,
    sliceFrom_lineBreak, hlines, hdelimiter, hend, hslice]

/-- Without such a line there is no document. -/
lemma lexHeredocBody_eq_error {delimiter : Text} {stripTabs : Bool} (hrest : '\n' ∉ rest)
    (h : ∀ l ∈ text.splitOn '\n', ¬ TakenFor delimiter stripTabs l) :
    ∃ e, lexHeredocBody (rest ++ '\n' :: text) delimiter stripTabs 0 = some (.error e, 0) := by
  rw [lexHeredocBody, sliceFrom_zero]
  simp only [Option.bind_eq_bind, Option.bind_some, find_lineBreak hrest, Nat.zero_add,
    sliceFrom_lineBreak, findDelimiter_eq_none h]
  exact ⟨_, rfl⟩

end AmlaSandbox.Shell
