import AmlaSandbox.Library.JsText
import AmlaSandbox.Stubs.Generate

/-!
# Injection through generated code

Which texts of a tool stay within the comments and string literals that they are put into. In strict
mode each character of a text is escaped on its own, but a digit behind `\0` belongs to the escape.
-/

namespace AmlaSandbox.Stubs

open Constraints Json Library JsText Text

/-! ### What is to hold of a file -/

/-- The comment or literal ends where the generator ended it, before `rest`. -/
def Fragment.Ends (rest : Text) : Fragment → Prop
  | .code _ => True
  | .comment body => commentRest (body ++ "*/".toList ++ rest) = some rest
  | .literal body => ∃ value, literalRest (body ++ ['"'] ++ rest) = some (value, rest)
  | .toolCall id body => literalRest (body ++ ['"'] ++ rest) = some (units id, rest)

/-- Every comment and literal of a file that goes on with `rest` ends where it should. -/
def Ends (rest : Text) : List Fragment → Prop
  | [] => True
  | fragment :: fragments =>
    fragment.Ends (render fragments ++ rest) ∧ Ends rest fragments

/-- An order of the keys of the map of namespaces. -/
structure Visits (namespaces : List Text) (stubs : List ToolStub) : Prop where
  nodup : namespaces.Nodup
  mem_iff : ∀ ns, ns ∈ namespaces ↔ ∃ stub ∈ stubs, stub.splitName.1 = ns

structure InjectionFree (debug : Value → String) (head : Text) (tools : List ToolMetadata)
    (stubs : List ToolStub) : Prop where
  prelude : Ends [] (generatePrelude head (tools.map toolEntry))
  jsStub : ∀ tool ∈ tools, Ends [] (generateJsStub debug tool)
  dts : ∀ tool ∈ tools, Ends [] (generateDts debug tool)
  toolStubs : ∀ namespaces, Visits namespaces stubs → Ends [] (generateToolStubs namespaces stubs)
  singleToolStub : ∀ stub ∈ stubs, Ends [] (generateSingleToolStub stub)

/-! ### What is to hold of the texts -/

structure ParamMetadata.Harmless (param : ParamMetadata) : Prop where
  name : ¬ HasTerminator param.name
  paramType : ¬ HasTerminator param.paramType
  description : ¬ HasTerminator param.description

structure ToolMetadata.Harmless (debug : Value → String) (tool : ToolMetadata) : Prop where
  toolId : ∀ c ∈ tool.toolId, Ordinary c
  provider : ¬ HasTerminator tool.provider ∧ tool.provider.getLast? ≠ some '*'
  name : ¬ HasTerminator tool.name
  description : ¬ HasTerminator tool.description
  lines : ∀ c ∈ tool.description, isLineBreak c = false
  params : ∀ param ∈ tool.params, param.Harmless
  constraints : ∀ c ∈ tool.constraints, ¬ HasTerminator (constraintToString debug c)

/-- Somewhere a NUL stands before an octal digit. -/
def NulBeforeOctal : Text → Prop
  | c :: d :: s => (c = '\x00' ∧ isOctal d) ∨ NulBeforeOctal (d :: s)
  | _ => False

structure ToolStub.Harmless (stub : ToolStub) : Prop where
  name : ¬ NulBeforeOctal stub.name
  description : ¬ HasTerminator stub.description
  params : ∀ param ∈ stub.params, ¬ HasTerminator param.name ∧ ¬ HasTerminator param.description

/-! ### Files in parts -/

section

variable {rest : Text}

@[simp] lemma render_append (a b : List Fragment) : render (a ++ b) = render a ++ render b :=
  List.flatMap_append

@[simp] lemma ends_nil : Ends rest [] ↔ True := Iff.rfl

@[simp] lemma ends_cons (fragment : Fragment) (fragments : List Fragment) :
    Ends rest (fragment :: fragments) ↔
      fragment.Ends (render fragments ++ rest) ∧ Ends rest fragments :=
  Iff.rfl

@[simp] lemma ends_append (a b : List Fragment) :
    Ends rest (a ++ b) ↔ Ends (render b ++ rest) a ∧ Ends rest b := by
  induction a with
  | nil => simp
  | cons fragment a ih => simp [ih, and_assoc]

lemma Ends.exists_of_flatMap {α : Type} {xs : List α} {f : α → List Fragment}
    (h : Ends rest (xs.flatMap f)) : ∀ x ∈ xs, ∃ rest, Ends rest (f x) := by
  induction xs with
  | nil => simp
  | cons x xs ih =>
    rw [List.flatMap_cons, ends_append] at h
    exact List.forall_mem_cons.mpr ⟨⟨_, h.1⟩, ih h.2⟩

lemma ends_flatMap {α : Type} {xs : List α} {f : α → List Fragment}
    (h : ∀ x ∈ xs, ∀ rest, Ends rest (f x)) (rest : Text) : Ends rest (xs.flatMap f) := by
  induction xs with
  | nil => trivial
  | cons x xs ih =>
    rw [List.flatMap_cons, ends_append]
    exact ⟨h x (List.mem_cons_self ..) _, ih fun y hy => h y (List.mem_cons_of_mem _ hy)⟩

lemma ends_intercalate {sep : List Fragment} {parts : List (List Fragment)}
    (hsep : ∀ rest, Ends rest sep) (h : ∀ part ∈ parts, ∀ rest, Ends rest part) (rest : Text) :
    Ends rest (List.intercalate sep parts) := by
  induction parts with
  | nil => trivial
  | cons part parts ih =>
    have hpart := h part (List.mem_cons_self ..)
    cases parts with
    | nil => simpa using hpart rest
    | cons next parts =>
      rw [List.intercalate_cons_cons, ends_append, ends_append]
      exact ⟨⟨hpart _, hsep _⟩, ih fun x hx => h x (List.mem_cons_of_mem _ hx)⟩

@[simp] lemma ends_code (text : Text) : (Fragment.code text).Ends rest ↔ True := Iff.rfl

@[simp] lemma ends_comment (body : Text) :
    (Fragment.comment body).Ends rest ↔ ¬ HasTerminator body := by
  rw [Fragment.Ends, List.append_assoc]
  exact commentRest_eq_some_iff

lemma ends_toolCall (id : Text) : (Fragment.toolCall id id).Ends rest ↔ ∀ c ∈ id, Ordinary c := by
  rw [Fragment.Ends, List.append_assoc]
  exact literalRest_eq_units_iff

lemma ends_literal {id : Text} (h : ∀ c ∈ id, Ordinary c) : (Fragment.literal id).Ends rest := by
  rw [Fragment.Ends, List.append_assoc]
  exact ⟨units id, literalRest_eq_units_iff.mpr h⟩

/-! ### Descriptions in the prelude -/

lemma escapeQuotes_cons (c : Char) (s : Text) :
    escapeQuotes (c :: s) =
      (if c = '\\' ∨ c = '"' then ['\\', c] else [c]) ++ escapeQuotes s := by
  by_cases hslash : c = '\\'
  · subst hslash
    rfl
  · by_cases hquote : c = '"'
    · subst hquote
      rfl
    · simp [escapeQuotes, replaceChar, hslash, hquote]

lemma exists_map_eq_some {o : Option (List ℕ × Text)} (u : List ℕ) :
    (∃ value, (o.map fun r => (u ++ r.1, r.2)) = some (value, rest)) ↔
      ∃ value, o = some (value, rest) := by
  constructor
  · rintro ⟨value, h⟩
    obtain ⟨⟨v, t⟩, ho, heq⟩ := Option.map_eq_some_iff.mp h
    cases heq
    exact ⟨v, ho⟩
  · rintro ⟨value, rfl⟩
    exact ⟨u ++ value, rfl⟩

/-- An escaped description ends where it should unless it has a line break. -/
lemma ends_escapeQuotes (s : Text) :
    (Fragment.literal (escapeQuotes s)).Ends rest ↔ ∀ c ∈ s, isLineBreak c = false := by
  rw [Fragment.Ends, List.append_assoc]
  induction s with
  | nil => simpa using ⟨[], literalRest_quote⟩
  | cons c s ih =>
    rw [escapeQuotes_cons, List.append_assoc, List.forall_mem_cons, ← ih]
    split_ifs with hescaped
    · have hbreak : isLineBreak c = false := by
        obtain rfl | rfl := hescaped <;> rfl
      have hsequence (t : Text) : escapeSequence (c :: t) = some (utf16 c, 1) := by
        obtain rfl | rfl := hescaped <;> rfl
      rw [List.cons_append, List.cons_append, List.nil_append,
        literalRest_backslash (hsequence _), exists_map_eq_some]
      simp [hbreak]
    · rw [not_or] at hescaped
      rw [List.cons_append, List.nil_append]
      cases hbreak : isLineBreak c with
      | true => simp [literalRest_lineBreak hbreak]
      | false =>
        rw [literalRest_cons ⟨hescaped.2, hbreak, hescaped.1⟩, exists_map_eq_some]
        simp

lemma head?_replaceTerminator (s : Text) : (replaceTerminator s).head? = s.head? := by
  match s with
  | [] => rfl
  | [c] => rfl
  | c :: d :: s =>
    rw [replaceTerminator]
    split_ifs with h
    · simp [h.1]
    · rfl

lemma not_hasTerminator_replaceTerminator (s : Text) :
    ¬ HasTerminator (replaceTerminator s) := by
  induction s using replaceTerminator.induct with
  | case1 => exact not_hasTerminator_nil
  | case2 c => simp [replaceTerminator, hasTerminator_cons, not_hasTerminator_nil]
  | case3 c d s h ih =>
    rw [replaceTerminator, if_pos h]
    simpa [hasTerminator_cons] using ih
  | case4 c d s h ih =>
    rw [replaceTerminator, if_neg h, hasTerminator_cons, head?_replaceTerminator]
    simpa [ih] using h

/-! ### Escaped names -/

lemma hexValue_hexDigit : ∀ n < 16, hexValue (hexDigit n) = some n := by
  decide

lemma hexDigit_ne_brace : ∀ n < 16, hexDigit n ≠ '{' := by
  decide

lemma hexNumber_hex4 {n : ℕ} (h : n < 0x10000) : hexNumber (hex4 n) = some n := by
  have digit (m : ℕ) : hexValue (hexDigit (m % 16)) = some (m % 16) :=
    hexValue_hexDigit _ (Nat.mod_lt _ (by norm_num))
  simp only [hexNumber, hex4, List.foldlM_cons, List.foldlM_nil, digit, Option.map_some,
    Option.bind_eq_bind, Option.bind_some, Option.pure_def, Option.some.injEq]
  omega

lemma escapeSequence_hex4 {n : ℕ} (h : n < 0x10000) (t : Text) :
    escapeSequence ('u' :: (hex4 n ++ t)) = some ([n], 5) := by
  have hbrace : (hex4 n ++ t).head? ≠ some '{' := by
    simpa [hex4] using hexDigit_ne_brace _ (Nat.mod_lt (n / 4096) (by norm_num))
  have hlength : 4 ≤ (hex4 n ++ t).length := by
    simp [hex4]
  have htake : (hex4 n ++ t).take 4 = hex4 n := rfl
  rw [escapeSequence, if_neg (by decide), if_neg (by decide), if_neg (by decide), if_pos rfl,
    unicodeEscape, if_neg hbrace, if_pos hlength, htake, hexNumber_hex4 h]
  rfl

lemma utf16_of_isControl {c : Char} (h : isControl c) : utf16 c = [c.toNat] := by
  have hlt : c.toNat < 0x10000 := by
    simp only [isControl, Bool.or_eq_true, decide_eq_true_eq, Bool.and_eq_true] at h
    omega
  rw [utf16, codePoint, if_pos hlt]

/-- One character is escaped by itself or stands as it is. -/
lemma escapeJsChar_cases (c : Char) :
    (escapeJsChar c = [c] ∧ (c ≠ '\x00' → Ordinary c)) ∨ ∃ e, escapeJsChar c = '\\' :: e ∧
      (c ≠ '\x00' → ∀ t, escapeSequence (e ++ t) = some (utf16 c, e.length)) := by
  unfold escapeJsChar
  split
  · exact .inr ⟨['\\'], rfl, fun _ _ => rfl⟩
  · exact .inr ⟨['"'], rfl, fun _ _ => rfl⟩
  · exact .inr ⟨['n'], rfl, fun _ _ => rfl⟩
  · exact .inr ⟨['r'], rfl, fun _ _ => rfl⟩
  · exact .inr ⟨['t'], rfl, fun _ _ => rfl⟩
  · exact .inr ⟨['0'], rfl, fun h => absurd rfl h⟩
  · rename_i hslash hquote hlf hcr htab hnul
    split_ifs with hcontrol
    · have hunit := utf16_of_isControl hcontrol
      have hlt : c.toNat < 0x10000 := by
        simp only [isControl, Bool.or_eq_true, decide_eq_true_eq, Bool.and_eq_true] at hcontrol
        omega
      refine .inr ⟨'u' :: hex4 c.toNat, by rw [hunit]; rfl, fun _ t => ?_⟩
      rw [List.cons_append, escapeSequence_hex4 hlt, hunit]
      rfl
    · have hbreak : isLineBreak c = false := by
        rw [isLineBreak, decide_eq_false hlf, decide_eq_false hcr]
        rfl
      exact .inl ⟨rfl, fun _ => ⟨hquote, hbreak, hslash⟩⟩

lemma escapeJsString_cons (c : Char) (s : Text) :
    escapeJsString (c :: s) = escapeJsChar c ++ escapeJsString s := rfl

lemma literalRest_escapeJsChar {c : Char} (h : c ≠ '\x00') (t : Text) :
    literalRest (escapeJsChar c ++ t) =
      (literalRest t).map fun r => (utf16 c ++ r.1, r.2) := by
  obtain ⟨heq, hordinary⟩ | ⟨e, heq, hsequence⟩ := escapeJsChar_cases c
  · rw [heq]
    exact literalRest_cons (hordinary h)
  · rw [heq, List.cons_append, literalRest_backslash (hsequence h t), List.drop_left]

/-- An octal digit in an escaped name is a character of the name. -/
lemma octal_of_escapeJsString {s t u : Text} {d : Char} (hd : isOctal d)
    (h : escapeJsString s ++ '"' :: t = d :: u) :
    ∃ s', s = d :: s' ∧ u = escapeJsString s' ++ '"' :: t := by
  cases s with
  | nil =>
    obtain ⟨rfl, -⟩ := List.cons.inj h
    simp [isOctal] at hd
  | cons c s =>
    rw [escapeJsString_cons] at h
    obtain ⟨heq, -⟩ | ⟨e, heq, -⟩ := escapeJsChar_cases c
    · rw [heq] at h
      obtain ⟨rfl, rfl⟩ := List.cons.inj h
      exact ⟨s, rfl, rfl⟩
    · rw [heq] at h
      obtain ⟨rfl, -⟩ := List.cons.inj h
      simp [isOctal] at hd

lemma isDigit_of_isOctal {d : Char} (h : isOctal d) : d.isDigit = true := by
  simp only [isOctal, Bool.and_eq_true, decide_eq_true_eq, Char.le_def,
    UInt32.le_iff_toNat_le] at h
  simp only [Char.isDigit, Bool.and_eq_true, decide_eq_true_eq, UInt32.le_iff_toNat_le]
  exact ⟨h.1, h.2.trans (by decide)⟩

lemma escapeJsChar_of_isDigit {d : Char} (h : d.isDigit) : escapeJsChar d = [d] := by
  have hlow : 48 ≤ d.toNat ∧ d.toNat ≤ 57 := by
    simpa [Char.isDigit, UInt32.le_iff_toNat_le] using h
  have hcontrol : isControl d = false := by
    simp only [isControl, Bool.or_eq_false_iff, decide_eq_false_iff_not, Bool.and_eq_false_iff]
    omega
  unfold escapeJsChar
  split
  all_goals first | exact absurd h (by decide) | rw [if_neg (by simp [hcontrol])]

/-- What `\0` stands for before a text. -/
lemma octalEscape_cases (t : Text) :
    (octalEscape '0' t = ([0], 1) ∧ ∀ d ∈ t.head?, isOctal d = false) ∨
      (∃ d u x, t = d :: u ∧ isOctal d ∧ octalEscape '0' t = ([x], 2)) ∨
        ∃ d e u x, t = d :: e :: u ∧ isOctal d ∧ isOctal e ∧ octalEscape '0' t = ([x], 3) := by
  match t with
  | [] => exact .inl ⟨rfl, by simp⟩
  | [d] =>
    cases hd : isOctal d with
    | true =>
      exact .inr (.inl ⟨d, [], octalValue d, rfl, hd, by simp [octalEscape, hd, octalValue]⟩)
    | false => exact .inl ⟨by simp [octalEscape, hd, octalValue], by simpa using hd⟩
  | d :: e :: u =>
    cases hd : isOctal d with
    | false => exact .inl ⟨by simp [octalEscape, hd, octalValue], by simpa using hd⟩
    | true =>
      cases he : isOctal e with
      | false =>
        exact .inr (.inl ⟨d, e :: u, octalValue d, rfl, hd,
          by simp [octalEscape, hd, he, octalValue]⟩)
      | true =>
        exact .inr (.inr ⟨d, e, u, 8 * octalValue d + octalValue e, rfl, hd, he,
          by simp [octalEscape, hd, he, octalValue]⟩)

lemma nulBeforeOctal_cons {c : Char} {s : Text} :
    NulBeforeOctal (c :: s) ↔ (c = '\x00' ∧ ∃ d ∈ s.head?, isOctal d) ∨ NulBeforeOctal s := by
  cases s <;> simp [NulBeforeOctal]

/-- An escaped name ends where it should, and denotes the name unless a NUL and an octal digit
make another character. -/
theorem literalRest_escapeJsString (s t : Text) :
    ∃ value, literalRest (escapeJsString s ++ '"' :: t) = some (value, t) ∧
      value.length ≤ (units s).length ∧ (value = units s ↔ ¬ NulBeforeOctal s) := by
  induction h : s.length using Nat.strong_induction_on generalizing s with
  | _ n ih =>
    cases s with
    | nil => exact ⟨[], literalRest_quote, by simp, by simp [NulBeforeOctal]⟩
    | cons c s =>
      rw [escapeJsString_cons, List.append_assoc]
      by_cases hc : c = '\x00'
      · subst hc
        have hsequence (w : Text) : escapeSequence ('0' :: w) = some (octalEscape '0' w) := rfl
        rw [show escapeJsChar '\x00' = ['\\', '0'] from rfl, List.cons_append, List.cons_append,
          List.nil_append]
        have hnul : utf16 '\x00' = [0] := rfl
        obtain ⟨hescape, hd⟩ | ⟨d, u, x, hw, hd, hescape⟩ | ⟨d, e, u, x, hw, hd, he, hescape⟩ :=
          octalEscape_cases (escapeJsString s ++ '"' :: t)
        · obtain ⟨value, hvalue, hle, hiff⟩ := ih s.length (by simp [← h]) s rfl
          have hhead : ¬ ∃ d ∈ s.head?, isOctal d := by
            rintro ⟨d, hmem, hoctal⟩
            obtain ⟨s', rfl⟩ := List.head?_eq_some_iff.mp hmem
            have hsame := escapeJsChar_of_isDigit (isDigit_of_isOctal hoctal)
            have hnot := hd d (by rw [escapeJsString_cons, hsame]; rfl)
            simp [hnot] at hoctal
          refine ⟨[0] ++ value, ?_, ?_, ?_⟩
          · rw [literalRest_backslash ((hsequence _).trans (congrArg some hescape))]
            simp [hvalue]
          · simpa [hnul] using hle
          · rw [units_cons, hnul, List.append_cancel_left_eq, hiff, nulBeforeOctal_cons,
              not_or]
            exact ⟨fun hn => ⟨fun hc => hhead hc.2, hn⟩, fun hn => hn.2⟩
        · obtain ⟨s', rfl, rfl⟩ := octal_of_escapeJsString hd hw
          obtain ⟨value, hvalue, hle, -⟩ :=
            ih s'.length (by simp only [← h, List.length_cons]; omega) s' rfl
          have hlength := length_utf16_pos d
          refine ⟨[x] ++ value, ?_, ?_, ?_⟩
          · rw [literalRest_backslash ((hsequence _).trans (congrArg some hescape)), hw]
            simp [hvalue]
          · simp [hnul]
            omega
          · constructor
            · intro heq
              have := congrArg List.length heq
              simp [hnul] at this
              omega
            · intro hnot
              simp [nulBeforeOctal_cons, hd] at hnot
        · obtain ⟨s', rfl, hu⟩ := octal_of_escapeJsString hd hw
          obtain ⟨s'', rfl, rfl⟩ := octal_of_escapeJsString he hu.symm
          obtain ⟨value, hvalue, hle, -⟩ :=
            ih s''.length (by simp only [← h, List.length_cons]; omega) s'' rfl
          have hlength := length_utf16_pos d
          have hlength' := length_utf16_pos e
          refine ⟨[x] ++ value, ?_, ?_, ?_⟩
          · rw [literalRest_backslash ((hsequence _).trans (congrArg some hescape)), hw]
            simp [hvalue]
          · simp [hnul]
            omega
          · constructor
            · intro heq
              have := congrArg List.length heq
              simp [hnul] at this
              omega
            · intro hnot
              simp [nulBeforeOctal_cons, hd] at hnot
      · obtain ⟨value, hvalue, hle, hiff⟩ := ih s.length (by simp [← h]) s rfl
        refine ⟨utf16 c ++ value, ?_, ?_, ?_⟩
        · rw [literalRest_escapeJsChar hc, hvalue]
          rfl
        · simpa using hle
        · rw [units_cons, List.append_cancel_left_eq, hiff, nulBeforeOctal_cons]
          simp [hc]

/-! ### The comments of a tool -/

lemma hasTerminator_intercalate {sep : String} (h : Inert sep.toList) (lines : List Text) :
    HasTerminator (List.intercalate sep.toList lines) ↔ ∃ line ∈ lines, HasTerminator line := by
  induction lines with
  | nil => simp [not_hasTerminator_nil]
  | cons line lines ih =>
    cases lines with
    | nil => simp
    | cons next lines =>
      rw [List.intercalate_cons_cons, List.append_assoc, hasTerminator_append_lit_append h, ih]
      simp

lemma hasTerminator_docLines {none : String} (h : ¬ HasTerminator none.toList) (lines : List Text) :
    HasTerminator (docLines none lines) ↔ ∃ line ∈ lines, HasTerminator line := by
  unfold docLines
  split_ifs with hnil
  · simp [h, hnil]
  · exact hasTerminator_intercalate (by decide) lines

lemma hasTerminator_slash {s t : Text} :
    HasTerminator (s ++ ("/".toList ++ t)) ↔
      HasTerminator s ∨ HasTerminator t ∨ s.getLast? = some '*' := by
  have hslash : HasTerminator ("/".toList ++ t) ↔ HasTerminator t := by
    simp [hasTerminator_cons]
  rw [hasTerminator_append, hslash]
  simp

lemma hasTerminator_paramToJsdoc (p : ParamMetadata) :
    ¬ HasTerminator (paramToJsdoc p) ↔ p.Harmless := by
  have hlast : HasTerminator
      (p.description ++ if p.required then " (required)".toList else []) ↔
        HasTerminator p.description := by
    split_ifs
    · exact hasTerminator_append_lit (by decide)
    · rw [List.append_nil]
  have hall : HasTerminator (paramToJsdoc p) ↔
      HasTerminator p.name ∨ HasTerminator p.paramType ∨ HasTerminator p.description := by
    unfold paramToJsdoc
    simp (disch := decide) only [hasTerminator_lit_append, hasTerminator_append_lit_append, hlast,
      -String.reduceToList]
  rw [hall, not_or, not_or]
  exact ⟨fun h => ⟨h.1, h.2.1, h.2.2⟩, fun h => ⟨h.name, h.paramType, h.description⟩⟩

section

variable (debug : Value → String)

/-- What the comments of the files of a tool ask of it. -/
structure Documented (tool : ToolMetadata) : Prop where
  provider : ¬ HasTerminator tool.provider ∧ tool.provider.getLast? ≠ some '*'
  name : ¬ HasTerminator tool.name
  description : ¬ HasTerminator tool.description
  params : ∀ param ∈ tool.params, param.Harmless
  constraints : ∀ c ∈ tool.constraints, ¬ HasTerminator (constraintToString debug c)

lemma hasTerminator_paramsToJsdoc (params : List ParamMetadata) :
    ¬ HasTerminator (paramsToJsdoc params) ↔ ∀ param ∈ params, param.Harmless := by
  rw [paramsToJsdoc, hasTerminator_docLines (by decide)]
  simp [hasTerminator_paramToJsdoc]

lemma hasTerminator_constraintsToJsdoc (constraints : List Constraint) :
    ¬ HasTerminator (constraintsToJsdoc debug constraints) ↔
      ∀ c ∈ constraints, ¬ HasTerminator (constraintToString debug c) := by
  have hlead (c : Constraint) : HasTerminator (" *   - ".toList ++ constraintToString debug c) ↔
      HasTerminator (constraintToString debug c) :=
    hasTerminator_lit_append (by decide)
  rw [constraintsToJsdoc, hasTerminator_docLines (by decide)]
  simp only [List.mem_map, exists_exists_and_eq_and, hlead, not_exists, not_and]

lemma hasTerminator_constraintsToDoc (constraints : List Constraint) :
    ¬ HasTerminator (constraintsToDoc debug constraints) ↔
      ∀ c ∈ constraints, ¬ HasTerminator (constraintToString debug c) := by
  have hlead (c : Constraint) : HasTerminator (" * - ".toList ++ constraintToString debug c) ↔
      HasTerminator (constraintToString debug c) :=
    hasTerminator_lit_append (by decide)
  rw [constraintsToDoc, hasTerminator_docLines (by decide)]
  simp only [List.mem_map, exists_exists_and_eq_and, hlead, not_exists, not_and]

/-- What comes before the call in a stub. -/
lemma ends_take_generateJsStub (tool : ToolMetadata) :
    Ends rest ((generateJsStub debug tool).take 4) ↔ Documented debug tool := by
  have hconstraints := hasTerminator_constraintsToJsdoc debug tool.constraints
  have hparams := hasTerminator_paramsToJsdoc tool.params
  simp only [generateJsStub, List.take_succ_cons, List.take_zero, ends_cons, ends_nil, ends_code,
    ends_comment, String.toList_append, List.append_assoc, -String.reduceToList]
  simp (disch := decide +kernel) only [hasTerminator_lit_append, hasTerminator_append_lit,
    hasTerminator_append_lit_append, hasTerminator_slash, not_or, -String.reduceToList]
  constructor
  · rintro ⟨⟨hdescription, hprovider, ⟨hname, hp, hc⟩, hstar⟩, -⟩
    exact ⟨⟨hprovider, hstar⟩, hname, hdescription, hparams.mp hp, hconstraints.mp hc⟩
  · intro h
    exact ⟨⟨h.description, h.provider.1, ⟨h.name, hparams.mpr h.params,
      hconstraints.mpr h.constraints⟩, h.provider.2⟩, trivial, ⟨h.name, by decide, by decide⟩,
      trivial, trivial⟩

lemma exists_generateJsStub (tool : ToolMetadata) :
    ∃ text, generateJsStub debug tool =
      (generateJsStub debug tool).take 4 ++ [.toolCall tool.toolId tool.toolId, .code text] :=
  ⟨_, rfl⟩

lemma ends_generateJsStub (tool : ToolMetadata) :
    Ends rest (generateJsStub debug tool) ↔
      Documented debug tool ∧ ∀ c ∈ tool.toolId, Ordinary c := by
  obtain ⟨text, htext⟩ := exists_generateJsStub debug tool
  rw [htext, ends_append, ends_take_generateJsStub]
  simp only [ends_cons, ends_toolCall, ends_code, ends_nil, and_true]

lemma ends_paramsToTypescript {params : List ParamMetadata}
    (h : ∀ param ∈ params, param.Harmless) : Ends rest (paramsToTypescript params) := by
  unfold paramsToTypescript
  split_ifs
  · exact ⟨trivial, trivial⟩
  · apply ends_intercalate
    · exact fun _ => ⟨trivial, trivial⟩
    simp only [List.mem_map, forall_exists_index, and_imp, forall_apply_eq_imp_iff₂]
    intro param hparam rest
    have hcomment : ¬ HasTerminator ("* ".toList ++ (param.description ++ " ".toList)) := by
      simpa (disch := decide) only [hasTerminator_lit_append, hasTerminator_append_lit,
        -String.reduceToList] using (h param hparam).description
    exact ⟨trivial, (ends_comment _).mpr hcomment, trivial, trivial⟩

lemma ends_generateDts {tool : ToolMetadata} (h : Documented debug tool) :
    Ends rest (generateDts debug tool) := by
  have hconstraints := (hasTerminator_constraintsToDoc debug tool.constraints).mpr h.constraints
  simp only [generateDts, ends_append, ends_cons, ends_nil, ends_code, ends_comment,
    -String.reduceToList]
  simp (disch := decide +kernel) only [hasTerminator_lit_append, hasTerminator_append_lit,
    hasTerminator_append_lit_append, not_or, -String.reduceToList]
  exact ⟨⟨⟨⟨h.description, hconstraints⟩, trivial, trivial⟩, ends_paramsToTypescript h.params⟩,
    trivial, h.name, trivial, trivial⟩

end

/-! ### The prelude -/

lemma ends_registryEntry {entry : ToolEntry} (hid : ∀ c ∈ entry.toolId, Ordinary c) :
    Ends rest (registryEntry entry) ↔ ∀ c ∈ entry.description, isLineBreak c = false := by
  simp only [registryEntry, ends_cons, ends_nil, ends_code, ends_escapeQuotes, ends_literal hid,
    true_and, and_true, -String.reduceToList]

lemma ends_toolFunction (entry : ToolEntry) :
    Ends rest (toolFunction entry) ↔ ∀ c ∈ entry.toolId, Ordinary c := by
  have hcomment : ¬ HasTerminator
      ("* ".toList ++ (replaceTerminator entry.description ++ " ".toList)) := by
    simpa (disch := decide) only [hasTerminator_lit_append, hasTerminator_append_lit,
      -String.reduceToList] using not_hasTerminator_replaceTerminator entry.description
  simp only [toolFunction, ends_cons, ends_nil, ends_code, ends_toolCall, ends_comment, hcomment,
    not_false_eq_true, true_and, and_true, -String.reduceToList]

lemma ends_generatePrelude (head : Text) (entries : List ToolEntry) :
    Ends rest (generatePrelude head entries) ↔
      ∀ entry ∈ entries, (∀ c ∈ entry.toolId, Ordinary c) ∧
        ∀ c ∈ entry.description, isLineBreak c = false := by
  simp only [generatePrelude, ends_append, ends_cons, ends_nil, ends_code, true_and, and_true,
    -String.reduceToList]
  constructor
  · rintro ⟨hregistry, hfunctions⟩ entry hentry
    obtain ⟨_, hfunction⟩ := hfunctions.exists_of_flatMap entry hentry
    obtain ⟨_, hentry⟩ := hregistry.exists_of_flatMap entry hentry
    have hid := (ends_toolFunction entry).mp hfunction
    exact ⟨hid, (ends_registryEntry hid).mp hentry⟩
  · intro h
    exact ⟨ends_flatMap
        (fun entry he _ => (ends_registryEntry (h entry he).1).mpr (h entry he).2) _,
      ends_flatMap (fun entry he _ => (ends_toolFunction entry).mpr (h entry he).1) _⟩

/-! ### Hydration stubs -/

lemma ends_escapeJsString (s : Text) : (Fragment.literal (escapeJsString s)).Ends rest := by
  obtain ⟨value, hvalue, -⟩ := literalRest_escapeJsString s rest
  rw [Fragment.Ends, List.append_assoc]
  exact ⟨value, hvalue⟩

lemma ends_toolCall_escapeJsString (s : Text) :
    (Fragment.toolCall s (escapeJsString s)).Ends rest ↔ ¬ NulBeforeOctal s := by
  obtain ⟨value, hvalue, -, hiff⟩ := literalRest_escapeJsString s rest
  rw [Fragment.Ends, List.append_assoc, ← hiff]
  change literalRest (escapeJsString s ++ '"' :: rest) = _ ↔ _
  rw [hvalue]
  simp

lemma hasTerminator_paramLine_append (param : ParamStub) (t : Text) :
    HasTerminator (ToolStub.paramLine param ++ t) ↔
      HasTerminator param.name ∨ HasTerminator param.description ∨ HasTerminator t := by
  have hrequired (u : Text) :
      HasTerminator ((if param.required then "required" else "optional").toList ++ u) ↔
        HasTerminator u := by
    split_ifs
    · exact hasTerminator_lit_append (by decide)
    · exact hasTerminator_lit_append (by decide)
  unfold ToolStub.paramLine
  simp (disch := decide) only [List.append_assoc, hasTerminator_lit_append,
    hasTerminator_append_lit_append, hrequired, -String.reduceToList]

lemma hasTerminator_flatMap_paramLine (params : List ParamStub) (t : Text) :
    HasTerminator (params.flatMap ToolStub.paramLine ++ t) ↔
      (∃ param ∈ params, HasTerminator param.name ∨ HasTerminator param.description) ∨
        HasTerminator t := by
  induction params with
  | nil => simp
  | cons param params ih =>
    rw [List.flatMap_cons, List.append_assoc, hasTerminator_paramLine_append, ih,
      List.exists_mem_cons_iff, or_assoc, or_assoc]

lemma hasTerminator_jsdoc (stub : ToolStub) :
    ¬ HasTerminator stub.jsdoc ↔ ¬ HasTerminator stub.description ∧
      ∀ param ∈ stub.params, ¬ HasTerminator param.name ∧ ¬ HasTerminator param.description := by
  have hreturns : ¬ HasTerminator " * @returns \x7bPromise\x7d\n ".toList := by decide
  have hparams : HasTerminator ((if stub.params = [] then []
      else " * @param \x7bObject\x7d params\n".toList ++ stub.params.flatMap ToolStub.paramLine) ++
        " * @returns \x7bPromise\x7d\n ".toList) ↔
      ∃ param ∈ stub.params, HasTerminator param.name ∨ HasTerminator param.description := by
    split_ifs with hnil
    · simp [hnil, hreturns, -String.reduceToList]
    · rw [List.append_assoc, hasTerminator_lit_append (by decide),
        hasTerminator_flatMap_paramLine]
      simp [hreturns, -String.reduceToList]
  unfold ToolStub.jsdoc
  simp (disch := decide) only [hasTerminator_lit_append, hasTerminator_append_lit_append, hparams,
    -String.reduceToList]
  push Not
  rfl

lemma ends_function (stub : ToolStub) : Ends rest stub.function ↔ stub.Harmless := by
  simp only [ToolStub.function, ends_cons, ends_nil, ends_code, ends_comment, ends_escapeJsString,
    ends_toolCall_escapeJsString, hasTerminator_jsdoc, true_and, and_true, -String.reduceToList]
  exact ⟨fun ⟨⟨hd, hp⟩, hn⟩ => ⟨hn, hd, hp⟩, fun h => ⟨⟨h.description, h.params⟩, h.name⟩⟩

lemma ends_namespaceObject (ns : Text) : Ends rest (namespaceObject ns) := by
  simp only [namespaceObject, ends_cons, ends_nil, ends_code, ends_escapeJsString, and_self,
    -String.reduceToList]

lemma ends_generateToolStubs {stubs : List ToolStub} (h : ∀ stub ∈ stubs, stub.Harmless)
    (namespaces : List Text) : Ends rest (generateToolStubs namespaces stubs) := by
  rw [generateToolStubs, ends_append]
  refine ⟨⟨trivial, trivial⟩, ends_flatMap (fun ns _ rest => ?_) rest⟩
  rw [ends_append]
  refine ⟨ends_namespaceObject ns, ends_flatMap (fun stub hstub rest => ?_) rest⟩
  rw [ends_append]
  exact ⟨(ends_function stub).mpr (h stub (List.mem_of_mem_filter hstub)), trivial, trivial⟩

lemma ends_generateSingleToolStub (stub : ToolStub) :
    Ends rest (generateSingleToolStub stub) ↔ stub.Harmless := by
  simp only [generateSingleToolStub, ends_append, ends_cons, ends_nil, ends_code,
    ends_namespaceObject, ends_function, true_and, -String.reduceToList]

/-! ### All files -/

/-- The generated files keep the texts of the tools in their comments and literals exactly when no
text in a comment has a terminator, the provider leaves none half written, and no text in a literal
has a character that its generator does not escape. -/
theorem injectionFree_iff (debug : Value → String) (head : Text) (tools : List ToolMetadata)
    (stubs : List ToolStub) :
    InjectionFree debug head tools stubs ↔
      (∀ tool ∈ tools, tool.Harmless debug) ∧ ∀ stub ∈ stubs, stub.Harmless := by
  constructor
  · intro h
    refine ⟨fun tool htool => ?_, fun stub hstub => ?_⟩
    · obtain ⟨hid, hlines⟩ := (ends_generatePrelude head _).mp h.prelude (toolEntry tool)
        (List.mem_map_of_mem htool)
      obtain ⟨hdocumented, -⟩ := (ends_generateJsStub debug tool).mp (h.jsStub tool htool)
      exact ⟨hid, hdocumented.provider, hdocumented.name, hdocumented.description, hlines,
        hdocumented.params, hdocumented.constraints⟩
    · exact (ends_generateSingleToolStub stub).mp (h.singleToolStub stub hstub)
  · rintro ⟨htools, hstubs⟩
    have documented (tool) (htool : tool ∈ tools) : Documented debug tool :=
      have h := htools tool htool
      ⟨h.provider, h.name, h.description, h.params, h.constraints⟩
    refine ⟨?_, fun tool htool => ?_, fun tool htool => ?_, fun namespaces _ => ?_,
      fun stub hstub => ?_⟩
    · apply (ends_generatePrelude head _).mpr
      simp only [List.mem_map, forall_exists_index, and_imp, forall_apply_eq_imp_iff₂]
      exact fun tool htool => ⟨(htools tool htool).toolId, (htools tool htool).lines⟩
    · exact (ends_generateJsStub debug tool).mpr
        ⟨documented tool htool, (htools tool htool).toolId⟩
    · exact ends_generateDts debug (documented tool htool)
    · exact ends_generateToolStubs hstubs namespaces
    · exact (ends_generateSingleToolStub stub).mpr (hstubs stub hstub)

/-- The description of `evil` closes the comment of its own stub. -/
theorem not_injectionFree_description :
    ¬ InjectionFree (fun _ => "") []
      [{ provider := "a".toList, name := "b".toList, description := "*/ evil() /*".toList
         params := [], constraints := [] }] [] := by
  intro h
  obtain ⟨hdocumented, -⟩ := (ends_generateJsStub _ _).mp (h.jsStub _ (List.mem_singleton_self _))
  exact hdocumented.description (by decide)

end

/-! ## Escaped texts in strict mode -/

/-- Somewhere a NUL stands before a digit. -/
def NulBeforeDigit : Text → Prop
  | c :: d :: s => (c = '\x00' ∧ d.isDigit) ∨ NulBeforeDigit (d :: s)
  | _ => False

lemma nulBeforeDigit_cons {c : Char} {s : Text} :
    NulBeforeDigit (c :: s) ↔
      (c = '\x00' ∧ s.head?.any Char.isDigit) ∨ NulBeforeDigit s := by
  cases s <;> simp [NulBeforeDigit]

/-- No escape of a character other than the NUL begins with a digit. -/
lemma isLegacyEscape_escapeJsChar {c : Char} {e : Text} (h : c ≠ '\x00')
    (he : escapeJsChar c = '\\' :: e) (t : Text) : isLegacyEscape (e ++ t) = false := by
  unfold escapeJsChar at he
  split at he
  · obtain rfl := (List.cons.inj he).2
    rfl
  · obtain rfl := (List.cons.inj he).2
    rfl
  · obtain rfl := (List.cons.inj he).2
    rfl
  · obtain rfl := (List.cons.inj he).2
    rfl
  · obtain rfl := (List.cons.inj he).2
    rfl
  · exact absurd rfl h
  · rename_i hslash _ _ _ _ _
    split_ifs at he with hcontrol
    · rw [utf16_of_isControl hcontrol] at he
      obtain rfl := (List.cons.inj he).2
      rfl
    · exact absurd (List.cons.inj he).1 hslash

/-- An escaped text begins with a digit where the text does. -/
lemma head?_escapeJsString (s t : Text) :
    (escapeJsString s ++ '"' :: t).head?.any Char.isDigit = s.head?.any Char.isDigit := by
  cases s with
  | nil => rfl
  | cons c s =>
    rw [escapeJsString_cons]
    obtain ⟨heq, -⟩ | ⟨e, heq, -⟩ := escapeJsChar_cases c
    · rw [heq]
      rfl
    · have hdigit : c.isDigit = false := by
        by_contra h
        rw [escapeJsChar_of_isDigit (by simpa using h)] at heq
        obtain rfl := (List.cons.inj heq).1
        exact h rfl
      rw [heq]
      simp [hdigit]

/-- A character that is escaped is read back before any text. -/
lemma strictRest_escapeJsChar {c : Char} (h : c ≠ '\x00') (t : Text) :
    strictRest (escapeJsChar c ++ t) = (strictRest t).map fun r => (utf16 c ++ r.1, r.2) := by
  obtain ⟨heq, hordinary⟩ | ⟨e, heq, hsequence⟩ := escapeJsChar_cases c
  · rw [heq]
    exact strictRest_cons (hordinary h)
  · have hstrict : strictEscape (e ++ t) = some (utf16 c, e.length) := by
      rw [strictEscape, isLegacyEscape_escapeJsChar h heq, hsequence h]
      rfl
    rw [heq, List.cons_append, strictRest_backslash hstrict, List.drop_left]

/-- A NUL is read back where no digit is behind it. -/
lemma strictRest_escapedNul (t : Text) :
    strictRest ('\\' :: '0' :: t) =
      if t.head?.any Char.isDigit then none
      else (strictRest t).map fun r => ([0] ++ r.1, r.2) := by
  cases hdigit : t.head?.any Char.isDigit with
  | true =>
    have hlegacy : isLegacyEscape ('0' :: t) = true := by simp [isLegacyEscape, hdigit]
    rw [strictRest_legacy hlegacy, if_pos rfl]
  | false =>
    have hlegacy : isLegacyEscape ('0' :: t) = false := by simp [isLegacyEscape, hdigit]
    have hstrict : strictEscape ('0' :: t) = some ([0], 1) := by
      have hsequence : escapeSequence ('0' :: t) = some (octalEscape '0' t) := rfl
      rw [strictEscape, hlegacy, if_neg (by simp), hsequence]
      obtain ⟨hescape, -⟩ | ⟨d, u, x, rfl, hd, -⟩ | ⟨d, e, u, x, rfl, hd, -⟩ := octalEscape_cases t
      · rw [hescape]
      · simp [isDigit_of_isOctal hd] at hdigit
      · simp [isDigit_of_isOctal hd] at hdigit
    rw [strictRest_backslash hstrict, if_neg (by simp)]
    rfl

lemma strictRest_escapeJsString (s t : Text) :
    (NulBeforeDigit s ∧ strictRest (escapeJsString s ++ '"' :: t) = none) ∨
      (¬ NulBeforeDigit s ∧ strictRest (escapeJsString s ++ '"' :: t) = some (units s, t)) := by
  induction s with
  | nil => exact .inr ⟨by simp [NulBeforeDigit], strictRest_quote⟩
  | cons c s ih =>
    rw [escapeJsString_cons, List.append_assoc, nulBeforeDigit_cons]
    by_cases hc : c = '\x00'
    · subst hc
      have hescape : escapeJsChar '\x00' ++ (escapeJsString s ++ '"' :: t) =
          '\\' :: '0' :: (escapeJsString s ++ '"' :: t) := rfl
      rw [hescape, strictRest_escapedNul, head?_escapeJsString]
      cases hdigit : s.head?.any Char.isDigit with
      | true => exact .inl ⟨.inl ⟨rfl, rfl⟩, if_pos rfl⟩
      | false =>
        rw [if_neg (by simp)]
        obtain ⟨hnul, hrest⟩ | ⟨hnul, hrest⟩ := ih
        · exact .inl ⟨.inr hnul, by rw [hrest, Option.map_none]⟩
        · exact .inr ⟨by simp [hnul], by rw [hrest, Option.map_some, units_cons]; rfl⟩
    · rw [strictRest_escapeJsChar hc]
      obtain ⟨hnul, hrest⟩ | ⟨hnul, hrest⟩ := ih
      · exact .inl ⟨.inr hnul, by rw [hrest, Option.map_none]⟩
      · exact .inr ⟨by simp [hc, hnul], by rw [hrest, Option.map_some, units_cons]⟩

/-- The escaped text is a literal that denotes the text, unless a NUL stands before a digit. -/
theorem isStrictLiteral_escapeJsString_iff (s : Text) :
    IsStrictLiteral (escapeJsString s) (units s) ↔ ¬ NulBeforeDigit s := by
  constructor
  · intro h
    obtain ⟨-, hrest⟩ | ⟨hnul, -⟩ := strictRest_escapeJsString s []
    · rw [h []] at hrest
      cases hrest
    · exact hnul
  · intro hnul t
    obtain ⟨hnul', -⟩ | ⟨-, hrest⟩ := strictRest_escapeJsString s t
    · exact absurd hnul' hnul
    · exact hrest

/-- A NUL and a digit. -/
theorem not_isStrictLiteral_nulDigit :
    ¬ ∀ s, IsStrictLiteral (escapeJsString s) (units s) := by
  intro h
  have hrest := h ['\x00', '1'] []
  rw [show escapeJsString ['\x00', '1'] ++ ['"'] = '\\' :: '0' :: ['1', '"'] from rfl,
    strictRest_legacy rfl] at hrest
  cases hrest

end AmlaSandbox.Stubs
