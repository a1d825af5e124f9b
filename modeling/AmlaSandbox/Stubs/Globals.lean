import Mathlib.Data.Bool.AllAny
import AmlaSandbox.Stubs.Files
import AmlaSandbox.Stubs.Injection

/-!
# Globals of the prelude

The prelude assigns a function to a property of `globalThis` for every tool. Which tools can then be
called under the name that was made from theirs.
-/

namespace AmlaSandbox.Stubs

open Json Library JsText Text

/-! ### Identifiers -/

/-- A character that an identifier keeps. The underscore stands for all others, and for itself. -/
def IsKept (c : Char) : Prop :=
  ('a' ≤ c ∧ c ≤ 'z') ∨ ('A' ≤ c ∧ c ≤ 'Z') ∨ ('0' ≤ c ∧ c ≤ '9') ∨ c = '$'

instance (c : Char) : Decidable (IsKept c) := inferInstanceAs (Decidable (_ ∨ _))

/-- The reserved words of JavaScript. -/
def reservedWords : List Text :=
  ["await", "break", "case", "catch", "class", "const", "continue", "debugger", "default", "delete",
    "do", "else", "enum", "export", "extends", "false", "finally", "for", "function", "if",
    "import", "in", "instanceof", "new", "null", "return", "super", "switch", "this", "throw",
    "true", "try", "typeof", "var", "void", "while", "with", "yield"].map String.toList

/-- A legal identifier, here one of ASCII characters. -/
structure IsIdentifier (s : Text) : Prop where
  parts : ∀ c ∈ s, IsKept c ∨ c = '_'
  start : ∃ c, s.head? = some c ∧ ¬ ('0' ≤ c ∧ c ≤ '9')
  free : s ∉ reservedWords

/-! ### The prelude as a program -/

inductive Binding
  | own
  | registry (entries : List (Text × Text))
  | tool (id : Text)

def ownGlobals : List Text := ["fs", "shell", "listTools", "getToolInfo"].map String.toList

/-- Properties of the global object that an assignment does not change. -/
def readOnlyNames : List Text :=
  ["undefined", "NaN", "Infinity", "__dirname", "__filename", "__proto__"].map String.toList

/-- The globals that a call of a tool uses on its way to the host. -/
def callNames : List Text :=
  ["__amla__", "String", "Promise", "JSON", "__native_register_op"].map String.toList

/-- Constants of the scripts that are evaluated before the prelude. They hide properties of the
global object. -/
def lexicalNames : List Text := ["Param", "__console_buffer"].map String.toList

def registryName : Text := "__tools__".toList

def globalObject : Text := "globalThis".toList

/-- The entries of the registry, the last one first. In an object literal `__proto__` is no property
but the prototype. -/
def registryObject (tools : List ToolEntry) : List (Text × Text) :=
  ((tools.filter (·.fnName ≠ "__proto__".toList)).map fun e => (e.fnName, e.toolId)).reverse

/-- What the prelude defines besides the registry, before the functions of the tools. -/
def preludeNames : List Text :=
  ["__preludeLoaded", "require", "process", "Buffer", "path", "__dirname", "__filename", "module",
    "exports"].map String.toList ++ ownGlobals

def preludeGlobals (tools : List ToolEntry) : List (Text × Binding) :=
  (registryName, .registry (registryObject tools)) :: preludeNames.map fun name => (name, .own)

/-- The assignments that reach the global object: those up to one of `globalThis` itself. -/
def reaching : List ToolEntry → List ToolEntry
  | [] => []
  | e :: tools => e :: if e.fnName = globalObject then [] else reaching tools

/-- The globals behind the prelude, the last assignment first. -/
def globalsAfter (tools : List ToolEntry) : List (Text × Binding) :=
  (((reaching tools).filter (·.fnName ∉ readOnlyNames)).map
      fun e => (e.fnName, Binding.tool e.toolId)).reverse ++
    preludeGlobals tools

/-- The id under which the host is asked when a global is called. -/
def call (globals : List (Text × Binding)) (name : Text) : Option Text :=
  if name ∉ lexicalNames ∧ ∀ used ∈ callNames, globals.lookup used = none then
    match globals.lookup name with
    | some (.tool id) => some id
    | _ => none
  else none

/-- The engine takes the text of the tools as a C string. -/
def Loads (tools : List ToolEntry) : Prop :=
  '\x00' ∉ render (tools.flatMap registryEntry ++ tools.flatMap toolFunction)

/-! ### Tools under their own names -/

/-- A tool has an entry and a global of its own. -/
structure Defines (tools : List ToolEntry) (entry : ToolEntry) : Prop where
  identifier : IsIdentifier entry.fnName
  own : entry.fnName ∉ ownGlobals
  registered : ∃ entries, (globalsAfter tools).lookup registryName = some (.registry entries) ∧
    entries.lookup entry.fnName = some entry.toolId
  calls : call (globalsAfter tools) entry.fnName = some entry.toolId

/-- What is collected for the prelude. -/
def toolEntries (tools : List McpTool) : List ToolEntry :=
  tools.map fun tool => toolEntry tool.toToolMetadata

/-- The prelude is read as it was generated, and defines all tools under different names. -/
structure DefinesAll (head : Text) (tools : List McpTool) : Prop where
  intact : Ends [] (generatePrelude head (toolEntries tools))
  loads : Loads (toolEntries tools)
  distinct : ((toolEntries tools).map ToolEntry.fnName).Nodup
  defines : ∀ entry ∈ toolEntries tools, Defines (toolEntries tools) entry

/-- Characters that are the same in an identifier. -/
def Similar (c d : Char) : Prop := c = d ∨ (¬ IsKept c ∧ ¬ IsKept d)

/-- An underscore comes before a digit, and no name is empty. -/
def marked : Text → Text
  | [] => "_tool".toList
  | c :: s => if '0' ≤ c ∧ c ≤ '9' then '_' :: c :: s else c :: s

/-- Names that only differ in characters that no identifier keeps. -/
def Collide (a b : Text) : Prop := List.Forall₂ Similar (marked a) (marked b)

/-- Names with a use of their own. -/
def takenNames : List Text :=
  reservedWords ++ ownGlobals ++ readOnlyNames ++ callNames ++ lexicalNames ++ [registryName]

/-- Which tools have names of their own; the name of a tool's metadata is what stands behind its
provider. -/
structure HaveOwnNames (tools : List McpTool) : Prop where
  apart : tools.Pairwise fun a b => ¬ Collide a.toToolMetadata.name b.toToolMetadata.name
  free : ∀ tool ∈ tools, ∀ word ∈ takenNames, ¬ Collide tool.toToolMetadata.name word
  object : ∀ tool ∈ tools.dropLast, ¬ Collide tool.toToolMetadata.name globalObject
  ordinary : ∀ tool ∈ tools, ∀ c ∈ tool.name, Ordinary c
  lines : ∀ tool ∈ tools, ∀ c ∈ tool.description, isLineBreak c = false
  nul : ∀ tool ∈ tools, '\x00' ∉ tool.name ∧ '\x00' ∉ tool.description

/-! ### Identifiers of names -/

/-- A character in an identifier. -/
def sanitize (c : Char) : Char := if IsKept c then c else '_'

lemma jsIdentifierChar_eq (i : ℕ) (c : Char) :
    jsIdentifierChar i c =
      if i = 0 ∧ '0' ≤ c ∧ c ≤ '9' then ['_', sanitize c] else [sanitize c] := by
  have hletter (h : '0' ≤ c ∧ c ≤ '9') :
      ¬ (('a' ≤ c ∧ c ≤ 'z') ∨ ('A' ≤ c ∧ c ≤ 'Z') ∨ c = '_' ∨ c = '$') := by
    rintro (hc | hc | rfl | rfl)
    · exact absurd (hc.1.trans h.2) (by decide)
    · exact absurd (hc.1.trans h.2) (by decide)
    · exact absurd h (by decide)
    · exact absurd h (by decide)
  unfold jsIdentifierChar sanitize IsKept
  split_ifs <;> grind

lemma flatten_jsIdentifierChar (s : Text) {k : ℕ} (hk : k ≠ 0) :
    ((s.zipIdx k).map fun p => jsIdentifierChar p.2 p.1).flatten = s.map sanitize := by
  induction s generalizing k with
  | nil => rfl
  | cons c s ih =>
    rw [List.zipIdx_cons, List.map_cons, List.flatten_cons, jsIdentifierChar_eq,
      if_neg fun h => hk h.1, ih (Nat.succ_ne_zero k)]
    rfl

lemma jsIdentifier_eq (s : Text) : jsIdentifier s = (marked s).map sanitize := by
  cases s with
  | nil => decide
  | cons c s =>
    have hchars : ((c :: s).zipIdx.map fun p => jsIdentifierChar p.2 p.1).flatten =
        (marked (c :: s)).map sanitize := by
      have hrest := flatten_jsIdentifierChar s (Nat.succ_ne_zero 0)
      rw [List.zipIdx_cons, List.map_cons, List.flatten_cons, marked]
      refine (congrArg₂ (· ++ ·) (jsIdentifierChar_eq 0 c) hrest).trans ?_
      split_ifs with h h' h'
      · rfl
      · exact absurd h.2 h'
      · exact absurd ⟨rfl, h'⟩ h
      · rfl
    have hne : (marked (c :: s)).map sanitize ≠ [] := by
      rw [marked]
      split_ifs <;> simp
    have hresult : jsIdentifier (c :: s) =
        if (marked (c :: s)).map sanitize = [] then "_tool".toList
        else (marked (c :: s)).map sanitize := by
      rw [← hchars]
      rfl
    rw [hresult, if_neg hne]

lemma sanitize_eq_iff {c d : Char} : sanitize c = sanitize d ↔ Similar c d := by
  have hunderscore : ¬ IsKept '_' := by decide
  rw [sanitize, sanitize, Similar]
  split_ifs with hc hd hd
  · simp [hc]
  · refine ⟨fun h => absurd (h ▸ hc) hunderscore, ?_⟩
    rintro (rfl | h)
    · exact absurd hc hd
    · exact absurd hc h.1
  · refine ⟨fun h => absurd (h ▸ hd) hunderscore, ?_⟩
    rintro (rfl | h)
    · exact absurd hd hc
    · exact absurd hd h.2
  · simp [hc, hd]

/-- Two names have the same identifier exactly if they collide. -/
lemma jsIdentifier_eq_iff (a b : Text) : jsIdentifier a = jsIdentifier b ↔ Collide a b := by
  rw [jsIdentifier_eq, jsIdentifier_eq, Collide, ← List.forall₂_eq_eq_eq, List.forall₂_map_left_iff,
    List.forall₂_map_right_iff]
  simp only [sanitize_eq_iff]

lemma jsIdentifier_notMem_iff {words : List Text} (h : ∀ word ∈ words, jsIdentifier word = word)
    (s : Text) : jsIdentifier s ∉ words ↔ ∀ word ∈ words, ¬ Collide s word := by
  have hcollide : ∀ word ∈ words, Collide s word ↔ jsIdentifier s = word := fun word hword => by
    rw [← jsIdentifier_eq_iff, h word hword]
  constructor
  · rintro hnot word hword hs
    exact hnot ((hcollide word hword).mp hs ▸ hword)
  · exact fun hnot hmem => hnot _ hmem ((hcollide _ hmem).mpr rfl)

lemma jsIdentifier_takenNames : ∀ word ∈ takenNames, jsIdentifier word = word := by
  decide +kernel

lemma jsIdentifier_eq_globalObject_iff {s : Text} :
    jsIdentifier s = globalObject ↔ Collide s globalObject := by
  have hobject : jsIdentifier globalObject = globalObject := by decide +kernel
  rw [← jsIdentifier_eq_iff, hobject]

/-- The generated name is an identifier unless it is reserved. -/
lemma isIdentifier_jsIdentifier_iff (s : Text) :
    IsIdentifier (jsIdentifier s) ↔ jsIdentifier s ∉ reservedWords := by
  refine ⟨fun h => h.free, fun h => ⟨fun c hc => ?_, ?_, h⟩⟩
  · rw [jsIdentifier_eq, List.mem_map] at hc
    obtain ⟨d, -, rfl⟩ := hc
    rw [sanitize]
    split_ifs with hd
    · exact .inl hd
    · exact .inr rfl
  · have hunderscore : ¬ ('0' ≤ '_' ∧ '_' ≤ '9') := by decide
    rw [jsIdentifier_eq]
    cases s with
    | nil => exact ⟨'_', by decide, hunderscore⟩
    | cons c s =>
      rw [marked]
      split_ifs with hc
      · exact ⟨'_', by simp [sanitize], hunderscore⟩
      · refine ⟨sanitize c, rfl, ?_⟩
        rw [sanitize]
        split_ifs
        · exact hc
        · exact hunderscore

/-! ### What the engine takes -/

lemma nul_notMem_jsIdentifier (s : Text) : '\x00' ∉ jsIdentifier s := by
  rw [jsIdentifier_eq, List.mem_map]
  rintro ⟨c, -, hc⟩
  have hkept : ¬ IsKept '\x00' := by decide
  rw [sanitize] at hc
  split_ifs at hc with h
  · exact hkept (hc ▸ h)
  · exact absurd hc (by decide)

lemma mem_replaceTerminator {c : Char} (hc : c ≠ ' ') (s : Text) :
    c ∈ replaceTerminator s ↔ c ∈ s := by
  fun_induction replaceTerminator s with
  | case1 => rfl
  | case2 d => rfl
  | case3 d e s h ih => simp [ih, hc, h]
  | case4 d e s h ih => rw [List.mem_cons, ih, ← List.mem_cons]

lemma nul_mem_escapeQuotes (s : Text) : '\x00' ∈ escapeQuotes s ↔ '\x00' ∈ s := by
  induction s with
  | nil => rfl
  | cons c s ih =>
    rw [escapeQuotes_cons, List.mem_append, ih]
    split_ifs <;> simp

lemma notMem_render_flatMap {c : Char} {f : ToolEntry → List Fragment} {tools : List ToolEntry} :
    c ∉ render (tools.flatMap f) ↔ ∀ e ∈ tools, c ∉ render (f e) := by
  rw [render, List.flatMap_assoc, List.mem_flatMap]
  simp only [not_exists, not_and]
  rfl

lemma loads_iff {tools : List ToolEntry} (h : ∀ e ∈ tools, '\x00' ∉ e.fnName) :
    Loads tools ↔ ∀ e ∈ tools, '\x00' ∉ e.toolId ∧ '\x00' ∉ e.description := by
  have hentry : ∀ e ∈ tools, '\x00' ∉ render (registryEntry e) ↔
      '\x00' ∉ e.toolId ∧ '\x00' ∉ e.description := by
    intro e he
    simp [render, registryEntry, Fragment.text, h e he, nul_mem_escapeQuotes]
  have hfunction : ∀ e ∈ tools, '\x00' ∉ render (toolFunction e) ↔
      '\x00' ∉ e.toolId ∧ '\x00' ∉ e.description := by
    intro e he
    simp [render, toolFunction, Fragment.text, h e he, mem_replaceTerminator, and_comm]
  rw [Loads, render_append, List.mem_append, not_or, notMem_render_flatMap, notMem_render_flatMap,
    forall₂_congr hentry, forall₂_congr hfunction, and_self_iff]

lemma ordinary_toolId_iff {tool : McpTool} :
    (∀ c ∈ tool.toToolMetadata.toolId, Ordinary c) ↔ ∀ c ∈ tool.name, Ordinary c := by
  rw [toolId_toToolMetadata]
  split_ifs with hcolon
  · rfl
  · rw [List.forall_mem_append]
    exact and_iff_right (List.all_iff_forall_prop.mp (by decide))

lemma nul_notMem_toolId_iff {tool : McpTool} :
    '\x00' ∉ tool.toToolMetadata.toolId ↔ '\x00' ∉ tool.name := by
  rw [toolId_toToolMetadata]
  split_ifs with hcolon
  · rfl
  · simp

/-! ### Bindings -/

section

variable {tools : List ToolEntry} {e : ToolEntry}

lemma lookup_of_mem_of_nodup {α : Type} {l : List (Text × α)} {k : Text} {a : α}
    (h : (l.map Prod.fst).Nodup) (hmem : (k, a) ∈ l) : l.lookup k = some a := by
  obtain ⟨before, after, rfl⟩ := List.append_of_mem hmem
  refine List.lookup_eq_some_iff.mpr ⟨before, after, rfl, fun p hp => ?_⟩
  rw [List.map_append, List.map_cons, List.nodup_append] at h
  have hne := h.2.2 p.1 (List.mem_map_of_mem hp) k List.mem_cons_self
  simpa using hne.symm

lemma reaching_isPrefixOf (tools : List ToolEntry) : reaching tools <+: tools := by
  induction tools with
  | nil => exact List.prefix_rfl
  | cons e tools ih =>
    rw [reaching]
    refine (List.prefix_cons_inj e).mpr ?_
    split_ifs
    · exact List.nil_prefix
    · exact ih

/-- All assignments reach the global object if only the last one may take its place. -/
lemma reaching_eq_self_iff :
    reaching tools = tools ↔ ∀ e ∈ tools.dropLast, e.fnName ≠ globalObject := by
  induction tools with
  | nil => simp [reaching]
  | cons e tools ih =>
    rw [reaching]
    cases tools with
    | nil => simp [reaching]
    | cons e' tools =>
      rw [List.dropLast_cons_cons, List.forall_mem_cons, ← ih]
      split_ifs with h <;> simp [h]

/-- The bindings that the functions of the tools make. -/
def toolBindings (tools : List ToolEntry) : List (Text × Binding) :=
  (((reaching tools).filter (·.fnName ∉ readOnlyNames)).map
    fun e => (e.fnName, Binding.tool e.toolId)).reverse

lemma mem_toolBindings {p : Text × Binding} :
    p ∈ toolBindings tools ↔
      ∃ e ∈ reaching tools, e.fnName ∉ readOnlyNames ∧ (e.fnName, Binding.tool e.toolId) = p := by
  simp [toolBindings, and_assoc]

lemma lookup_globalsAfter (k : Text) :
    (globalsAfter tools).lookup k =
      ((toolBindings tools).lookup k).or ((preludeGlobals tools).lookup k) :=
  List.lookup_append

lemma lookup_toolBindings_of_notMem {k : Text} (h : ∀ e ∈ tools, e.fnName ≠ k) :
    (toolBindings tools).lookup k = none := by
  rw [List.lookup_eq_none_iff]
  rintro p hp
  obtain ⟨e, he, -, rfl⟩ := mem_toolBindings.mp hp
  simpa using (h e ((reaching_isPrefixOf tools).subset he)).symm

/-- Before the functions of the tools, no global calls one. -/
lemma lookup_preludeGlobals_ne (k id : Text) :
    (preludeGlobals tools).lookup k ≠ some (.tool id) := by
  intro h
  obtain ⟨before, after, heq, -⟩ := List.lookup_eq_some_iff.mp h
  have hmem : (k, Binding.tool id) ∈ preludeGlobals tools := by
    rw [heq]
    exact List.mem_append_right _ List.mem_cons_self
  rw [preludeGlobals, List.mem_cons, List.mem_map] at hmem
  rcases hmem with hmem | ⟨name, -, hmem⟩
  · cases (Prod.ext_iff.mp hmem).2
  · cases (Prod.ext_iff.mp hmem).2

lemma lookup_preludeGlobals_of_mem {used : Text} (h : used ∈ callNames) :
    (preludeGlobals tools).lookup used = none := by
  have happart : ∀ used ∈ callNames, used ≠ registryName ∧ used ∉ preludeNames := by
    decide +kernel
  obtain ⟨hregistry, hnames⟩ := happart used h
  rw [List.lookup_eq_none_iff, preludeGlobals, List.forall_mem_cons]
  refine ⟨by simpa using hregistry, fun p hp => ?_⟩
  obtain ⟨name, hname, rfl⟩ := List.mem_map.mp hp
  simpa using (ne_of_mem_of_not_mem hname hnames).symm

/-- A global that calls a tool was assigned by one that reaches the global object. -/
lemma exists_of_lookup_eq_tool {k id : Text}
    (h : (globalsAfter tools).lookup k = some (.tool id)) :
    k ∉ readOnlyNames ∧ ∃ e ∈ reaching tools, e.fnName = k ∧ e.toolId = id := by
  rw [lookup_globalsAfter, Option.or_eq_some_iff] at h
  rcases h with h | ⟨-, h⟩
  · obtain ⟨before, after, heq, -⟩ := List.lookup_eq_some_iff.mp h
    obtain ⟨e, he, hfree, hpair⟩ := mem_toolBindings.mp (by
      rw [heq]
      exact List.mem_append_right _ List.mem_cons_self)
    obtain ⟨rfl, hbinding⟩ := Prod.mk.inj hpair
    exact ⟨hfree, e, he, rfl, Binding.tool.inj hbinding⟩
  · exact absurd h (lookup_preludeGlobals_ne k id)

/-- A global is the tool's if an assignment of it reaches the global object, and all tools of this
name have one id. -/
lemma lookup_eq_tool {k id : Text} (hfree : k ∉ readOnlyNames)
    (hreach : ∃ e ∈ reaching tools, e.fnName = k)
    (hid : ∀ e ∈ tools, e.fnName = k → e.toolId = id) :
    (globalsAfter tools).lookup k = some (.tool id) := by
  obtain ⟨e, he, rfl⟩ := hreach
  rw [lookup_globalsAfter]
  cases hlookup : (toolBindings tools).lookup e.fnName with
  | none =>
    have hmem : (e.fnName, Binding.tool e.toolId) ∈ toolBindings tools :=
      mem_toolBindings.mpr ⟨e, he, hfree, rfl⟩
    simpa using List.lookup_eq_none_iff.mp hlookup _ hmem
  | some binding =>
    obtain ⟨before, after, heq, -⟩ := List.lookup_eq_some_iff.mp hlookup
    obtain ⟨e', he', -, hpair⟩ := mem_toolBindings.mp (by
      rw [heq]
      exact List.mem_append_right _ List.mem_cons_self)
    obtain ⟨hname, rfl⟩ := Prod.mk.inj hpair
    rw [hid e' ((reaching_isPrefixOf tools).subset he') hname]
    rfl

lemma lookup_eq_tool_iff (h : (tools.map ToolEntry.fnName).Nodup) (he : e ∈ tools) :
    (globalsAfter tools).lookup e.fnName = some (.tool e.toolId) ↔
      e ∈ reaching tools ∧ e.fnName ∉ readOnlyNames := by
  constructor
  · intro hlookup
    obtain ⟨hfree, e', he', hname, -⟩ := exists_of_lookup_eq_tool hlookup
    obtain rfl := List.inj_on_of_nodup_map h ((reaching_isPrefixOf tools).subset he') he hname
    exact ⟨he', hfree⟩
  · rintro ⟨hreaching, hfree⟩
    refine lookup_eq_tool hfree ⟨e, hreaching, rfl⟩ fun e' he' hname => ?_
    rw [List.inj_on_of_nodup_map h he' he hname]

/-- A call needs that no tool has taken the place of what it uses. -/
lemma call_eq_some_iff {globals : List (Text × Binding)} {name id : Text} :
    call globals name = some id ↔
      name ∉ lexicalNames ∧ (∀ used ∈ callNames, globals.lookup used = none) ∧
        globals.lookup name = some (.tool id) := by
  rw [call, ← and_assoc]
  split_ifs with hused
  · rw [and_iff_right hused]
    split
    · next heq => simp [heq]
    · next hne =>
      exact ⟨fun h => absurd h.symm (Option.some_ne_none id), fun h => absurd h (hne id)⟩
  · exact ⟨False.elim, fun h => absurd h.1 hused⟩

lemma lookup_of_notMem {k : Text} (h : ∀ e ∈ tools, e.fnName ≠ k) :
    (globalsAfter tools).lookup k = (preludeGlobals tools).lookup k := by
  rw [lookup_globalsAfter, lookup_toolBindings_of_notMem h, Option.none_or]

/-- What a call uses is as it was before the functions of the tools, if none has its name. -/
lemma lookup_callNames (h : ∀ e ∈ tools, e.fnName ∉ callNames) :
    ∀ used ∈ callNames, (globalsAfter tools).lookup used = none := by
  intro used hused
  rw [lookup_of_notMem fun e he heq => h e he (heq ▸ hused)]
  exact lookup_preludeGlobals_of_mem hused

/-- All tools of a list with different identifiers are defined exactly if no identifier is taken and
only the last one may be that of the global object. -/
lemma defines_iff (h : (tools.map ToolEntry.fnName).Nodup)
    (hname : ∀ e ∈ tools, IsIdentifier e.fnName ↔ e.fnName ∉ reservedWords) :
    (∀ e ∈ tools, Defines tools e) ↔
      (∀ e ∈ tools, e.fnName ∉ takenNames) ∧ ∀ e ∈ tools.dropLast, e.fnName ≠ globalObject := by
  rw [← reaching_eq_self_iff]
  constructor
  · intro hdefines
    have hlookup (e) (he : e ∈ tools) := call_eq_some_iff.mp (hdefines e he).calls
    have hbound (e) (he : e ∈ tools) := (lookup_eq_tool_iff h he).mp (hlookup e he).2.2
    refine ⟨fun e he => ?_, ?_⟩
    · simp only [takenNames, List.mem_append, List.mem_singleton, not_or, and_assoc]
      refine ⟨(hdefines e he).identifier.free, (hdefines e he).own, (hbound e he).2, ?_,
        (hlookup e he).1, ?_⟩
      · intro hmem
        have hnone := (hlookup e he).2.1 e.fnName hmem
        rw [(hlookup e he).2.2] at hnone
        cases hnone
      · intro hregistry
        obtain ⟨entries, hentries, -⟩ := (hdefines e he).registered
        rw [← hregistry, (hlookup e he).2.2] at hentries
        cases hentries
    · -- a prefix that has all of a list without repetitions is the list
      refine (reaching_isPrefixOf tools).eq_of_length_le ?_
      exact (h.of_map _).length_le_of_subset fun e he => (hbound e he).1
  · rintro ⟨hfree, hreaching⟩ e he
    simp only [takenNames, List.mem_append, List.mem_singleton, not_or, and_assoc] at hfree
    obtain ⟨hreserved, hown, hreadOnly, -, hlexical, -⟩ := hfree e he
    refine ⟨(hname e he).mpr hreserved, hown, ?_, call_eq_some_iff.mpr ⟨hlexical,
      lookup_callNames fun e' he' => (hfree e' he').2.2.2.1,
      (lookup_eq_tool_iff h he).mpr ⟨by rwa [hreaching], hreadOnly⟩⟩⟩
    refine ⟨registryObject tools, ?_, ?_⟩
    · rw [lookup_of_notMem fun e' he' => (hfree e' he').2.2.2.2.2, preludeGlobals,
        List.lookup_cons_self]
    · have hproto : ∀ e ∈ tools, e.fnName ≠ "__proto__".toList := by
        intro e' he' heq
        exact (hfree e' he').2.2.1 (by rw [heq]; decide)
      refine lookup_of_mem_of_nodup ?_ ?_
      · rw [registryObject, List.map_reverse, List.nodup_reverse, List.map_map]
        exact h.sublist ((List.filter_sublist ..).map _)
      · simp only [registryObject, List.mem_reverse, List.mem_map, List.mem_filter]
        exact ⟨e, ⟨he, decide_eq_true (hproto e he)⟩, rfl⟩

end

/-! ### All tools -/

section

variable {tools : List McpTool}

lemma forall_mem_toolEntries {P : ToolEntry → Prop} :
    (∀ e ∈ toolEntries tools, P e) ↔ ∀ tool ∈ tools, P (toolEntry tool.toToolMetadata) :=
  List.forall_mem_map

lemma forall_mem_dropLast_toolEntries {P : ToolEntry → Prop} :
    (∀ e ∈ (toolEntries tools).dropLast, P e) ↔
      ∀ tool ∈ tools.dropLast, P (toolEntry tool.toToolMetadata) := by
  rw [toolEntries, ← List.map_dropLast, List.forall_mem_map]

lemma nodup_toolEntries_iff :
    ((toolEntries tools).map ToolEntry.fnName).Nodup ↔
      tools.Pairwise fun a b => ¬ Collide a.toToolMetadata.name b.toToolMetadata.name := by
  rw [toolEntries, List.map_map, List.Nodup, List.pairwise_map]
  simp only [← jsIdentifier_eq_iff]
  rfl

lemma ends_toolEntries_iff (head : Text) :
    Ends [] (generatePrelude head (toolEntries tools)) ↔ ∀ tool ∈ tools,
      (∀ c ∈ tool.name, Ordinary c) ∧ ∀ c ∈ tool.description, isLineBreak c = false := by
  rw [ends_generatePrelude, forall_mem_toolEntries]
  exact forall₂_congr fun tool _ => and_congr_left' ordinary_toolId_iff

lemma loads_toolEntries_iff :
    Loads (toolEntries tools) ↔
      ∀ tool ∈ tools, '\x00' ∉ tool.name ∧ '\x00' ∉ tool.description := by
  rw [loads_iff, forall_mem_toolEntries]
  · exact forall₂_congr fun tool _ => and_congr_left' nul_notMem_toolId_iff
  · rw [forall_mem_toolEntries]
    exact fun tool _ => nul_notMem_jsIdentifier _

/-- Every tool can be called under its own name exactly if the names have different identifiers,
none of them in use, and the ids and descriptions stay in their literals. -/
theorem definesAll_iff (head : Text) (tools : List McpTool) :
    DefinesAll head tools ↔ HaveOwnNames tools := by
  have hdefines (hdistinct : ((toolEntries tools).map ToolEntry.fnName).Nodup) :
      (∀ e ∈ toolEntries tools, Defines (toolEntries tools) e) ↔
        (∀ tool ∈ tools, ∀ word ∈ takenNames, ¬ Collide tool.toToolMetadata.name word) ∧
          ∀ tool ∈ tools.dropLast, ¬ Collide tool.toToolMetadata.name globalObject := by
    rw [defines_iff hdistinct, forall_mem_toolEntries, forall_mem_dropLast_toolEntries]
    · simp only [← jsIdentifier_notMem_iff jsIdentifier_takenNames,
        ← jsIdentifier_eq_globalObject_iff]
      rfl
    · rw [forall_mem_toolEntries]
      exact fun tool _ => isIdentifier_jsIdentifier_iff _
  constructor
  · intro h
    obtain ⟨hfree, hobject⟩ := (hdefines h.distinct).mp h.defines
    have hintact := (ends_toolEntries_iff head).mp h.intact
    exact ⟨nodup_toolEntries_iff.mp h.distinct, hfree, hobject,
      fun tool htool => (hintact tool htool).1, fun tool htool => (hintact tool htool).2,
      loads_toolEntries_iff.mp h.loads⟩
  · intro h
    have hdistinct := nodup_toolEntries_iff.mpr h.apart
    have hintact := fun tool htool => And.intro (h.ordinary tool htool) (h.lines tool htool)
    exact ⟨(ends_toolEntries_iff head).mpr hintact, loads_toolEntries_iff.mpr h.nul, hdistinct,
      (hdefines hdistinct).mpr ⟨h.free, h.object⟩⟩

end

/-- A tool without a description, parameters and constraints. -/
def plainTool (name : String) : McpTool :=
  { name := name.toList, description := [], params := [], constraints := [] }

/-- `stripe:search` and `notion:search` have one global. -/
theorem not_definesAll :
    ¬ ∀ (head : Text) (tools : List McpTool), (tools.map McpTool.name).Nodup →
      DefinesAll head tools := by
  intro h
  have hall := h [] [plainTool "stripe:search", plainTool "notion:search"] (by decide)
  exact absurd hall.distinct (by decide +kernel)

end AmlaSandbox.Stubs
