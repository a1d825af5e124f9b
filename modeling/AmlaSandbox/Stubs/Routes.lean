import AmlaSandbox.Stubs.Globals
import AmlaSandbox.Tools.Catalog

/-!
# Routes to a tool

The method that the host receives when a tool is called by the shell's `tool` command, by the
global function of the prelude, or through the generated stub.
-/

namespace AmlaSandbox.Stubs

open Json Library JsText Text Tools

/-! ### The catalog -/

/-- The category of a provider's tools. -/
def category (provider : Text) : Option Text :=
  match String.ofList provider with
  | "stripe" => some "payments".toList
  | "notion" | "google_docs" | "google_drive" => some "productivity".toList
  | "github" | "gitlab" | "bitbucket" => some "development".toList
  | "postgres" | "mysql" | "mongodb" => some "database".toList
  | "s3" | "gcs" | "azure_blob" => some "storage".toList
  | "slack" | "discord" | "teams" => some "communication".toList
  | "openai" | "anthropic" | "cohere" => some "ai".toList
  | "filesystem" => some "filesystem".toList
  | _ => none

/-- Convert an MCP tool to a `ToolDef` for the catalog. -/
def mcpToolToToolDef (tool : McpTool) : ToolDef :=
  { name := tool.name
    description := tool.description
    parameters := tool.params.map fun p =>
      ⟨p.name, .fromText p.paramType, p.description, p.required, none⟩
    category := category tool.toToolMetadata.provider
    keywords := []
    embedding := none }

/-! ### The routes -/

/-- The method under which the host is asked for a tool of the catalog. -/
def methodName (name : Text) : Text := if ':' ∈ name then name else "mcp:".toList ++ name

/-- The method of `tool <name>`; what starts with a dash is an option. -/
def toolCommand {F : Type} (catalog : ToolCatalog F) (name : Text) : Option Text :=
  if name.head? = some '-' then none else (catalog.get name).map (methodName ·.name)

/-- The prelude is read as it was generated, and its global for the tool calls the method. -/
structure GlobalCalls (head : Text) (tools : List McpTool) (tool : McpTool) (method : Text) :
    Prop where
  intact : Ends [] (generatePrelude head (toolEntries tools))
  loads : Loads (toolEntries tools)
  identifier : IsIdentifier (toolEntry tool.toToolMetadata).fnName
  calls : call (globalsAfter (toolEntries tools)) (toolEntry tool.toToolMetadata).fnName =
    some method

/-- Names that are reserved in a module only. -/
def strictWords : List Text :=
  ["let", "static", "implements", "interface", "package", "private", "protected", "public",
    "eval", "arguments"].map String.toList

/-- A file calls the method: what comes before the call ends where it should, and so does the
literal, which stands for the method. -/
def Calls (rest : Text) (method : List ℕ) : List Fragment → Prop
  | [] => False
  | .toolCall _ body :: fragments =>
    literalRest (body ++ ['"'] ++ (render fragments ++ rest)) =
      some (method, render fragments ++ rest)
  | fragment :: fragments =>
    fragment.Ends (render fragments ++ rest) ∧ Calls rest method fragments

/-- The function that the generated module exports calls the method. -/
structure StubCalls (debug : Value → String) (tool : McpTool) (method : Text) : Prop where
  identifier : IsIdentifier (jsIdentifier tool.toToolMetadata.name)
  strict : jsIdentifier tool.toToolMetadata.name ∉ strictWords
  calls : Calls [] (units method) (generateJsStub debug tool.toToolMetadata)

section

variable (F : Type) [Field F] (toLowercase : Text → Text) (isAlphanumeric : Char → Bool)

/-- The catalog of the runtime. -/
def catalog (tools : List McpTool) : ToolCatalog F :=
  .fromTools toLowercase isAlphanumeric (tools.map mcpToolToToolDef)

/-- The three routes to a tool call the same method. -/
def RoutesAgree (debug : Value → String) (head : Text) (tools : List McpTool) (tool : McpTool) :
    Prop :=
  ∃ method : Text,
    toolCommand (catalog F toLowercase isAlphanumeric tools) tool.name = some method ∧
      GlobalCalls head tools tool method ∧ StubCalls debug tool method

end

/-- Names that no function of a tool can have. -/
def blockedNames : List Text :=
  reservedWords ++ strictWords ++ readOnlyNames ++ callNames ++ lexicalNames

/-- The name is the same on all routes, and the texts stay in their comments and literals. -/
structure IsRoutable (debug : Value → String) (tool : McpTool) : Prop where
  dash : tool.name.head? ≠ some '-'
  dot : '.' ∉ tool.name
  ordinary : ∀ c ∈ tool.name, Ordinary c
  lines : ∀ c ∈ tool.description, isLineBreak c = false
  nul : '\x00' ∉ tool.name ∧ '\x00' ∉ tool.description
  documented : Documented debug tool.toToolMetadata
  free : ∀ word ∈ blockedNames, ¬ Collide tool.toToolMetadata.name word

/-- All tools are routable, those with one global have one id, and every global is assigned before
the global object is replaced. -/
structure AreRoutable (debug : Value → String) (tools : List McpTool) : Prop where
  each : ∀ tool ∈ tools, IsRoutable debug tool
  apart : ∀ a ∈ tools, ∀ b ∈ tools, Collide a.toToolMetadata.name b.toToolMetadata.name →
    a.toToolMetadata.toolId = b.toToolMetadata.toolId
  reached : ∀ tool ∈ tools, ∃ before other after, tools = before ++ other :: after ∧
    (∀ earlier ∈ before, ¬ Collide earlier.toToolMetadata.name globalObject) ∧
    Collide other.toToolMetadata.name tool.toToolMetadata.name

/-! ### Names -/

lemma notMem_normalizeToolName (name : Text) : '.' ∉ normalizeToolName name := by
  rw [normalizeToolName, List.mem_map]
  rintro ⟨c, -, hc⟩
  split_ifs at hc with hdot
  · cases hc
  · exact hdot hc

lemma normalizeToolName_of_notMem {name : Text} (h : '.' ∉ name) :
    normalizeToolName name = name := by
  rw [normalizeToolName]
  refine (List.map_congr_left fun c hc => ?_).trans (List.map_id name)
  exact if_neg (ne_of_mem_of_not_mem hc h)

lemma colon_mem_normalizeToolName {name : Text} :
    ':' ∈ normalizeToolName name ↔ ':' ∈ name ∨ '.' ∈ name := by
  rw [normalizeToolName, List.mem_map]
  constructor
  · rintro ⟨c, hc, heq⟩
    split_ifs at heq with hdot
    · exact .inr (hdot ▸ hc)
    · exact .inl (heq ▸ hc)
  · rintro (h | h)
    · exact ⟨':', h, by decide⟩
    · exact ⟨'.', h, by decide⟩

/-! ### Calls -/

section

variable {rest body : Text} {method : List ℕ}

/-- A file calls the method that its literal stands for. -/
lemma calls_append {before after : List Fragment} (h : ∀ id body, .toolCall id body ∉ before)
    (id : Text) :
    Calls rest method (before ++ .toolCall id body :: after) ↔
      Ends (render (.toolCall id body :: after) ++ rest) before ∧
        literalRest (body ++ '"' :: (render after ++ rest)) =
          some (method, render after ++ rest) := by
  induction before with
  | nil =>
    rw [List.nil_append, Calls, List.append_assoc, List.singleton_append]
    exact ⟨fun h => ⟨trivial, h⟩, fun h => h.2⟩
  | cons fragment before ih =>
    have hbefore := ih fun id body hmem => h id body (List.mem_cons_of_mem _ hmem)
    cases fragment with
    | toolCall id body => exact absurd List.mem_cons_self (h id body)
    | _ =>
      rw [List.cons_append, Calls, hbefore, ends_cons, render_append, List.append_assoc, and_assoc]
      simp

lemma calls_generateJsStub (debug : Value → String) (rest : Text) (tool : ToolMetadata) :
    ∃ after, ∀ method, Calls rest method (generateJsStub debug tool) ↔
      Documented debug tool ∧ literalRest (tool.toolId ++ '"' :: after) = some (method, after) := by
  obtain ⟨text, htext⟩ := exists_generateJsStub debug tool
  refine ⟨render [.code text] ++ rest, fun method => ?_⟩
  rw [htext, calls_append, ends_take_generateJsStub]
  intro id body hmem
  obtain ⟨_, _, _, _, htake⟩ : ∃ header module call start, (generateJsStub debug tool).take 4 =
      [.comment header, .code module, .comment call, .code start] := ⟨_, _, _, _, rfl⟩
  rw [htake] at hmem
  simp at hmem

end

/-! ### Literals -/

section

variable {s after : Text} {value : List ℕ}

/-- A value as long as its literal is the text itself. -/
lemma eq_units_of_length_eq (h : literalRest (s ++ '"' :: after) = some (value, after))
    (hlength : value.length = (units s).length) : (∀ c ∈ s, Ordinary c) ∧ value = units s := by
  obtain ⟨body, hbody, -, hordinary⟩ := literalRest_spec h
  obtain rfl := List.append_cancel_right hbody
  have hs := hordinary hlength
  rw [literalRest_eq_units_iff.mpr hs] at h
  exact ⟨hs, (Prod.ext_iff.mp (Option.some_inj.mp h)).1.symm⟩

lemma literalRest_append (hs : ∀ c ∈ s, Ordinary c) (t : Text) :
    literalRest (s ++ t) = (literalRest t).map fun r => (units s ++ r.1, r.2) := by
  induction s with
  | nil => simp
  | cons c s ih =>
    obtain ⟨hc, hs⟩ := List.forall_mem_cons.mp hs
    rw [List.cons_append, literalRest_cons hc, ih hs, Option.map_map]
    simp [Function.comp_def]

lemma exists_of_literalRest_append (hs : ∀ c ∈ s, Ordinary c) {t : Text}
    (h : literalRest (s ++ t) = some (value, after)) :
    ∃ v, literalRest t = some (v, after) ∧ value = units s ++ v := by
  rw [literalRest_append hs, Option.map_eq_some_iff] at h
  obtain ⟨⟨v, rest⟩, hv, heq⟩ := h
  obtain ⟨rfl, rfl⟩ := Prod.ext_iff.mp heq
  exact ⟨v, hv, rfl⟩

/-- A code unit that is a character below the surrogates is this character. -/
lemma exists_of_units_eq_cons {c : Char} (hc : c.toNat < 0xD800) {v : List ℕ}
    (h : units s = c.toNat :: v) : ∃ t, s = c :: t ∧ units t = v := by
  cases s with
  | nil => cases h
  | cons d t =>
    rw [units_cons, utf16, codePoint] at h
    split_ifs at h with hd
    · rw [List.singleton_append, List.cons.injEq] at h
      exact ⟨t, by rw [Char.toNat_inj.mp h.1], h.2⟩
    · rw [List.cons_append, List.cons.injEq] at h
      omega

lemma exists_of_units_eq_append {lead : Text} (hlead : ∀ c ∈ lead, c.toNat < 0xD800)
    {v : List ℕ} (h : units s = units lead ++ v) : ∃ t, s = lead ++ t ∧ units t = v := by
  induction lead generalizing s with
  | nil => exact ⟨s, rfl, h⟩
  | cons c lead ih =>
    obtain ⟨hc, hlead⟩ := List.forall_mem_cons.mp hlead
    have hunit : utf16 c = [c.toNat] := if_pos (by omega)
    rw [units_cons, hunit, List.append_assoc, List.singleton_append] at h
    obtain ⟨t, rfl, ht⟩ := exists_of_units_eq_cons hc h
    obtain ⟨u, rfl, hu⟩ := ih hlead ht
    exact ⟨u, rfl, hu⟩

end

/-! ### Agreement -/

lemma length_units_normalizeToolName (name : Text) :
    (units (normalizeToolName name)).length = (units name).length := by
  induction name with
  | nil => rfl
  | cons c name ih =>
    rw [normalizeToolName, List.map_cons, units_cons, units_cons, List.length_append,
      List.length_append]
    congr 1
    split_ifs with hc
    · rw [hc]
      rfl
    · rfl

lemma toNat_mem_units {c : Char} (hc : c.toNat < 0xD800) {s : Text} :
    c.toNat ∈ units s ↔ c ∈ s := by
  rw [units, List.mem_flatMap]
  constructor
  · rintro ⟨d, hd, hmem⟩
    rw [utf16, codePoint] at hmem
    split_ifs at hmem
    · rwa [Char.toNat_inj.mp (List.mem_singleton.mp hmem)]
    · simp only [List.mem_cons, List.not_mem_nil, or_false] at hmem
      omega
  · intro h
    exact ⟨c, h, by rw [utf16, codePoint, if_pos (by omega)]; exact List.mem_singleton_self _⟩

lemma normalizeToolName_cons (c : Char) (name : Text) :
    normalizeToolName (c :: name) = (if c = '.' then ':' else c) :: normalizeToolName name := rfl

/-- What normalizes to the default provider begins with it and a dot, or has a colon. -/
lemma exists_of_normalizeToolName_eq {name t : Text} (hcolon : ':' ∉ name)
    (h : normalizeToolName name = "mcp:".toList ++ t) :
    ∃ rest, name = "mcp.".toList ++ rest ∧ normalizeToolName rest = t := by
  have letter {c d : Char} (hd : d ≠ ':') (h : (if c = '.' then ':' else c) = d) : c = d := by
    split_ifs at h with hc
    · exact absurd h.symm hd
    · exact h
  match name, hcolon, h with
  | m :: c :: p :: d :: rest, hcolon, h =>
    simp only [normalizeToolName_cons, String.reduceToList, List.cons_append, List.nil_append,
      List.cons.injEq] at h
    obtain ⟨hm, hc, hp, hd, hrest⟩ := h
    obtain rfl := letter (by decide) hm
    obtain rfl := letter (by decide) hc
    obtain rfl := letter (by decide) hp
    split_ifs at hd with hdot
    · exact ⟨rest, by rw [hdot]; rfl, hrest⟩
    · exact absurd hd (by rintro rfl; simp at hcolon)
  | [], _, h | [_], _, h | [_, _], _, h | [_, _, _], _, h => simp [normalizeToolName] at h

/-- The id of a name with a dot does not stand for the canonical name. -/
lemma dot_notMem_of_literalRest {name after : Text}
    (h : literalRest ((if ':' ∈ name then name else "mcp:".toList ++ name) ++ '"' :: after) =
      some (units (normalizeToolName name), after)) : '.' ∉ name := by
  intro hdot
  split_ifs at h with hcolon
  · obtain ⟨-, heq⟩ := eq_units_of_length_eq h (length_units_normalizeToolName name)
    rw [← toNat_mem_units (by decide), ← heq, toNat_mem_units (by decide)] at hdot
    exact notMem_normalizeToolName name hdot
  · rw [List.append_assoc] at h
    obtain ⟨v, hv, heq⟩ := exists_of_literalRest_append (List.all_iff_forall_prop.mp (by decide)) h
    obtain ⟨t, hname, rfl⟩ :=
      exists_of_units_eq_append (List.all_iff_forall_prop.mp (by decide)) heq
    obtain ⟨rest, rfl, rfl⟩ := exists_of_normalizeToolName_eq hcolon hname
    rw [List.append_assoc] at hv
    obtain ⟨w, -, hw⟩ := exists_of_literalRest_append (List.all_iff_forall_prop.mp (by decide)) hv
    have hmem : '.'.toNat ∈ units (normalizeToolName rest) := by
      rw [hw]
      exact List.mem_append_left _ (by decide)
    exact notMem_normalizeToolName rest ((toNat_mem_units (by decide)).mp hmem)

/-- The command sends the canonical name of the tool. -/
lemma toolCommand_eq {F : Type} [Field F] {toLowercase : Text → Text}
    {isAlphanumeric : Char → Bool} {tools : List McpTool} {tool : McpTool} {method : Text}
    (h : tool ∈ tools) :
    toolCommand (catalog F toLowercase isAlphanumeric tools) tool.name = some method ↔
      tool.name.head? ≠ some '-' ∧ methodName (normalizeToolName tool.name) = method := by
  obtain ⟨found, hget, hname⟩ : ∃ found : ToolDef,
      (catalog F toLowercase isAlphanumeric tools).get tool.name = some found ∧
        found.name = normalizeToolName tool.name := by
    have hrun : catalog F toLowercase isAlphanumeric tools =
        ToolCatalog.run toLowercase isAlphanumeric (tools.map mcpToolToToolDef) [] := rfl
    rw [hrun, ToolCatalog.get_run, List.append_nil]
    have hmem : ToolCatalog.canonical (mcpToolToToolDef tool) ∈
        ((tools.map mcpToolToToolDef).map ToolCatalog.canonical).reverse :=
      List.mem_reverse.mpr (List.mem_map_of_mem (List.mem_map_of_mem h))
    cases hfind : ((tools.map mcpToolToToolDef).map ToolCatalog.canonical).reverse.find?
        (·.name = normalizeToolName tool.name) with
    | some found => exact ⟨found, rfl, by simpa using List.find?_some hfind⟩
    | none => exact absurd (decide_eq_true rfl) (List.find?_eq_none.mp hfind _ hmem)
  rw [toolCommand, hget]
  split_ifs with hdash <;> simp [hdash, hname]

/-- Without a dot the canonical method is the id. -/
lemma methodName_eq_toolId {tool : McpTool} (h : '.' ∉ tool.name) :
    methodName (normalizeToolName tool.name) = tool.toToolMetadata.toolId := by
  rw [normalizeToolName_of_notMem h, toolId_toToolMetadata, methodName]

/-! ### Globals -/

lemma jsIdentifier_blockedNames : ∀ word ∈ blockedNames, jsIdentifier word = word := by
  decide +kernel

/-- An assignment reaches the global object if none before it replaces this. -/
lemma mem_reaching_iff {entries : List ToolEntry} {e : ToolEntry} :
    e ∈ reaching entries ↔ ∃ before after, entries = before ++ e :: after ∧
      ∀ earlier ∈ before, earlier.fnName ≠ globalObject := by
  induction entries with
  | nil => simp [reaching]
  | cons d entries ih =>
    rw [reaching, List.mem_cons]
    constructor
    · rintro (rfl | hmem)
      · exact ⟨[], entries, rfl, List.forall_mem_nil _⟩
      · split_ifs at hmem with hd
        · exact absurd hmem List.not_mem_nil
        · obtain ⟨before, after, rfl, hbefore⟩ := ih.mp hmem
          exact ⟨d :: before, after, rfl, List.forall_mem_cons.mpr ⟨hd, hbefore⟩⟩
    · rintro ⟨before, after, heq, hbefore⟩
      cases before with
      | nil => exact .inl (List.cons.inj heq).1.symm
      | cons d' before =>
        obtain ⟨rfl, rfl⟩ := List.cons.inj heq
        obtain ⟨hd, hbefore⟩ := List.forall_mem_cons.mp hbefore
        rw [if_neg hd]
        exact .inr (ih.mpr ⟨before, after, rfl, hbefore⟩)

lemma exists_reaching_iff {tools : List McpTool} {name : Text} :
    (∃ e ∈ reaching (toolEntries tools), e.fnName = jsIdentifier name) ↔
      ∃ before other after, tools = before ++ other :: after ∧
        (∀ earlier ∈ before, ¬ Collide earlier.toToolMetadata.name globalObject) ∧
        Collide other.toToolMetadata.name name := by
  simp only [mem_reaching_iff, toolEntries, ← jsIdentifier_eq_globalObject_iff]
  simp only [← jsIdentifier_eq_iff]
  constructor
  · rintro ⟨e, ⟨before, after, heq, hbefore⟩, hname⟩
    obtain ⟨before, after', rfl, rfl, hafter⟩ := List.map_eq_append_iff.mp heq
    obtain ⟨other, after, rfl, rfl, rfl⟩ := List.map_eq_cons_iff.mp hafter
    exact ⟨before, other, after, rfl, fun t ht => hbefore _ (List.mem_map_of_mem ht), hname⟩
  · rintro ⟨before, other, after, rfl, hbefore, hname⟩
    refine ⟨toolEntry other.toToolMetadata, ⟨toolEntries before, toolEntries after, ?_, ?_⟩, hname⟩
    · rw [List.map_append, List.map_cons, toolEntries, toolEntries]
    · exact forall_mem_toolEntries.mpr hbefore

section

variable {F : Type} [Field F] {toLowercase : Text → Text} {isAlphanumeric : Char → Bool}
  {debug : Value → String} {head : Text} {tools : List McpTool} {tool : McpTool} {method : Text}

/-- The method is the id. -/
lemma eq_toolId_of_calls (hmethod : methodName (normalizeToolName tool.name) = method)
    (h : StubCalls debug tool method) : '.' ∉ tool.name ∧ method = tool.toToolMetadata.toolId := by
  obtain ⟨after, hstub⟩ := calls_generateJsStub debug [] tool.toToolMetadata
  have hliteral := ((hstub _).mp h.calls).2
  have hdot : '.' ∉ tool.name := by
    by_contra hdot
    rw [← hmethod, methodName, if_pos (colon_mem_normalizeToolName.mpr (.inr hdot)),
      toolId_toToolMetadata] at hliteral
    exact dot_notMem_of_literalRest hliteral hdot
  exact ⟨hdot, hmethod.symm.trans (methodName_eq_toolId hdot)⟩

lemma isRoutable_of_routesAgree (htool : tool ∈ tools)
    (h : RoutesAgree F toLowercase isAlphanumeric debug head tools tool) :
    IsRoutable debug tool ∧
      call (globalsAfter (toolEntries tools)) (jsIdentifier tool.toToolMetadata.name) =
        some tool.toToolMetadata.toolId := by
  obtain ⟨method, hcommand, hglobal, hstub⟩ := h
  obtain ⟨hdash, hmethod⟩ := (toolCommand_eq htool).mp hcommand
  obtain ⟨hordinary, hlines⟩ := (ends_toolEntries_iff head).mp hglobal.intact tool htool
  obtain ⟨hdot, rfl⟩ := eq_toolId_of_calls hmethod hstub
  obtain ⟨after, hcalls⟩ := calls_generateJsStub debug [] tool.toToolMetadata
  obtain ⟨hlexical, hused, hlookup⟩ := call_eq_some_iff.mp hglobal.calls
  refine ⟨⟨hdash, hdot, hordinary, hlines, loads_toolEntries_iff.mp hglobal.loads tool htool,
    ((hcalls _).mp hstub.calls).1, ?_⟩, hglobal.calls⟩
  rw [← jsIdentifier_notMem_iff jsIdentifier_blockedNames]
  simp only [blockedNames, List.mem_append, not_or, and_assoc]
  refine ⟨hstub.identifier.free, hstub.strict, (exists_of_lookup_eq_tool hlookup).1, ?_, hlexical⟩
  intro hmem
  exact absurd ((hused _ hmem).symm.trans hlookup) (Option.some_ne_none _).symm

end

end AmlaSandbox.Stubs
