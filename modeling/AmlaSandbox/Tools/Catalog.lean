import AmlaSandbox.Json.Value
import AmlaSandbox.Text.Utf8
import Mathlib.Algebra.Order.Field.Basic
import Mathlib.Analysis.SpecialFunctions.Log.Basic
import Mathlib.Data.List.AList
import Mathlib.Data.List.Sort

/-!
# The tool catalog

The catalog keeps its tools with an inverted index of their words. The index is kept up to date when
a tool is added, but the average length of the documents is only computed when a catalog is built.
-/

namespace AmlaSandbox.Tools

open Text

/-! ### Tools -/

inductive ParamType
  | string
  | integer
  | number
  | boolean
  | array
  | object
deriving DecidableEq

structure ParamDef where
  name : Text
  paramType : ParamType
  description : Text
  required : Bool
  default : Option Json.Value
deriving DecidableEq

structure ToolDef where
  name : Text
  description : Text
  parameters : List ParamDef
  category : Option Text
  keywords : List Text
  /-- The numbers are the bits of `f32`s. -/
  embedding : Option (List (BitVec 32))
deriving DecidableEq

/-- Normalize a tool name to the canonical format with colon separators. -/
def normalizeToolName (name : Text) : Text := name.map fun c => if c = '.' then ':' else c

/-- `ParamType::from` a text. -/
def ParamType.fromText (s : Text) : ParamType :=
  match String.ofList s with
  | "integer" => integer
  | "number" => number
  | "boolean" => boolean
  | "array" => array
  | "object" => object
  | _ => string

def ParamType.text : ParamType → Text
  | string => "string".toList
  | integer => "integer".toList
  | number => "number".toList
  | boolean => "boolean".toList
  | array => "array".toList
  | object => "object".toList

def ParamDef.searchableText (param : ParamDef) : Text :=
  ' ' :: param.name ++ ' ' :: param.paramType.text ++
    ' ' :: (if param.required then "required".toList else "optional".toList) ++
      ' ' :: param.description

/-- The text that is indexed. -/
def ToolDef.searchableText (tool : ToolDef) : Text :=
  tool.name.map (fun c => if c = ':' then ' ' else c) ++ ' ' :: tool.description ++
    tool.parameters.flatMap ParamDef.searchableText ++
    (match tool.category with
    | some category => ' ' :: category
    | none => []) ++ tool.keywords.flatMap (' ' :: ·)

/-! ### The catalog -/

/-- `F` are the numbers of the scores. -/
structure ToolCatalog (F : Type) where
  tools : List ToolDef
  nameToIdx : AList fun _ : Text => ℕ
  /-- The tools in which a term occurs, with how often it does. -/
  invertedIndex : AList fun _ : Text => List (ℕ × ℕ)
  docLengths : List ℕ
  avgDocLength : F
  docFreq : AList fun _ : Text => ℕ

structure SearchResult (F : Type) where
  tool : ToolDef
  score : F

section

-- `str::to_lowercase`, `char::is_alphanumeric`, and `f64::ln`
variable {F : Type} [Field F] [LinearOrder F]
variable (toLowercase : Text → Text) (isAlphanumeric : Char → Bool) (ln : F → F)

/-- Tokenize a text into lowercase terms. -/
def tokenize (text : Text) : List Text :=
  ((toLowercase text).splitOnP fun c => !isAlphanumeric c && c ≠ '_').filter
    fun s => 1 < (utf8 s).length

/-- How often each token occurs. -/
def termFreqs (tokens : List Text) : AList fun _ : Text => ℕ :=
  tokens.foldl (fun freqs token => freqs.insert token ((freqs.lookup token).getD 0 + 1)) ∅

namespace ToolCatalog

/-- An empty catalog. -/
def new : ToolCatalog F := ⟨[], ∅, ∅, [], 0, ∅⟩

/-- The loop over the terms of a tool: its postings, and the numbers of documents. -/
def addTerms (idx : ℕ) (freqs : List ((_ : Text) × ℕ))
    (index : (AList fun _ : Text => List (ℕ × ℕ)) × AList fun _ : Text => ℕ) :
    (AList fun _ : Text => List (ℕ × ℕ)) × AList fun _ : Text => ℕ :=
  freqs.foldl (fun index freq =>
    (index.1.insert freq.1 ((index.1.lookup freq.1).getD [] ++ [(idx, freq.2)]),
      index.2.insert freq.1 ((index.2.lookup freq.1).getD 0 + 1))) index

/-- Add a tool and index it. -/
def addTool (catalog : ToolCatalog F) (tool : ToolDef) : ToolCatalog F :=
  let tool := { tool with name := normalizeToolName tool.name }
  let idx := catalog.tools.length
  let tokens := tokenize toLowercase isAlphanumeric tool.searchableText
  let index := addTerms idx (termFreqs tokens).entries (catalog.invertedIndex, catalog.docFreq)
  { catalog with
    docLengths := catalog.docLengths ++ [tokens.length]
    invertedIndex := index.1
    docFreq := index.2
    nameToIdx := catalog.nameToIdx.insert tool.name idx
    tools := catalog.tools ++ [tool] }

def computeStatistics (catalog : ToolCatalog F) : ToolCatalog F :=
  if catalog.docLengths ≠ [] then
    { catalog with avgDocLength := (catalog.docLengths.sum : F) / catalog.docLengths.length }
  else catalog

/-- Build a catalog from tool definitions. -/
def fromTools (tools : List ToolDef) : ToolCatalog F :=
  (tools.foldl (addTool toLowercase isAlphanumeric) new).computeStatistics

variable (catalog : ToolCatalog F)

/-- What a token of the query adds to the score of a document. -/
def tokenScore (docIdx : ℕ) (token : Text) : F :=
  match (catalog.invertedIndex.lookup token).bind (·.find? (·.1 = docIdx)) with
  | some (_, tf) =>
    let n : F := catalog.tools.length
    let docLen : F := (catalog.docLengths[docIdx]?.getD 0 : ℕ)
    let tf : F := tf
    let df : F := ((catalog.docFreq.lookup token).getD 1 : ℕ)
    let idf := ln ((n - df + 1 / 2) / (df + 1 / 2) + 1)
    let tfNorm := (tf * (6 / 5 + 1)) /
      (tf + 6 / 5 * (1 - 3 / 4 + 3 / 4 * docLen / max catalog.avgDocLength 1))
    idf * tfNorm
  | none => 0

/-- BM25 keyword search. -/
def searchBm25 (query : Text) (limit : ℕ) : List (SearchResult F) :=
  let queryTokens := tokenize toLowercase isAlphanumeric query
  let scores := (List.range catalog.tools.length).filterMap fun docIdx =>
    let score := queryTokens.foldl (fun score token => score + tokenScore ln catalog docIdx token) 0
    if 0 < score then some (docIdx, score) else none
  ((scores.mergeSort fun a b => b.2 ≤ a.2).take limit).filterMap fun (idx, score) =>
    catalog.tools[idx]?.map fun tool => ⟨tool, score⟩

/-- Get a tool by its name. -/
def get (name : Text) : Option ToolDef :=
  (catalog.nameToIdx.lookup (normalizeToolName name)).bind (catalog.tools[·]?)

/-- List all tools. -/
def list : List ToolDef := catalog.tools

/-! ### What should be in the catalog -/

def postings (term : Text) : List (ℕ × ℕ) := (catalog.invertedIndex.lookup term).getD []

def frequency (term : Text) : ℕ := (catalog.docFreq.lookup term).getD 0

/-- How often the term occurs in the text of the tool. -/
def occurrences (term : Text) (tool : ToolDef) : ℕ :=
  (tokenize toLowercase isAlphanumeric tool.searchableText).count term

/-- The tool under its canonical name. -/
def canonical (tool : ToolDef) : ToolDef := { tool with name := normalizeToolName tool.name }

def tokenCount (tool : ToolDef) : ℕ :=
  (tokenize toLowercase isAlphanumeric tool.searchableText).length

/-- The index is that of the tools. -/
structure IsIndexed : Prop where
  nodup : ∀ term, ((catalog.postings term).map Prod.fst).Nodup
  mem_iff : ∀ term i f, (i, f) ∈ catalog.postings term ↔ ∃ tool, catalog.tools[i]? = some tool ∧
    f = occurrences toLowercase isAlphanumeric term tool ∧ 0 < f
  frequency : ∀ term, catalog.frequency term = (catalog.postings term).length
  docLengths : catalog.docLengths = catalog.tools.map (tokenCount toLowercase isAlphanumeric)

end ToolCatalog

end

/-! ### Terms -/

section

variable {tokens : List Text} {term : Text} {freqs : AList fun _ : Text => ℕ}

lemma lookup_foldl_termFreqs :
    (tokens.foldl (fun freqs token => freqs.insert token ((freqs.lookup token).getD 0 + 1))
      freqs).lookup term =
      if term ∈ tokens then some ((freqs.lookup term).getD 0 + tokens.count term)
      else freqs.lookup term := by
  induction tokens generalizing freqs with
  | nil => rfl
  | cons token tokens ih =>
    rw [List.foldl_cons, ih]
    by_cases heq : term = token
    · subst heq
      rw [AList.lookup_insert, Option.getD_some, if_pos List.mem_cons_self, List.count_cons_self]
      split_ifs with hmem
      · rw [Nat.add_assoc, Nat.add_comm 1]
      · rw [List.count_eq_zero.mpr hmem]
    · have hmem : term ∈ token :: tokens ↔ term ∈ tokens := by simp [heq]
      rw [AList.lookup_insert_ne heq, List.count_cons_of_ne (Ne.symm heq)]
      simp only [hmem]

lemma lookup_termFreqs (tokens : List Text) (term : Text) : (termFreqs tokens).lookup term =
    if term ∈ tokens then some (tokens.count term) else none := by
  rw [termFreqs, lookup_foldl_termFreqs]
  simp

lemma lookup_addTerms {entries : List ((_ : Text) × ℕ)} (h : entries.NodupKeys) (idx : ℕ)
    (index : (AList fun _ : Text => List (ℕ × ℕ)) × AList fun _ : Text => ℕ) (term : Text) :
    ((ToolCatalog.addTerms idx entries index).1.lookup term).getD [] =
        (index.1.lookup term).getD [] ++
          ((entries.dlookup term).map fun f => (idx, f)).toList ∧
      ((ToolCatalog.addTerms idx entries index).2.lookup term).getD 0 =
        (index.2.lookup term).getD 0 + (entries.dlookup term).toList.length := by
  induction entries generalizing index with
  | nil => simp [ToolCatalog.addTerms]
  | cons entry entries ih =>
    obtain ⟨hnot, hentries⟩ := List.nodupKeys_cons.mp h
    obtain ⟨hpostings, hfrequency⟩ := ih hentries
      (index.1.insert entry.1 ((index.1.lookup entry.1).getD [] ++ [(idx, entry.2)]),
        index.2.insert entry.1 ((index.2.lookup entry.1).getD 0 + 1))
    rw [ToolCatalog.addTerms, List.foldl_cons, ← ToolCatalog.addTerms, hpostings, hfrequency]
    by_cases heq : term = entry.1
    · subst heq
      have hnone : entries.dlookup entry.1 = none := List.dlookup_eq_none.mpr hnot
      rw [AList.lookup_insert, AList.lookup_insert, hnone, List.dlookup_cons_eq]
      simp
    · rw [AList.lookup_insert_ne heq, AList.lookup_insert_ne heq, List.dlookup_cons_ne _ _ heq]
      exact ⟨rfl, rfl⟩

end

/-! ### What a tool adds -/

namespace ToolCatalog

section

variable {F : Type} {toLowercase : Text → Text} {isAlphanumeric : Char → Bool}
  {catalog : ToolCatalog F} {tool : ToolDef} {name : Text} {initial added tools : List ToolDef}

lemma dlookup_termFreqs (term : Text) (tool : ToolDef) :
    (termFreqs (tokenize toLowercase isAlphanumeric tool.searchableText)).entries.dlookup term =
      if 0 < occurrences toLowercase isAlphanumeric term tool then
        some (occurrences toLowercase isAlphanumeric term tool)
      else none := by
  have hlookup := lookup_termFreqs (tokenize toLowercase isAlphanumeric tool.searchableText) term
  rw [occurrences]
  simp only [List.count_pos_iff]
  exact hlookup

lemma postings_addTool (term : Text) :
    (catalog.addTool toLowercase isAlphanumeric tool).postings term =
      catalog.postings term ++
        if 0 < occurrences toLowercase isAlphanumeric term (canonical tool) then
          [(catalog.tools.length, occurrences toLowercase isAlphanumeric term (canonical tool))]
        else [] := by
  have hadd := (lookup_addTerms (termFreqs (tokenize toLowercase isAlphanumeric
    (canonical tool).searchableText)).nodupKeys catalog.tools.length
    (catalog.invertedIndex, catalog.docFreq) term).1
  rw [dlookup_termFreqs] at hadd
  refine hadd.trans ?_
  split_ifs <;> rfl

lemma frequency_addTool (term : Text) :
    (catalog.addTool toLowercase isAlphanumeric tool).frequency term =
      catalog.frequency term +
        if 0 < occurrences toLowercase isAlphanumeric term (canonical tool) then 1 else 0 := by
  have hadd := (lookup_addTerms (termFreqs (tokenize toLowercase isAlphanumeric
    (canonical tool).searchableText)).nodupKeys catalog.tools.length
    (catalog.invertedIndex, catalog.docFreq) term).2
  rw [dlookup_termFreqs] at hadd
  refine hadd.trans ?_
  split_ifs <;> rfl

/-- A tool is indexed when it is added. -/
lemma IsIndexed.addTool (h : catalog.IsIndexed toLowercase isAlphanumeric) :
    (catalog.addTool toLowercase isAlphanumeric tool).IsIndexed toLowercase isAlphanumeric := by
  have htools : (catalog.addTool toLowercase isAlphanumeric tool).tools =
      catalog.tools ++ [canonical tool] := rfl
  refine ⟨fun term => ?_, fun term i f => ?_, fun term => ?_, ?_⟩
  · rw [postings_addTool, List.map_append]
    split_ifs with hpos
    · refine List.nodup_append.mpr ⟨h.nodup term, List.nodup_singleton _, ?_⟩
      rintro i hi j hj rfl
      obtain ⟨⟨k, f⟩, hmem, rfl⟩ := List.mem_map.mp hi
      obtain ⟨tool', hget, -⟩ := (h.mem_iff term k f).mp hmem
      have hlt := (List.getElem?_eq_some_iff.mp hget).1
      simp at hj
      omega
    · rw [List.map_nil, List.append_nil]
      exact h.nodup term
  · rw [postings_addTool, List.mem_append, h.mem_iff, htools]
    constructor
    · rintro (⟨tool', hget, hf, hpos⟩ | hmem)
      · exact ⟨tool', by rw [List.getElem?_append_left (List.getElem?_eq_some_iff.mp hget).1, hget],
          hf, hpos⟩
      · split_ifs at hmem with hpos
        · obtain ⟨rfl, rfl⟩ := Prod.mk.inj (List.mem_singleton.mp hmem)
          exact ⟨canonical tool, List.getElem?_concat_length .., rfl, hpos⟩
        · exact absurd hmem List.not_mem_nil
    · rintro ⟨tool', hget, hf, hpos⟩
      obtain hlt | heq := Nat.lt_or_eq_of_le (Nat.le_of_lt_succ
        (by simpa using (List.getElem?_eq_some_iff.mp hget).1) : i ≤ catalog.tools.length)
      · rw [List.getElem?_append_left hlt] at hget
        exact .inl ⟨tool', hget, hf, hpos⟩
      · rw [heq, List.getElem?_concat_length] at hget
        obtain rfl := Option.some.inj hget
        rw [hf] at hpos
        refine .inr ?_
        rw [if_pos hpos, heq, hf]
        exact List.mem_singleton_self _
  · rw [frequency_addTool, postings_addTool, h.frequency, List.length_append]
    split_ifs <;> rfl
  · have hlengths : (catalog.addTool toLowercase isAlphanumeric tool).docLengths =
        catalog.docLengths ++ [tokenCount toLowercase isAlphanumeric (canonical tool)] := rfl
    rw [hlengths, htools, h.docLengths, List.map_append]
    rfl

/-- A name leads to the last tool with this name. -/
structure IsNamed (catalog : ToolCatalog F) : Prop where
  lt : ∀ name i, catalog.nameToIdx.lookup name = some i → i < catalog.tools.length
  find : ∀ name, (catalog.nameToIdx.lookup name).bind (catalog.tools[·]?) =
    catalog.tools.reverse.find? (·.name = name)

lemma IsNamed.addTool (h : catalog.IsNamed) :
    (catalog.addTool toLowercase isAlphanumeric tool).IsNamed := by
  have htools : (catalog.addTool toLowercase isAlphanumeric tool).tools =
      catalog.tools ++ [canonical tool] := rfl
  have hnames : (catalog.addTool toLowercase isAlphanumeric tool).nameToIdx =
      catalog.nameToIdx.insert (canonical tool).name catalog.tools.length := rfl
  refine ⟨fun name i hi => ?_, fun name => ?_⟩
  · rw [htools, List.length_append, List.length_singleton]
    rw [hnames] at hi
    by_cases heq : name = (canonical tool).name
    · rw [heq, AList.lookup_insert] at hi
      have hi := Option.some.inj hi
      omega
    · rw [AList.lookup_insert_ne heq] at hi
      have hlt := h.lt name i hi
      omega
  · rw [htools, hnames, List.reverse_concat, List.find?_cons]
    by_cases heq : name = (canonical tool).name
    · rw [heq, AList.lookup_insert, decide_eq_true rfl]
      exact List.getElem?_concat_length ..
    · rw [AList.lookup_insert_ne heq, decide_eq_false (Ne.symm heq), ← h.find]
      cases hlookup : catalog.nameToIdx.lookup name with
      | none => rfl
      | some i => exact List.getElem?_append_left (h.lt name i hlookup)

lemma tools_foldl (tools : List ToolDef) (catalog : ToolCatalog F) :
    (tools.foldl (addTool toLowercase isAlphanumeric) catalog).tools =
      catalog.tools ++ tools.map canonical := by
  induction tools generalizing catalog with
  | nil => exact (List.append_nil _).symm
  | cons tool tools ih =>
    rw [List.foldl_cons, ih, List.map_cons, ← List.singleton_append, ← List.append_assoc]
    rfl

lemma isIndexed_foldl (tools : List ToolDef) (h : catalog.IsIndexed toLowercase isAlphanumeric) :
    (tools.foldl (addTool toLowercase isAlphanumeric) catalog).IsIndexed toLowercase
      isAlphanumeric := by
  induction tools generalizing catalog with
  | nil => exact h
  | cons tool tools ih => exact ih h.addTool

lemma isNamed_foldl (tools : List ToolDef) (h : catalog.IsNamed) :
    (tools.foldl (addTool toLowercase isAlphanumeric) catalog).IsNamed := by
  induction tools generalizing catalog with
  | nil => exact h
  | cons tool tools ih => exact ih h.addTool

/-- Only the average length depends on when it is computed. -/
lemma foldl_avgDocLength (tools : List ToolDef) (avg : F) (catalog : ToolCatalog F) :
    tools.foldl (addTool toLowercase isAlphanumeric) { catalog with avgDocLength := avg } =
      { tools.foldl (addTool toLowercase isAlphanumeric) catalog with avgDocLength := avg } := by
  induction tools generalizing catalog with
  | nil => rfl
  | cons tool tools ih => exact ih (catalog.addTool toLowercase isAlphanumeric tool)

end

/-! ### Runs -/

section

variable {F : Type} [Field F] {toLowercase : Text → Text} {isAlphanumeric : Char → Bool}
  {initial added tools : List ToolDef}

/-- Tools are added to a catalog that was built from others. From no tools it is a new one. -/
def run (toLowercase : Text → Text) (isAlphanumeric : Char → Bool)
    (initial added : List ToolDef) : ToolCatalog F :=
  added.foldl (addTool toLowercase isAlphanumeric) (fromTools toLowercase isAlphanumeric initial)

/-- How many tokens the tools have. -/
def total (toLowercase : Text → Text) (isAlphanumeric : Char → Bool) (tools : List ToolDef) : ℕ :=
  (tools.map fun tool => tokenCount toLowercase isAlphanumeric (canonical tool)).sum

/-- The mean for some tools, as it is computed when a catalog is built. -/
def mean (toLowercase : Text → Text) (isAlphanumeric : Char → Bool) (tools : List ToolDef) : F :=
  total toLowercase isAlphanumeric tools / tools.length

/-- A catalog with all tools and no statistics. -/
def indexed (toLowercase : Text → Text) (isAlphanumeric : Char → Bool) (tools : List ToolDef) :
    ToolCatalog F :=
  tools.foldl (addTool toLowercase isAlphanumeric) new

lemma tools_indexed :
    (indexed toLowercase isAlphanumeric tools : ToolCatalog F).tools = tools.map canonical := by
  rw [indexed, tools_foldl]
  rfl

lemma isIndexed_indexed : (indexed toLowercase isAlphanumeric tools : ToolCatalog F).IsIndexed
    toLowercase isAlphanumeric := by
  refine isIndexed_foldl tools ⟨fun _ => List.nodup_nil, fun term i f => ?_, fun _ => rfl, rfl⟩
  constructor
  · intro hmem
    exact absurd hmem List.not_mem_nil
  · rintro ⟨tool, hget, -⟩
    exact absurd (List.mem_of_getElem? hget) List.not_mem_nil

lemma isNamed_indexed : (indexed toLowercase isAlphanumeric tools : ToolCatalog F).IsNamed := by
  refine isNamed_foldl tools ⟨fun name i hlookup => ?_, fun _ => rfl⟩
  rw [new, AList.lookup_empty] at hlookup
  cases hlookup

lemma sum_docLengths_indexed :
    (indexed toLowercase isAlphanumeric tools : ToolCatalog F).docLengths.sum =
      total toLowercase isAlphanumeric tools := by
  rw [isIndexed_indexed.docLengths, tools_indexed, List.map_map]
  rfl

lemma length_docLengths_indexed :
    (indexed toLowercase isAlphanumeric tools : ToolCatalog F).docLengths.length =
      tools.length := by
  rw [isIndexed_indexed.docLengths, tools_indexed, List.length_map, List.length_map]

lemma fromTools_eq : (fromTools toLowercase isAlphanumeric tools : ToolCatalog F) =
    { (indexed toLowercase isAlphanumeric tools : ToolCatalog F) with
      avgDocLength := mean toLowercase isAlphanumeric tools } := by
  rw [fromTools, ← indexed, computeStatistics, sum_docLengths_indexed, length_docLengths_indexed]
  split_ifs with hne
  · rfl
  · have hlength : (indexed toLowercase isAlphanumeric tools : ToolCatalog F).docLengths.length =
      tools.length := length_docLengths_indexed
    rw [not_not.mp hne] at hlength
    obtain rfl := List.length_eq_zero_iff.mp hlength.symm
    have hmean : (mean toLowercase isAlphanumeric [] : F) = 0 := by simp [mean]
    rw [hmean]
    rfl

/-- A run ends with all tools, and the mean of those it has started from. -/
lemma run_eq : (run toLowercase isAlphanumeric initial added : ToolCatalog F) =
    { (indexed toLowercase isAlphanumeric (initial ++ added) : ToolCatalog F) with
      avgDocLength := mean toLowercase isAlphanumeric initial } := by
  rw [run, fromTools_eq, foldl_avgDocLength, indexed, ← List.foldl_append]
  rfl

lemma run_eq_fromTools (h : (mean toLowercase isAlphanumeric initial : F) =
    mean toLowercase isAlphanumeric (initial ++ added)) :
    (run toLowercase isAlphanumeric initial added : ToolCatalog F) =
      fromTools toLowercase isAlphanumeric (initial ++ added) := by
  rw [run_eq, fromTools_eq, h]

/-! ### What is kept -/

lemma get_run (name : Text) :
    get (run toLowercase isAlphanumeric initial added : ToolCatalog F) name =
      ((initial ++ added).map canonical).reverse.find? (·.name = normalizeToolName name) := by
  rw [run_eq, get, ← @tools_indexed F _ toLowercase isAlphanumeric]
  exact isNamed_indexed.find _

lemma list_run : list (run toLowercase isAlphanumeric initial added : ToolCatalog F) =
    (initial ++ added).map canonical := by
  rw [run_eq]
  exact tools_indexed

/-- The tools that are added later have as many tokens on the average as those before. -/
def MeanKept (toLowercase : Text → Text) (isAlphanumeric : Char → Bool)
    (initial added : List ToolDef) : Prop :=
  (initial = [] → total toLowercase isAlphanumeric added = 0) ∧
    total toLowercase isAlphanumeric initial * added.length =
      total toLowercase isAlphanumeric added * initial.length

instance : Decidable (MeanKept toLowercase isAlphanumeric initial added) :=
  inferInstanceAs (Decidable (_ ∧ _))

/-- No two different tools have one name. -/
def NamesAgree (tools : List ToolDef) : Prop :=
  ∀ tool ∈ tools, ∀ tool' ∈ tools,
    normalizeToolName tool.name = normalizeToolName tool'.name → canonical tool = canonical tool'

instance : Decidable (NamesAgree tools) :=
  inferInstanceAs (Decidable (∀ tool ∈ tools, ∀ tool' ∈ tools, _ → _))

lemma total_append : total toLowercase isAlphanumeric (initial ++ added) =
    total toLowercase isAlphanumeric initial + total toLowercase isAlphanumeric added := by
  rw [total, List.map_append, List.sum_append]
  rfl

/-- A name is found under its last tool, so that tool has to be the only one. -/
lemma names_iff :
    (∀ name tool,
      get (run toLowercase isAlphanumeric initial added : ToolCatalog F) name = some tool ↔
        tool ∈ list (run toLowercase isAlphanumeric initial added : ToolCatalog F) ∧
          tool.name = normalizeToolName name) ↔
      NamesAgree (initial ++ added) := by
  simp only [get_run, list_run]
  constructor
  · intro h tool hmem tool' hmem' heq
    have hfound := (h tool.name (canonical tool)).mpr ⟨List.mem_map_of_mem hmem, rfl⟩
    have hfound' := (h tool.name (canonical tool')).mpr ⟨List.mem_map_of_mem hmem', heq.symm⟩
    exact Option.some.inj (hfound.symm.trans hfound')
  · intro h name tool
    constructor
    · intro hfound
      exact ⟨List.mem_reverse.mp (List.mem_of_find?_eq_some hfound),
        by simpa using List.find?_some hfound⟩
    · rintro ⟨hmem, hname⟩
      cases hfound : ((initial ++ added).map canonical).reverse.find?
          (·.name = normalizeToolName name) with
      | none =>
        have hnot := List.find?_eq_none.mp hfound tool (List.mem_reverse.mpr hmem)
        exact absurd (decide_eq_true hname) hnot
      | some tool' =>
        have hmem' := List.mem_reverse.mp (List.mem_of_find?_eq_some hfound)
        have hname' : tool'.name = normalizeToolName name := by simpa using List.find?_some hfound
        obtain ⟨_, hin, rfl⟩ := List.mem_map.mp hmem
        obtain ⟨_, hin', rfl⟩ := List.mem_map.mp hmem'
        rw [h _ hin' _ hin (hname'.trans hname.symm)]

variable [LinearOrder F]

/-- Adding tools gives a catalog that is as good as one built from all of them. -/
structure Maintained (toLowercase : Text → Text) (isAlphanumeric : Char → Bool) (ln : F → F)
    (initial added : List ToolDef) : Prop where
  indexed : (run toLowercase isAlphanumeric initial added : ToolCatalog F).IsIndexed toLowercase
    isAlphanumeric
  mean : (run toLowercase isAlphanumeric initial added : ToolCatalog F).avgDocLength *
      (run toLowercase isAlphanumeric initial added : ToolCatalog F).docLengths.length =
    (run toLowercase isAlphanumeric initial added : ToolCatalog F).docLengths.sum
  search : ∀ query limit,
    searchBm25 toLowercase isAlphanumeric ln (run toLowercase isAlphanumeric initial added) query
        limit =
      searchBm25 toLowercase isAlphanumeric ln
        (fromTools toLowercase isAlphanumeric (initial ++ added)) query limit
  names : ∀ name tool,
    get (run toLowercase isAlphanumeric initial added : ToolCatalog F) name = some tool ↔
      tool ∈ list (run toLowercase isAlphanumeric initial added : ToolCatalog F) ∧
        tool.name = normalizeToolName name

end

section

variable {F : Type} [Field F] [LinearOrder F] [IsStrictOrderedRing F]
  {toLowercase : Text → Text} {isAlphanumeric : Char → Bool} {initial added : List ToolDef}

lemma mean_mul_iff :
    (mean toLowercase isAlphanumeric initial : F) * (initial ++ added).length =
        total toLowercase isAlphanumeric (initial ++ added) ↔
      MeanKept toLowercase isAlphanumeric initial added := by
  rw [MeanKept, total_append, List.length_append, mean]
  cases initial with
  | nil =>
    have htotal : total toLowercase isAlphanumeric [] = 0 := rfl
    have hcast : 0 = (total toLowercase isAlphanumeric added : F) ↔
        total toLowercase isAlphanumeric added = 0 := eq_comm.trans Nat.cast_eq_zero
    rw [htotal]
    simpa using hcast
  | cons tool initial =>
    have hpos : ((tool :: initial).length : F) ≠ 0 := by
      rw [Nat.cast_ne_zero, List.length_cons]
      omega
    rw [div_mul_eq_mul_div, div_eq_iff hpos]
    norm_cast
    rw [Nat.mul_add, Nat.add_mul, Nat.add_left_cancel_iff]
    exact ⟨fun h => ⟨fun hnil => hnil.elim, h⟩, And.right⟩

lemma mean_run :
    (run toLowercase isAlphanumeric initial added : ToolCatalog F).avgDocLength *
        (run toLowercase isAlphanumeric initial added : ToolCatalog F).docLengths.length =
      (run toLowercase isAlphanumeric initial added : ToolCatalog F).docLengths.sum ↔
      MeanKept toLowercase isAlphanumeric initial added := by
  rw [← mean_mul_iff (F := F), run_eq, sum_docLengths_indexed, length_docLengths_indexed]

lemma mean_append (h : MeanKept toLowercase isAlphanumeric initial added) :
    (mean toLowercase isAlphanumeric initial : F) =
      mean toLowercase isAlphanumeric (initial ++ added) := by
  have hmul := (mean_mul_iff (F := F)).mpr h
  cases hall : initial ++ added with
  | nil => rw [(List.append_eq_nil_iff.mp hall).1]
  | cons tool tools =>
    rw [hall] at hmul
    have hpos : ((tool :: tools).length : F) ≠ 0 := by
      rw [Nat.cast_ne_zero, List.length_cons]
      omega
    exact (eq_div_iff hpos).mpr hmul

/-- The statistics are those of the tools at the start, and of two tools with one name only the
last is found. -/
theorem maintained_iff (ln : F → F) :
    Maintained toLowercase isAlphanumeric ln initial added ↔
      MeanKept toLowercase isAlphanumeric initial added ∧ NamesAgree (initial ++ added) := by
  constructor
  · intro h
    exact ⟨mean_run.mp h.mean, names_iff.mp h.names⟩
  · rintro ⟨hmean, hnames⟩
    refine ⟨?_, mean_run.mpr hmean, fun query limit => ?_, names_iff.mpr hnames⟩
    · have hindexed : (indexed toLowercase isAlphanumeric (initial ++ added) :
        ToolCatalog F).IsIndexed toLowercase isAlphanumeric := isIndexed_indexed
      rw [run_eq]
      exact ⟨hindexed.nodup, hindexed.mem_iff, hindexed.frequency, hindexed.docLengths⟩
    · rw [run_eq_fromTools (mean_append hmean)]

end

/-- A tool with one word. -/
def ping : ToolDef := ⟨"net.ping".toList, "Ping".toList, [], none, [], none⟩

/-- The same tool under its other name is added to the first one. -/
theorem maintained_ping :
    (MeanKept (·.map Char.toLower) Char.isAlphanum [ping] [canonical ping] ∧
      NamesAgree [ping, canonical ping]) ∧
      Maintained (·.map Char.toLower) Char.isAlphanum Real.log [ping] [canonical ping] :=
  have h : MeanKept (·.map Char.toLower) Char.isAlphanum [ping] [canonical ping] ∧
    NamesAgree [ping, canonical ping] := by decide +kernel
  ⟨h, (maintained_iff Real.log).mpr h⟩

/-- A tool is added to a new catalog. -/
theorem not_maintained :
    ¬ Maintained (·.map Char.toLower) Char.isAlphanum Real.log [] [ping] := fun h =>
  absurd (mean_run.mp h.mean) (by decide +kernel)

end ToolCatalog

end AmlaSandbox.Tools
