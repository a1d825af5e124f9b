import AmlaSandbox.Stubs.Place

/-!
# Tools with arbitrary names

A tool name may hold `/` and `..`, and nothing checks it before paths are made from it. What a
generation leaves alone is therefore a matter of the names of its tools.
-/

namespace AmlaSandbox.Stubs

open Constraints Json Library Protocol Text Vfs

variable {debug : Value → String} {vfs v : Vfs} {path key q : Text} {content : Text}
variable {metadata other : ToolMetadata} {tools : List ToolMetadata} {further : List (Text × Text)}

/-! ### What a generation should leave alone -/

def IsFileAt (vfs : Vfs) (path : Text) : Prop :=
  ∃ content permission, vfs.get path = some (.file content permission)

def IsDirAt (vfs : Vfs) (path : Text) : Prop :=
  ∃ permission, vfs.get path = some (.directory permission)

/-- Only entries in the place of the generated files change. -/
def StaysInPlace (gen : Vfs → Vfs) : Prop :=
  ∀ vfs q, ¬ InPlace q → (gen vfs).get q = vfs.get q

/-- No file becomes a directory. -/
def KeepsFiles (gen : Vfs → Vfs) : Prop := ∀ vfs q, IsFileAt vfs q → IsFileAt (gen vfs) q

/-- A directory at the path does not become a file. -/
def KeepsDir (gen : Vfs → Vfs) (path : Text) : Prop :=
  ∀ vfs, IsDirAt vfs path → IsDirAt (gen vfs) path

/-- What is at the path is not overwritten. -/
def KeepsEntry (gen : Vfs → Vfs) (path : Text) : Prop :=
  ∀ vfs entry, vfs.get path = some entry → (gen vfs).get path = some entry

/-- The files of each tool of a list of names and tools are not overwritten for a tool of another
name. -/
def KeepsOthers (debug : Value → String) (named : List (Text × ToolMetadata)) : Prop :=
  ∀ tool ∈ named, ∀ other ∈ named, tool.1 ≠ other.1 →
    ∀ path ∈ filePaths other.2, KeepsEntry (generateToolFiles debug · tool.2) path

/-- Tools of different names have no file path in common. -/
def Apart (named : List (Text × ToolMetadata)) : Prop :=
  ∀ tool ∈ named, ∀ other ∈ named, tool.1 ≠ other.1 →
    ∀ path ∈ filePaths other.2, path ∉ filePaths tool.2

/-! ### What it leaves alone -/

lemma keepsFiles_generateAll (debug : Value → String) (tools : List ToolMetadata)
    (further : List (Text × Text)) : KeepsFiles (generateAll debug tools further) := by
  rintro vfs q ⟨content, permission, hfile⟩
  rcases puts_generateAll debug tools further vfs q with heq | ⟨_, content', hfile'⟩ | ⟨_, hnone, _⟩
  · exact ⟨content, permission, heq.trans hfile⟩
  · exact ⟨content', _, hfile'⟩
  · rw [hfile] at hnone
    cases hnone

lemma keepsDir_generateAll_iff (debug : Value → String) (tools : List ToolMetadata)
    (further : List (Text × Text)) (path : Text) :
    KeepsDir (generateAll debug tools further) path ↔ path ∉ allFiles tools further := by
  constructor
  · intro h hpath
    have hdir := get_holding path (some (.directory .readWrite))
    obtain ⟨permission, hkept⟩ := h _ ⟨_, hdir⟩
    obtain ⟨content, hfile⟩ := exists_file_generateAll debug hpath (hasParent_holding path _)
    rw [hkept] at hfile
    cases hfile
  · rintro h vfs ⟨permission, hdir⟩
    exact ⟨permission, (puts_generateAll debug tools further vfs).get_eq hdir h⟩

lemma allFiles_singleton (metadata : ToolMetadata) :
    allFiles [metadata] [] = filePaths metadata := by
  ext q
  simp [allFiles]

lemma mem_allFiles_nil : q ∈ allFiles tools [] ↔ ∃ metadata ∈ tools, q ∈ filePaths metadata := by
  simp [allFiles]

/-- The files for one tool overwrite exactly what is at their paths. -/
lemma keepsEntry_generateToolFiles_iff (debug : Value → String) (metadata : ToolMetadata)
    (path : Text) :
    KeepsEntry (generateToolFiles debug · metadata) path ↔ path ∉ filePaths metadata := by
  rw [← allFiles_singleton]
  exact kept_iff_not_mem_allFiles debug [metadata] [] path

lemma keepsOthers_iff (debug : Value → String) (named : List (Text × ToolMetadata)) :
    KeepsOthers debug named ↔ Apart named := by
  unfold KeepsOthers Apart
  simp only [keepsEntry_generateToolFiles_iff]

/-! ### Both generators -/

lemma generate_eq_generateAll (debug : Value → String) (caps : List ToolCallCap) :
    (generate debug · caps) = generateAll debug (caps.map capToMetadata) [] := by
  funext vfs
  rw [generateAll, List.foldl_nil, List.foldl_map]
  rfl

/-- What comes after the files of the tools. -/
def closingFiles (head docs : Text) (tools : List McpTool) : List (Text × Text) :=
  [(preludePath,
      render (generatePrelude head (tools.map fun tool => toolEntry tool.toToolMetadata))),
    (environmentPath, docs)]

lemma generateFromMcp_eq_generateAll (debug : Value → String) (head docs : Text)
    (tools : List McpTool) :
    (generateFromMcp debug head docs · tools) =
      generateAll debug (tools.map McpTool.toToolMetadata) (closingFiles head docs tools) := by
  funext vfs
  rw [generateAll, List.foldl_map]
  rfl

lemma normalizePath_preludePath : normalizePath preludePath = .ok preludePath := by decide +kernel

lemma normalizePath_environmentPath : normalizePath environmentPath = .ok environmentPath := by
  decide +kernel

lemma mem_allFiles_closingFiles {head docs : Text} {mcp : List McpTool} :
    q ∈ allFiles tools (closingFiles head docs mcp) ↔
      (∃ metadata ∈ tools, q ∈ filePaths metadata) ∨ q = preludePath ∨ q = environmentPath := by
  simp [allFiles, closingFiles, normalizePath_preludePath, normalizePath_environmentPath, eq_comm]

lemma inPlace_closingFiles (head docs : Text) (tools : List McpTool) :
    ∀ file ∈ closingFiles head docs tools,
      ∃ key, normalizePath file.1 = .ok key ∧ InPlace key := by
  intro file hfile
  simp only [closingFiles, List.mem_cons, List.not_mem_nil, or_false] at hfile
  rcases hfile with rfl | rfl
  · refine ⟨preludePath, normalizePath_preludePath, .inl (.inr ?_)⟩
    exact ⟨"prelude.js".toList, rfl⟩
  · exact ⟨environmentPath, normalizePath_environmentPath, .inr rfl⟩

/-- A file that can be put in is there. -/
lemma get_putFile_of_canInsert (hkey : normalizePath path = .ok key) (h : vfs.canInsert path) :
    (putFile vfs path content).get key = some (.file (asBytes content) .readOnly) := by
  obtain ⟨v, hv⟩ := exists_insertFile h (asBytes content) .readOnly
  obtain ⟨w, _, rfl⟩ := get_of_insertFile hkey hv
  rw [putFile, hv, orUnchanged, get_insert_self]

lemma canInsert_preludePath (vfs : Vfs) : vfs.canInsert preludePath := by
  have hparent : parentOf preludePath = some "/tools".toList := by decide +kernel
  have hok : (normalizePath "/tools".toList).isOk := by decide +kernel
  simp only [canInsert, normalizePath_preludePath, hparent, hok, Bool.or_true]

/-- The prelude is the one for the tools, whatever their names are. -/
lemma get_preludePath_generateFromMcp (debug : Value → String) (head docs : Text) (vfs : Vfs)
    (tools : List McpTool) :
    (generateFromMcp debug head docs vfs tools).get preludePath =
      some (.file (asBytes (render (generatePrelude head
        (tools.map fun tool => toolEntry tool.toToolMetadata)))) .readOnly) := by
  have hprelude (vfs : Vfs) (content : Text) :
      (putFile vfs preludePath content).get preludePath =
        some (.file (asBytes content) .readOnly) :=
    get_putFile_of_canInsert normalizePath_preludePath (canInsert_preludePath vfs)
  apply (puts_putFile _ environmentPath docs).get_eq (hprelude _ _)
  rw [Set.mem_ofPred_eq, normalizePath_environmentPath]
  decide +kernel

/-- What a generation keeps, from capabilities and from MCP tools. -/
theorem generated_files_placed (debug : Value → String) (head docs : Text)
    (caps : List ToolCallCap) (tools : List McpTool) :
    ((StaysInPlace (generate debug · caps) ↔ ∀ cap ∈ caps, Confined (capToMetadata cap)) ∧
      KeepsFiles (generate debug · caps) ∧
      (∀ path, KeepsDir (generate debug · caps) path ↔
        ∀ cap ∈ caps, path ∉ filePaths (capToMetadata cap)) ∧
      (KeepsEntry (generate debug · caps) preludePath ↔
        ∀ cap ∈ caps, preludePath ∉ filePaths (capToMetadata cap)) ∧
      (KeepsOthers debug (caps.map fun cap => (cap.tool.toList, capToMetadata cap)) ↔
        Apart (caps.map fun cap => (cap.tool.toList, capToMetadata cap)))) ∧
    ((StaysInPlace (generateFromMcp debug head docs · tools) ↔
        ∀ tool ∈ tools, Confined tool.toToolMetadata) ∧
      KeepsFiles (generateFromMcp debug head docs · tools) ∧
      (∀ path, KeepsDir (generateFromMcp debug head docs · tools) path ↔
        (∀ tool ∈ tools, path ∉ filePaths tool.toToolMetadata) ∧
          path ≠ preludePath ∧ path ≠ environmentPath) ∧
      (∀ vfs, (generateFromMcp debug head docs vfs tools).get preludePath =
        some (.file (asBytes (render (generatePrelude head
          (tools.map fun tool => toolEntry tool.toToolMetadata)))) .readOnly)) ∧
      (KeepsOthers debug (tools.map fun tool => (tool.name, tool.toToolMetadata)) ↔
        Apart (tools.map fun tool => (tool.name, tool.toToolMetadata)))) := by
  rw [generate_eq_generateAll, generateFromMcp_eq_generateAll]
  refine ⟨⟨?_, ?_, ?_, ?_, ?_⟩, ?_, ?_, ?_, ?_, ?_⟩
  · rw [StaysInPlace, unchanged_iff_confined debug _ (by simp)]
    simp
  · exact keepsFiles_generateAll debug _ _
  · intro path
    rw [keepsDir_generateAll_iff, mem_allFiles_nil]
    simp
  · rw [KeepsEntry, kept_iff_not_mem_allFiles, mem_allFiles_nil]
    simp
  · exact keepsOthers_iff debug _
  · rw [StaysInPlace, unchanged_iff_confined debug _ (inPlace_closingFiles head docs tools)]
    simp
  · exact keepsFiles_generateAll debug _ _
  · intro path
    rw [keepsDir_generateAll_iff, mem_allFiles_closingFiles]
    simp [not_or]
  · exact fun vfs => get_preludePath_generateFromMcp debug head docs vfs tools
  · exact keepsOthers_iff debug _

def capOf (tool : String) : ToolCallCap := { tool, constraints := [] }

/-- A file in `/etc`, a directory that becomes a file, an overwritten prelude, and two tools with
one set of files. -/
theorem not_generated_files_placed :
    ¬ StaysInPlace (generate (fun _ => "") · [capOf "../etc:passwd"]) ∧
      ¬ KeepsDir (generate (fun _ => "") · [capOf "p:x"]) "/tools/p/x.js".toList ∧
      ¬ KeepsEntry (generate (fun _ => "") · [capOf ":prelude"]) preludePath ∧
      ¬ KeepsOthers (fun _ => "") ([capOf "a:b/c", capOf "a/b:c"].map fun cap =>
        (cap.tool.toList, capToMetadata cap)) := by
  refine ⟨fun h => ?_, fun h => ?_, fun h => ?_, fun h => ?_⟩
  · have hout : ¬ InPlace "/etc/passwd.js".toList := by
      unfold InPlace InTools
      decide +kernel
    exact absurd (h new _ hout) (by decide +kernel)
  · obtain ⟨permission, hdir⟩ := h (new.insert "/tools/p/x.js".toList (.directory .readOnly))
      ⟨.readOnly, get_insert_self _ _ _⟩
    revert hdir
    cases permission <;> decide +kernel
  · exact absurd (h (new.insert preludePath (.file [] .readOnly)) _ (get_insert_self _ _ _))
      (by decide +kernel)
  · have hpath : "/tools/a/b/c.js".toList ∈ filePaths (capToMetadata (capOf "a/b:c")) :=
      ⟨".js", by decide, by decide +kernel⟩
    have hkept := h _ (.head _) _ (.tail _ (.head _)) (by decide) _ hpath
      (new.insert "/tools/a/b/c.js".toList (.file [] .readOnly)) _ (get_insert_self _ _ _)
    exact absurd hkept (by decide +kernel)

/-! ### Plain names -/

end AmlaSandbox.Stubs
