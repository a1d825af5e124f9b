import AmlaSandbox.Protocol.Capabilities
import AmlaSandbox.Stubs.Generate
import AmlaSandbox.Vfs.WriteBack

/-!
# Generated tool files

The generator puts the files of every tool into the filesystem, past the permission checks, at
paths that it makes from the provider and the action in the name of the tool.
-/

namespace AmlaSandbox.Stubs

open Constraints Json Protocol Text Vfs

/-! ### Tools -/

/-- The provider and the action of a tool's name, cut at the first colon. -/
def splitToolName (provider : Text) (name : Text) : Text × Text :=
  if ':' ∈ name then (name.takeWhile (· ≠ ':'), (name.dropWhile (· ≠ ':')).tail)
  else (provider, name)

def capToMetadata (cap : ToolCallCap) : ToolMetadata :=
  let (provider, name) := splitToolName "default".toList cap.tool.toList
  { provider, name, description := "Tool: ".toList ++ cap.tool.toList, params := []
    constraints := cap.constraints }

/-- A parsed MCP tool; `fromName` gives the provider and the action. -/
structure McpTool where
  name : Text
  description : Text
  params : List ParamMetadata
  constraints : List Constraint

def McpTool.toToolMetadata (tool : McpTool) : ToolMetadata :=
  let (provider, action) := splitToolName "mcp".toList tool.name
  { provider, name := action, description := tool.description, params := tool.params
    constraints := tool.constraints }

lemma toolId_toToolMetadata (tool : McpTool) :
    tool.toToolMetadata.toolId =
      if ':' ∈ tool.name then tool.name else "mcp:".toList ++ tool.name := by
  rw [McpTool.toToolMetadata, splitToolName, ToolMetadata.toolId]
  split_ifs with h
  · obtain ⟨provider, action, hname, hprovider⟩ := List.eq_append_cons_of_mem h
    have htake : ∀ c ∈ provider, decide (c ≠ ':') = true := fun c hc =>
      decide_eq_true (ne_of_mem_of_not_mem hc hprovider)
    rw [hname, List.takeWhile_append_of_pos htake, List.dropWhile_append_of_pos htake]
    simp
  · rfl

/-! ### The README -/

section Files

/- `{:?}` of a JSON value. -/
variable (debug : Value → String)

def constraintsToMarkdown (constraints : List Constraint) : Text :=
  docLines "No constraints defined."
    (constraints.map fun c => "- ".toList ++ constraintToString debug c)

def paramToMarkdown (p : ParamMetadata) : Text :=
  "| ".toList ++ p.name ++ " | ".toList ++ p.paramType ++ " | ".toList ++
    (if p.required then "Yes" else "No").toList ++ " | ".toList ++ p.description ++ " |".toList

def paramsToMarkdown (params : List ParamMetadata) : Text :=
  docLines "No parameters defined." (if params = [] then [] else
    "| Name | Type | Required | Description |".toList ::
      "|------|------|----------|-------------|".toList :: params.map paramToMarkdown)

def generateReadme (metadata : ToolMetadata) : Text :=
  "# ".toList ++ metadata.provider ++ ":".toList ++ metadata.name ++ "\n\n".toList ++
    metadata.description ++ "\n\n## Usage\n\n```javascript\nimport \x7b ".toList ++
    metadata.name ++ " \x7d from '/tools/".toList ++ metadata.provider ++ "/".toList ++
    metadata.name ++ ".js';\n\nconst result = await ".toList ++ metadata.name ++
    ("(\x7b\n    // Add your parameters here\n\x7d);\n```\n\n## Parameters\n\n").toList ++
    paramsToMarkdown metadata.params ++
    ("\n\n## Constraints\n\nThe following constraints are enforced on this tool:\n\n").toList ++
    constraintsToMarkdown debug metadata.constraints ++ "\n".toList

/-! ### Files -/

/-- `str::as_bytes` -/
def asBytes (text : Text) : List UInt8 := text.flatMap String.utf8EncodeChar

def dirPath (metadata : ToolMetadata) : Text := "/tools/".toList ++ metadata.provider

def filePath (metadata : ToolMetadata) (extension : String) : Text :=
  dirPath metadata ++ '/' :: metadata.name ++ extension.toList

/-- The paths and the contents of a tool's files. -/
def toolFiles (metadata : ToolMetadata) : List (Text × Text) :=
  [(filePath metadata ".js", render (generateJsStub debug metadata)),
    (filePath metadata ".d.ts", render (generateDts debug metadata)),
    (filePath metadata ".md", generateReadme debug metadata)]

/-- `let _ = vfs.insert_file(..)` of a read-only file. -/
def putFile (vfs : Vfs) (path content : Text) : Vfs :=
  vfs.orUnchanged (vfs.insertFile path (asBytes content) .readOnly)

/-- Generate all files for a tool. -/
def generateToolFiles (vfs : Vfs) (metadata : ToolMetadata) : Vfs :=
  (toolFiles debug metadata).foldl (fun vfs (path, content) => putFile vfs path content)
    (vfs.orUnchanged (vfs.insertDirAll (dirPath metadata) .readOnly))

/-- Generate tool stubs from a list of tool capabilities. -/
def generate (vfs : Vfs) (capabilities : List ToolCallCap) : Vfs :=
  capabilities.foldl (fun vfs cap => generateToolFiles debug vfs (capToMetadata cap)) vfs

def preludePath : Text := "/tools/prelude.js".toList

def environmentPath : Text := "/ENVIRONMENT.md".toList

/-- Generate tool stubs from MCP tool definitions. `head` and `docs` are the fixed texts of the
prelude and of the environment documentation. -/
def generateFromMcp (head docs : Text) (vfs : Vfs) (tools : List McpTool) : Vfs :=
  let vfs := tools.foldl (fun vfs tool => generateToolFiles debug vfs tool.toToolMetadata) vfs
  let toolEntries := tools.map fun tool => toolEntry tool.toToolMetadata
  let vfs := putFile vfs preludePath (render (generatePrelude head toolEntries))
  putFile vfs environmentPath docs

end Files

end AmlaSandbox.Stubs
