import AmlaSandbox.Constraints.Basic
import AmlaSandbox.Library.JsText
import AmlaSandbox.Text.Basic

/-!
# Generated tool code

A generated file is a list of fragments: code that the generator wrote, and the comments and string
literals into which it put the texts of a tool.
-/

namespace AmlaSandbox.Stubs

open Constraints Json Library Text

/-! ### Fragments -/

/-- The text of a comment is what stands between `/*` and `*/`; `toolCall` is the literal that is to
denote `id`. -/
inductive Fragment
  | code (text : Text)
  | comment (body : Text)
  | literal (body : Text)
  | toolCall (id body : Text)

def Fragment.text : Fragment → Text
  | .code text => text
  | .comment body => "/*".toList ++ body ++ "*/".toList
  | .literal body | .toolCall _ body => '"' :: body ++ ['"']

/-- The generated string. -/
def render (fragments : List Fragment) : Text := fragments.flatMap Fragment.text

/-! ### Tools -/

structure ParamMetadata where
  name : Text
  paramType : Text
  description : Text
  required : Bool

structure ToolMetadata where
  provider : Text
  name : Text
  description : Text
  params : List ParamMetadata
  constraints : List Constraint

def ToolMetadata.toolId (metadata : ToolMetadata) : Text :=
  metadata.provider ++ ":".toList ++ metadata.name

/-! ### Names -/

def jsIdentifierChar (i : ℕ) (c : Char) : Text :=
  if ('a' ≤ c ∧ c ≤ 'z') ∨ ('A' ≤ c ∧ c ≤ 'Z') ∨ c = '_' ∨ c = '$' then [c]
  else if '0' ≤ c ∧ c ≤ '9' then if i = 0 then ['_', c] else [c]
  else ['_']

def jsIdentifier (s : Text) : Text :=
  let result := (s.zipIdx.map fun (c, i) => jsIdentifierChar i c).flatten
  if result = [] then "_tool".toList else result

/-- The parts of an identifier are ASCII. -/
def pascalCase (s : Text) : Text :=
  (splitOn '_' s).flatMap fun
    | [] => []
    | c :: chars => c.toUpper :: chars

def jsonTypeToTypescript (jsonType : Text) : Text :=
  if jsonType = "integer".toList ∨ jsonType = "number".toList then "number".toList
  else if jsonType = "boolean".toList then "boolean".toList
  else if jsonType = "array".toList then "unknown[]".toList
  else if jsonType = "object".toList then "Record<string, unknown>".toList
  else "string".toList

/-! ### Documentation -/

section

/- `{:?}` of a JSON value. -/
variable (debug : Value → String)

/-- A parameter in backquotes. -/
def quoted (param : String) : Text := "`".toList ++ param.toList ++ "`".toList

def comparison (param operator : String) (value : Value) : Text :=
  quoted param ++ operator.toList ++ (debug value).toList

mutual

def constraintToString : Constraint → Text
  | .lt param value => comparison debug param " < " value
  | .le param value => comparison debug param " <= " value
  | .gt param value => comparison debug param " > " value
  | .ge param value => comparison debug param " >= " value
  | .eq param value => comparison debug param " == " value
  | .ne param value => comparison debug param " != " value
  | .in param values => quoted param ++ " in ".toList ++ (debugList debug values).toList
  | .notIn param values => quoted param ++ " not in ".toList ++ (debugList debug values).toList
  | .startsWith param lead =>
    quoted param ++ " starts with \"".toList ++ lead.toList ++ "\"".toList
  | .endsWith param suffix =>
    quoted param ++ " ends with \"".toList ++ suffix.toList ++ "\"".toList
  | .contains param substring =>
    quoted param ++ " contains \"".toList ++ substring.toList ++ "\"".toList
  | .exists param => quoted param ++ " must exist".toList
  | .notExists param => quoted param ++ " must not exist".toList
  | .and constraints =>
    "(".toList ++ List.intercalate " AND ".toList (constraintStrings constraints) ++ ")".toList
  | .or constraints =>
    "(".toList ++ List.intercalate " OR ".toList (constraintStrings constraints) ++ ")".toList

def constraintStrings : List Constraint → List Text
  | [] => []
  | c :: constraints => constraintToString c :: constraintStrings constraints

end

/-- The lines of a list under a comment's header. -/
def docLines (none : String) (lines : List Text) : Text :=
  if lines = [] then none.toList else List.intercalate "\n".toList lines

def constraintsToJsdoc (constraints : List Constraint) : Text :=
  docLines " *   (no constraints)"
    (constraints.map fun c => " *   - ".toList ++ constraintToString debug c)

def constraintsToDoc (constraints : List Constraint) : Text :=
  docLines " *   (no constraints)"
    (constraints.map fun c => " * - ".toList ++ constraintToString debug c)

def paramToJsdoc (p : ParamMetadata) : Text :=
  " *   - ".toList ++ (p.name ++ (": ".toList ++ (p.paramType ++ (" - ".toList ++ (p.description ++
    if p.required then " (required)".toList else [])))))

def paramsToJsdoc (params : List ParamMetadata) : Text :=
  docLines " *   (no parameters)" (params.map paramToJsdoc)

def paramToTypescript (p : ParamMetadata) : List Fragment :=
  [.code "    ".toList,
    .comment ("* ".toList ++ (p.description ++ " ".toList)),
    .code ("\n    ".toList ++ p.name ++ (if p.required then [] else "?".toList) ++ ": ".toList ++
      jsonTypeToTypescript p.paramType ++ ";".toList)]

def paramsToTypescript (params : List ParamMetadata) : List Fragment :=
  if params = [] then [.code "    [key: string]: unknown;".toList]
  else List.intercalate [.code "\n".toList] (params.map paramToTypescript)

/-! ### The files of a tool -/

def generateJsStub (metadata : ToolMetadata) : List Fragment :=
  let fnName := jsIdentifier metadata.name
  [.comment ("*\n * ".toList ++ (metadata.description ++ ("\n *\n * @module ".toList ++
      (metadata.provider ++ ("/".toList ++ (metadata.name ++ ("\n *\n * Parameters:\n".toList ++
      (paramsToJsdoc metadata.params ++ ("\n *\n * Constraints:\n".toList ++
      (constraintsToJsdoc debug metadata.constraints ++ "\n ".toList)))))))))),
    .code "\n\n".toList,
    .comment ("*\n * Call the ".toList ++ (metadata.name ++
      (" tool with the given parameters.\n" ++
        " * Parameters are validated against capability constraints before execution.\n *\n" ++
        " * @param \x7bObject\x7d params - Tool parameters\n" ++
        " * @returns \x7bPromise<any>\x7d Tool result\n" ++
        " * @throws \x7bError\x7d If constraints are violated or tool execution fails\n ").toList)),
    .code ("\nexport async function ".toList ++ fnName ++
      "(params) \x7b\n    return await __amla__.toolCall(".toList),
    .toolCall metadata.toolId metadata.toolId,
    .code (", params);\n\x7d\n\nexport default ".toList ++ fnName ++ ";\n".toList)]

def generateDts (metadata : ToolMetadata) : List Fragment :=
  let fnName := jsIdentifier metadata.name
  let pascalName := pascalCase fnName
  [.comment ("*\n * ".toList ++ (metadata.description ++ ("\n *\n * Constraints:\n".toList ++
      (constraintsToDoc debug metadata.constraints ++ "\n ".toList)))),
    .code ("\n\nexport interface ".toList ++ pascalName ++ "Params \x7b\n".toList)] ++
  paramsToTypescript metadata.params ++
  [.code ("\n\x7d\n\nexport interface ".toList ++ pascalName ++
      "Result \x7b\n    [key: string]: unknown;\n\x7d\n\n".toList),
    .comment ("*\n * Call the ".toList ++ (metadata.name ++ (" tool.\n" ++
      " * @param params - Tool parameters (validated against constraints)\n" ++
      " * @returns Tool execution result\n ").toList)),
    .code ("\nexport function ".toList ++ fnName ++ "(params: ".toList ++ pascalName ++
      "Params): Promise<".toList ++ pascalName ++ "Result>;\n\nexport default ".toList ++ fnName ++
      ";\n".toList)]

end

/-! ### The prelude -/

/-- The name of a tool's function, its id and its description. -/
structure ToolEntry where
  fnName : Text
  toolId : Text
  description : Text

/-- `generate_from_mcp` collects these. -/
def toolEntry (metadata : ToolMetadata) : ToolEntry :=
  { fnName := jsIdentifier metadata.name, toolId := metadata.toolId
    description := metadata.description }

/-- `str::replace` of a character. -/
def replaceChar (c : Char) (r : Text) (s : Text) : Text :=
  s.flatMap fun x => if x = c then r else [x]

/-- The description in the registry. -/
def escapeQuotes (s : Text) : Text :=
  replaceChar '"' "\\\"".toList (replaceChar '\\' "\\\\".toList s)

/-- `replace("*/", "* /")` -/
def replaceTerminator : Text → Text
  | [] => []
  | [c] => [c]
  | c :: d :: s =>
    if c = '*' ∧ d = '/' then '*' :: ' ' :: '/' :: replaceTerminator s
    else c :: replaceTerminator (d :: s)

def registryEntry (entry : ToolEntry) : List Fragment :=
  [.code ("    ".toList ++ entry.fnName ++ ": \x7b id: ".toList),
    .literal entry.toolId,
    .code ", description: ".toList,
    .literal (escapeQuotes entry.description),
    .code " \x7d,\n".toList]

def toolFunction (entry : ToolEntry) : List Fragment :=
  [.comment ("* ".toList ++ (replaceTerminator entry.description ++ " ".toList)),
    .code ("\nglobalThis.".toList ++ entry.fnName ++
      " = async (params) => await __amla__.toolCall(".toList),
    .toolCall entry.toolId entry.toolId,
    .code ", params || \x7b\x7d);\n\n".toList]

def ruler : Text :=
  ("// =============================================================================\n").toList

/-- `head` is the fixed text that comes before the registry. -/
def generatePrelude (head : Text) (tools : List ToolEntry) : List Fragment :=
  [.code (head ++ ruler ++ "// Tool Registry (for introspection)\n".toList ++ ruler ++
      "globalThis.__tools__ = \x7b\n".toList)] ++
  tools.flatMap registryEntry ++
  [.code ("\x7d;\n\n/** List all available tool function names */\n" ++
      "globalThis.listTools = () => Object.keys(__tools__);\n\n" ++
      "/** Get metadata for a tool */\n" ++
      "globalThis.getToolInfo = (name) => __tools__[name] || null;\n\n").toList,
    .code (ruler ++ "// Tool Functions\n".toList ++ ruler)] ++
  tools.flatMap toolFunction ++
  [.code "\x7d // end __preludeLoaded guard\n".toList]

/-! ### Hydration stubs -/

def isControl (c : Char) : Bool := c.toNat < 0x20 || (0x7F ≤ c.toNat && c.toNat ≤ 0x9F)

def hexDigit (n : ℕ) : Char := if n < 10 then Char.ofNat (n + 48) else Char.ofNat (n + 87)

/-- `{unit:04x}` -/
def hex4 (n : ℕ) : Text :=
  [hexDigit (n / 4096 % 16), hexDigit (n / 256 % 16), hexDigit (n / 16 % 16), hexDigit (n % 16)]

def escapeJsChar (c : Char) : Text :=
  match c with
  | '\\' => "\\\\".toList
  | '"' => "\\\"".toList
  | '\n' => "\\n".toList
  | '\r' => "\\r".toList
  | '\t' => "\\t".toList
  | '\x00' => "\\0".toList
  | c => if isControl c then (JsText.utf16 c).flatMap fun unit => "\\u".toList ++ hex4 unit else [c]

def escapeJsString (s : Text) : Text := s.flatMap escapeJsChar

structure ParamStub where
  name : Text
  required : Bool
  description : Text

structure ToolStub where
  name : Text
  description : Text
  params : List ParamStub

namespace ToolStub

variable (tool : ToolStub)

/-- `split_once(':')`, or `_` and the whole name. -/
def splitName : Text × Text :=
  if ':' ∈ tool.name then
    (tool.name.takeWhile (· ≠ ':'), (tool.name.dropWhile (· ≠ ':')).tail)
  else ("_".toList, tool.name)

def paramLine (param : ParamStub) : Text :=
  " * @param \x7b*\x7d params.".toList ++ (param.name ++ (" - ".toList ++ (param.description ++
    (" (".toList ++ ((if param.required then "required" else "optional").toList ++
      ")\n".toList)))))

def jsdoc : Text :=
  "*\n * ".toList ++ (tool.description ++ ("\n".toList ++
    ((if tool.params = [] then []
      else " * @param \x7bObject\x7d params\n".toList ++ tool.params.flatMap paramLine) ++
      " * @returns \x7bPromise\x7d\n ".toList)))

/-- The comment and the function of a tool. -/
def function : List Fragment :=
  let nsEscaped := escapeJsString tool.splitName.1
  [.comment tool.jsdoc,
    .code "\nglobalThis.tools[".toList, .literal nsEscaped, .code "][".toList,
    .literal (escapeJsString tool.splitName.2),
    .code "] = function(params) \x7b\n    return __amla__.toolCall(".toList,
    .toolCall tool.name (escapeJsString tool.name),
    .code ", params || \x7b\x7d);\n\x7d;\n".toList]

end ToolStub

def namespaceObject (namespaceName : Text) : List Fragment :=
  let nsEscaped := escapeJsString namespaceName
  [.code "globalThis.tools[".toList, .literal nsEscaped, .code "] = globalThis.tools[".toList,
    .literal nsEscaped, .code "] || \x7b\x7d;\n".toList]

/-- `namespaces` is the order in which the map of the namespaces is visited. -/
def generateToolStubs (namespaces : List Text) (tools : List ToolStub) : List Fragment :=
  [.code "// Auto-generated tool stubs\nglobalThis.tools = \x7b\x7d;\n\n".toList] ++
  namespaces.flatMap fun ns =>
    namespaceObject ns ++
      (tools.filter (·.splitName.1 = ns)).flatMap fun tool =>
        tool.function ++ [.code "\n".toList]

def generateSingleToolStub (tool : ToolStub) : List Fragment :=
  [.code "globalThis.tools = globalThis.tools || \x7b\x7d;\n".toList] ++
  namespaceObject tool.splitName.1 ++ tool.function

end AmlaSandbox.Stubs
