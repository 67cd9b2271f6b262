import CodeRag.Core.Models
import CodeRag.Core.Paths
import CodeRag.Parsers.Languages

-- The parser turns the syntax tree of a file into units.

-- A node of a syntax tree. `field` is the name of the field of its parent that holds it.
inductive Node
  | mk (type : String) (field : Option String) (text : Option (List UInt8))
    (startByte endByte startRow endRow : Nat) (children : List Node)

namespace Node

def type : Node → String
  | mk t .. => t

def field : Node → Option String
  | mk _ f .. => f

def text : Node → Option (List UInt8)
  | mk _ _ t .. => t

def startByte : Node → Nat
  | mk _ _ _ s .. => s

def endByte : Node → Nat
  | mk _ _ _ _ e .. => e

def startRow : Node → Nat
  | mk _ _ _ _ _ s .. => s

def endRow : Node → Nat
  | mk _ _ _ _ _ _ e _ => e

def children : Node → List Node
  | mk _ _ _ _ _ _ _ cs => cs

def childByFieldName (node : Node) (name : String) : Option Node :=
  node.children.find? (·.field = some name)

end Node

inductive GrammarError
  | importError
  | other (e : Exn)

-- What the parser takes from the Python runtime and the installed packages: `str.lower`, the
-- decoding of bytes, the hex digest of the SHA-256 hash of a string, and the grammars.
structure Runtime where
  lower       : String → String
  decode      : List UInt8 → String
  sha256      : String → String
  loadGrammar : LanguageConfig → Except GrammarError (List UInt8 → Except Exn Node)

namespace TreeSitterParser

variable (rt : Runtime)

def getParser (config : LanguageConfig) : Except Exn (List UInt8 → Except Exn Node) :=
  match rt.loadGrammar config with
  | .ok parse           => .ok parse
  | .error (.other e)   => .error e
  | .error .importError => .error <| .grammarNotFound
    s!"[MISSING DEPENDENCY] Please install: pip install {config.package}"

-- The decoded text of a node, if it has any.
def decodedText (node : Node) : Option String :=
  match node.text with
  | none | some [] => none
  | some bytes     => some (rt.decode bytes)

def resolveName (node : Node) (parent : Option Node) : String :=
  let nameNode := (node.childByFieldName "name").or <| node.children.find?
    (·.type ∈ ["identifier", "property_identifier", "type_identifier"])
  match nameNode.bind (decodedText rt) with
  | some name => name
  | none      =>
    match parent with
    | none   => "anonymous"
    | some p =>
      let fieldName :=
        if p.type = "variable_declarator" then some "name"
        else if p.type = "assignment" then some "left"
        else none
      ((fieldName.bind p.childByFieldName).bind (decodedText rt)).getD "anonymous"

-- Qualified id segment. A repeated name in the same scope gets `#2`, `#3`, …
def qualifiedName (nodeName : String) (scope : Option String) (counts : String → Nat) : String :=
  let seen := counts nodeName + 1
  let label := if seen = 1 then nodeName else s!"{nodeName}#{seen}"
  match scope with
  | none   => label
  | some s => if s = "" then label else s!"{s}.{label}"

def cleanLine (line : String) : String :=
  match ["///", "//", "/**", "*", "#"].find? line.strip.hasPrefix with
  | some marker => (String.ofList (line.strip.toList.drop marker.length)).strip
  | none        => line.strip

def cleanComment (text : String) : String :=
  let text := if text.hasPrefix "/*" then String.ofList (text.toList.drop 2) else text
  let text := if text.hasSuffix "*/" then String.ofList text.toList.dropLast.dropLast else text
  .joinWith "\n" ((text.splitLines.map cleanLine).filter (· ≠ ""))

-- `prev` are the preceding siblings of the node, the closest one first.
def extractDocstring (prev : List Node) : Option String :=
  let comments := ((prev.takeWhile (·.type.hasInfix "comment")).filterMap fun c =>
    (decodedText rt c).map fun t => cleanComment t.strip).filter (· ≠ "")
  if comments = [] then none else some (.joinWith "\n" comments.reverse)

def findBody (config : LanguageConfig) (node : Node) : Option Node :=
  (config.bodyFields.findSome? node.childByFieldName).or <|
    node.children.find? (·.type ∈ config.fallbackBodies)

def extractSignature (config : LanguageConfig) (source : List UInt8) (node : Node) : String :=
  match findBody config node with
  | none      => (decodedText rt node).getD ""
  | some body =>
    let slice := fun s e => rt.decode ((source.take e).drop s)
    slice node.startByte body.startByte ++ config.stubSuffix ++ slice body.endByte node.endByte

-- `.lower()` of a canonical name is the value of the kind.
def determineKind (config : LanguageConfig) (node : Node) : UnitKind :=
  match config.canonicalMap.lookup node.type with
  | some "MODULE" => .module
  | some "CLASS"  => .klass
  | some "METHOD" => .method
  | _             => .function

def processNode (config : LanguageConfig) (source : List UInt8) (filePath : String) (node : Node)
    (parent : Option Node) (prev : List Node) (qname : String) : KnowledgeUnit :=
  let rawText := (decodedText rt node).getD ""
  { id        := s!"{filePath}:{qname}"
    name      := resolveName rt node parent
    kind      := determineKind config node
    signature := some (extractSignature rt config source node)
    docstring := extractDocstring rt prev
    path      := filePath
    summary   := none
    codeHash  := rt.sha256 rawText
    tags      := []
    metadata  := [
      ("start_line", .num (node.startRow + 1)), ("end_line", .num (node.endRow + 1)),
      ("node_type", .str node.type), ("raw_code", .str rawText)]
    relations := [] }

-- The units of a node and of the nodes below it, and the names its scope has used up.
def recursiveDistill (config : LanguageConfig) (source : List UInt8) (filePath : String)
    (scope : Option String) (parent : Option Node) (prev : List Node) (counts : String → Nat) :
    Node → List KnowledgeUnit × (String → Nat)
  | node@(.mk type _ _ _ _ _ _ children) =>
    match config.canonicalMap.lookup type with
    | none           => distillChildren scope node [] counts children
    | some canonical =>
      let name  := resolveName rt node parent
      let qname := qualifiedName name scope counts
      let unit  := processNode rt config source filePath node parent prev qname
      let counts := Function.update counts name (counts name + 1)
      if canonical ∈ ["CLASS", "FUNCTION", "METHOD"] then
        (unit :: (distillChildren (some qname) node [] (fun _ => 0) children).1, counts)
      else
        let below := distillChildren scope node [] counts children
        (unit :: below.1, below.2)
where
  distillChildren (scope : Option String) (parent : Node) (prev : List Node)
      (counts : String → Nat) : List Node → List KnowledgeUnit × (String → Nat)
    | []      => ([], counts)
    | c :: cs =>
      let here := recursiveDistill config source filePath scope (some parent) prev counts c
      let rest := distillChildren scope parent (c :: prev) here.2 cs
      (here.1 ++ rest.1, rest.2)

def languageOf (filePath : String) : Option LanguageConfig :=
  LANGUAGES.find? (rt.lower (Path.suffix filePath) ∈ ·.extensions)

-- The part of `distill_file` that may raise.
def parseFile (fs : FileSystem) (config : LanguageConfig) (filePath identity : String) :
    Except Exn (List KnowledgeUnit) := do
  let source ← fs.read filePath
  let parse  ← getParser rt config
  let root   ← parse source
  return (recursiveDistill rt config source identity none none [] (fun _ => 0) root).1

def distillFile (fs : FileSystem) (filePath : String) (storedPath : Option String)
    (raiseOnFailure : Bool) : Except Exn (List KnowledgeUnit) :=
  let identity := storedPath.getD filePath
  match languageOf rt filePath with
  | none        => .ok []
  | some config =>
    match parseFile rt fs config filePath identity with
    | .ok units                   => .ok units
    | .error (.grammarNotFound m) => .error (.grammarNotFound m)
    | .error e                    => if raiseOnFailure then .error e else .ok []

end TreeSitterParser

-- The parser that the services use, over the files it reads.
structure MultiParser where
  runtime : Runtime
  files   : FileSystem

namespace MultiParser

def distillFile (parser : MultiParser) (filePath : String) (storedPath : Option String)
    (raiseOnFailure : Bool) : Except Exn (List KnowledgeUnit) :=
  let ext := parser.runtime.lower (Path.splitext filePath)
  if (EXTENSION_TO_LANGUAGE.lookup ext).isSome then
    TreeSitterParser.distillFile parser.runtime parser.files filePath storedPath raiseOnFailure
  else
    .ok []

end MultiParser
