import CodeRag.Parsers.TreeSitter

-- The providers that discover the API of a library by following its source files.

-- The source files of a library. `present` is `Path.exists`.
structure Sources where
  runtime : Runtime
  files   : FileSystem
  present : FilePath → Bool

def Sources.distillFile (src : Sources) (file : FilePath) : Except Exn (List KnowledgeUnit) :=
  TreeSitterParser.distillFile src.runtime src.files file.str none false

-- `unit.metadata.get(key, "")`
def KnowledgeUnit.metadataStr (unit : KnowledgeUnit) (key : String) : String :=
  match unit.metadata.lookup key with
  | some (.str s) => s
  | _             => ""

-- A provider keeps some of the units of a file. `target` is the file that a unit leads to.
structure Provider where
  sources : Sources
  keeps   : KnowledgeUnit → Bool
  target  : FilePath → KnowledgeUnit → Except Exn (Option FilePath)

structure Extracted where
  visited : List FilePath
  results : List KnowledgeUnit

namespace Provider

def MAX_DEPTH : Nat := 3

-- An exception ends the loop over the units of a file.
def followUnits (p : Provider) (extract : Extracted → FilePath → Extracted) (file : FilePath) :
    Extracted → List KnowledgeUnit → Extracted
  | ext, []            => ext
  | ext, unit :: units =>
    match p.target file unit with
    | .error _       => ext
    | .ok none       => followUnits p extract file ext units
    | .ok (some dst) => followUnits p extract file (extract ext dst) units

-- The first argument is the number of levels that are left, which is `MAX_DEPTH + 1 - depth`.
def recursiveExtract (p : Provider) : Nat → Extracted → FilePath → Extracted
  | 0, ext, _           => ext
  | levels + 1, ext, file =>
    if file ∈ ext.visited ∨ ¬p.sources.present file then
      ext
    else
      let ext := { ext with visited := ext.visited ++ [file] }
      match p.sources.distillFile file with
      | .error _  => ext
      | .ok units =>
        let ext := { ext with results := ext.results ++ units.filter p.keeps }
        followUnits p (recursiveExtract p levels) file ext units

-- The traversal of `extract_api` from its target files.
def extract (p : Provider) (entries : List FilePath) : Extracted :=
  entries.foldl (recursiveExtract p (MAX_DEPTH + 1)) { visited := [], results := [] }

end Provider

namespace JavaScript

def isQuote (c : Char) : Bool :=
  c.toNat ∈ [0x22, 0x27]

-- The group of `from\s+['"]([^'"]+)['"]` for a match at the start of the text.
def matchFrom (text : List Char) : Option String :=
  let rest := text.drop 4
  match rest.dropWhile String.isBlank with
  | []            => none
  | quote :: body =>
    let path := body.takeWhile (¬isQuote ·)
    if "from".toList.isPrefixOf text ∧ (rest.takeWhile String.isBlank) ≠ [] ∧ isQuote quote ∧
        path ≠ [] ∧ path.length < body.length then
      some (.ofList path)
    else
      none

def resolveLocalPath (src : Sources) (baseDir : FilePath) (target : String) :
    Except Exn (Option FilePath) := do
  let p : FilePath := (src.files.resolve (FilePath.str (baseDir ++ [target]))).map Subtype.val
  let beside ← [".d.ts", ".ts", ".js"].mapM p.withSuffix
  let below := ["index.d.ts", "index.ts", "index.js"].map fun name => p ++ [name]
  return (beside ++ below).find? src.present

def followExports (src : Sources) (file : FilePath) (unit : KnowledgeUnit) :
    Except Exn (Option FilePath) :=
  if unit.kind = .module ∧ (unit.metadataStr "node_type").hasInfix "export" then
    match (unit.metadataStr "raw_code").toList.tails.findSome? matchFrom with
    | none        => .ok none
    | some target =>
      if target.hasPrefix "." then resolveLocalPath src file.parent target else .ok none
  else
    .ok none

def provider (src : Sources) : Provider where
  sources    := src
  keeps unit := unit.kind ≠ .module
  target     := followExports src

end JavaScript

namespace Rust

def isWordChar (c : Char) : Bool :=
  c.isAlphanum ∨ c = '_'

-- The group of `mod\s+([a-zA-Z0-9_]+)` for a match at the start of the text.
def matchMod (text : List Char) : Option String :=
  let rest := text.drop 3
  let name := (rest.dropWhile String.isBlank).takeWhile isWordChar
  if "mod".toList.isPrefixOf text ∧ (rest.takeWhile String.isBlank) ≠ [] ∧ name ≠ [] then
    some (.ofList name)
  else
    none

def resolveModPath (src : Sources) (baseDir : FilePath) (name : String) : Option FilePath :=
  [baseDir ++ [name ++ ".rs"], baseDir ++ [name, "mod.rs"]].find? src.present

def parseSubmodule (src : Sources) (file : FilePath) (unit : KnowledgeUnit) : Option FilePath :=
  let raw := unit.metadataStr "raw_code"
  if unit.kind = .module ∧ unit.metadataStr "node_type" = "mod_item" ∧ raw.hasInfix ";" ∧
      ¬raw.hasInfix "\x7b" then
    (raw.toList.tails.findSome? matchMod).bind (resolveModPath src file.parent)
  else
    none

def provider (src : Sources) : Provider where
  sources          := src
  keeps unit       := unit.kind ≠ .module ∧ (unit.signature.getD "").hasInfix "pub"
  target file unit := .ok (parseSubmodule src file unit)

end Rust
