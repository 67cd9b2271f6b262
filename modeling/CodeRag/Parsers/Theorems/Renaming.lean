import CodeRag.Parsers.Theorems.TreeSitter
import CodeRag.Storage.Theorems.Rewrite

-- A file that is parsed under another path yields the units that a rewrite of its path makes of the old
-- ones.

def KnowledgeUnit.rewritePath (old new : String) (u : KnowledgeUnit) : KnowledgeUnit :=
  { u with toUnitRow := u.toUnitRow.rewritePath old new }

namespace TreeSitterParser

variable {rt : Runtime} {config : LanguageConfig} {source : List UInt8} {old new : String}
variable {prev : List Node} {counts : String → Nat}

theorem processNode_rewritePath {node : Node} {parent : Option Node} {qname : String} :
    processNode rt config source new node parent prev qname =
      (processNode rt config source old node parent prev qname).rewritePath old new := by
  have hid : s!"{new}:{qname}" = rewriteId old new s!"{old}:{qname}" := rewriteId_append.symm
  have hrow : (processNode rt config source old node parent prev qname).toUnitRow.rewritePath old new =
      (processNode rt config source new node parent prev qname).toUnitRow := by
    refine (UnitRow.rewritePath_eq rfl).trans ?_
    unfold processNode
    dsimp only
    rw [hid]
  unfold KnowledgeUnit.rewritePath
  rw [hrow]
  rfl

mutual

-- The names that are used up do not depend on the path.
theorem recursiveDistill_rewritePath {scope : Option String} {parent : Option Node} {prev : List Node}
    {counts : String → Nat} : (node : Node) →
    recursiveDistill rt config source new scope parent prev counts node =
      ((recursiveDistill rt config source old scope parent prev counts node).1.map (·.rewritePath old new),
        (recursiveDistill rt config source old scope parent prev counts node).2)
  | .mk type field text startByte endByte startRow endRow children => by
    unfold recursiveDistill
    cases config.canonicalMap.lookup type
    case none => exact distillChildren_rewritePath children
    case some canonical =>
      dsimp only
      split
      all_goals
        rw [List.map_cons, ←processNode_rewritePath, distillChildren_rewritePath children]

theorem distillChildren_rewritePath {scope : Option String} {parent : Node} {prev : List Node}
    {counts : String → Nat} : (nodes : List Node) →
    recursiveDistill.distillChildren rt config source new scope parent prev counts nodes =
      ((recursiveDistill.distillChildren rt config source old scope parent prev counts nodes).1.map
          (·.rewritePath old new),
        (recursiveDistill.distillChildren rt config source old scope parent prev counts nodes).2)
  | []            => rfl
  | node :: nodes => by
    unfold recursiveDistill.distillChildren
    rw [recursiveDistill_rewritePath node]
    dsimp only
    rw [distillChildren_rewritePath nodes, List.map_append]

end

theorem parseFile_rewritePath {fs : FileSystem} {filePath : String} :
    parseFile rt fs config filePath new =
      (parseFile rt fs config filePath old).map (List.map (·.rewritePath old new)) := by
  unfold parseFile
  cases fs.read filePath
  case error e => rfl
  case ok source =>
    cases getParser rt config
    case error e => rfl
    case ok parse =>
      cases hroot : parse source
      case error e => simp only [bind, Except.bind, hroot]; rfl
      case ok root =>
        simp only [bind, Except.bind, hroot]
        rw [recursiveDistill_rewritePath]
        rfl

end TreeSitterParser

namespace MultiParser

open TreeSitterParser

variable {parser : MultiParser} {filePath : String} {raise : Bool} {old new : String}

-- Parsing commutes with the rewrite of a path; a file that cannot be parsed raises the same exception
-- under every path.
theorem distillFile_rewritePath : parser.distillFile filePath (some new) raise =
    (parser.distillFile filePath (some old) raise).map (List.map (·.rewritePath old new)) := by
  unfold distillFile TreeSitterParser.distillFile
  dsimp only [Option.getD_some]
  split
  case isFalse => rfl
  case isTrue  =>
    cases languageOf parser.runtime filePath
    case none => rfl
    case some config =>
      dsimp only
      have h : TreeSitterParser.parseFile parser.runtime parser.files config filePath new =
          (TreeSitterParser.parseFile parser.runtime parser.files config filePath old).map
            (List.map (·.rewritePath old new)) := parseFile_rewritePath
      rw [h]
      cases parseFile parser.runtime parser.files config filePath old
      case ok      => rfl
      case error e => cases e <;> cases raise <;> rfl

end MultiParser
