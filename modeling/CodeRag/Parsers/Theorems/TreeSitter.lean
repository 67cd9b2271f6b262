import CodeRag.Parsers.TreeSitter

-- What is known of the units of a file.

namespace TreeSitterParser

variable {rt : Runtime} {config : LanguageConfig} {source : List UInt8} {filePath : String}

mutual

-- Every unit comes from a node of the tree.
theorem mem_recursiveDistill {scope : Option String} {parent : Option Node} {prev : List Node}
    {counts : String → Nat} {unit : KnowledgeUnit} : (node : Node) →
    unit ∈ (recursiveDistill rt config source filePath scope parent prev counts node).1 →
    ∃ node parent prev qname, unit = processNode rt config source filePath node parent prev qname
  | .mk type field text startByte endByte startRow endRow children, h => by
    unfold recursiveDistill at h
    split at h
    case h_1 => exact mem_distillChildren children h
    case h_2 =>
      dsimp only at h
      split at h
      all_goals
        obtain rfl | h := List.mem_cons.mp h
        · exact ⟨_, _, _, _, rfl⟩
        · exact mem_distillChildren children h

theorem mem_distillChildren {scope : Option String} {parent : Node} {prev : List Node}
    {counts : String → Nat} {unit : KnowledgeUnit} : (nodes : List Node) →
    unit ∈ (recursiveDistill.distillChildren rt config source filePath scope parent prev counts
      nodes).1 →
    ∃ node parent prev qname, unit = processNode rt config source filePath node parent prev qname
  | [], h           => by simp [recursiveDistill.distillChildren] at h
  | node :: nodes, h => by
    unfold recursiveDistill.distillChildren at h
    obtain h | h := List.mem_append.mp h
    case inl => exact mem_recursiveDistill node h
    case inr => exact mem_distillChildren nodes h

end

-- Units are parsed without a summary and without relations.
structure Parsed (identity : String) (unit : KnowledgeUnit) : Prop where
  path      : unit.path = identity
  id        : ∃ qname, unit.id = identity ++ ":" ++ qname
  summary   : unit.summary = none
  relations : unit.relations = []

theorem mem_parseFile {fs : FileSystem} {identity : String} {units : List KnowledgeUnit}
    (h : parseFile rt fs config filePath identity = .ok units) : ∀ u ∈ units, ∃ source node parent prev qname,
      u = processNode rt config source identity node parent prev qname := by
  intro u hu
  unfold parseFile at h
  cases hr : fs.read filePath <;> simp only [hr, bind, Except.bind] at h
  case error => cases h
  cases hp : getParser rt config <;> simp only [hp] at h
  case error => cases h
  case ok source parse =>
    cases hn : parse source <;> simp only [hn] at h
    case error => cases h
    case ok root =>
      cases h
      exact ⟨_, mem_recursiveDistill root hu⟩

end TreeSitterParser

namespace MultiParser

open TreeSitterParser

variable {parser : MultiParser} {filePath : String} {stored : Option String} {raise : Bool}

-- The exception that is raised while a file is read and parsed.
def Raises (parser : MultiParser) (filePath : String) (stored : Option String) (e : Exn) : Prop :=
  (EXTENSION_TO_LANGUAGE.lookup (parser.runtime.lower (Path.splitext filePath))).isSome ∧
    ∃ config, languageOf parser.runtime filePath = some config ∧
      parseFile parser.runtime parser.files config filePath (stored.getD filePath) = .error e

-- Only a missing grammar is reported to a caller that does not ask for exceptions.
theorem distillFile_of_raises (raise : Bool) {e : Exn} (h : parser.Raises filePath stored e) :
    parser.distillFile filePath stored raise =
      if e.IsGrammarNotFound ∨ raise then .error e else .ok [] := by
  obtain ⟨hl, config, hc, hp⟩ := h
  unfold distillFile TreeSitterParser.distillFile
  simp only [hl, hc, hp, if_true]
  cases e <;> cases raise <;> simp [Exn.IsGrammarNotFound]

theorem mem_distillFile {units : List KnowledgeUnit}
    (h : parser.distillFile filePath stored raise = .ok units) :
    ∀ u ∈ units, ∃ config source node parent prev qname, u =
      processNode parser.runtime config source (stored.getD filePath) node parent prev qname := by
  unfold distillFile at h
  dsimp only at h
  split at h
  case isFalse => cases h; exact nofun
  case isTrue =>
    unfold TreeSitterParser.distillFile at h
    cases hc : languageOf parser.runtime filePath <;> simp only [hc] at h
    case none => cases h; exact nofun
    case some config =>
      cases hp : parseFile parser.runtime parser.files config filePath (stored.getD filePath) <;>
        simp only [hp] at h
      case ok => cases h; exact fun u hu => ⟨config, mem_parseFile hp u hu⟩
      case error e =>
        split at h
        · rename_i heq; cases heq
        · cases h
        · split at h <;> cases h
          exact nofun

theorem parsed_of_distillFile {units : List KnowledgeUnit}
    (h : parser.distillFile filePath stored raise = .ok units) :
    ∀ u ∈ units, Parsed (stored.getD filePath) u := by
  intro u hu
  obtain ⟨_, _, _, _, _, qname, rfl⟩ := mem_distillFile h u hu
  exact ⟨rfl, ⟨qname, rfl⟩, rfl, rfl⟩

end MultiParser
