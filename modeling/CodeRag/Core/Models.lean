import CodeRag.Lib.Json
import CodeRag.Lib.Table

inductive UnitKind
  | module
  | klass
  | function
  | method
  deriving DecidableEq, Repr

def UnitKind.value : UnitKind → String
  | module   => "module"
  | klass    => "class"
  | function => "function"
  | method   => "method"

inductive RelationType
  | imports
  | calls
  | inherits
  | defines
  deriving DecidableEq, Repr

structure Relation where
  fromId : String
  toId   : String
  type   : RelationType
  deriving DecidableEq, Repr

-- The ten columns of the `units` table. The metadata is a JSON object.
structure UnitRow where
  id        : String
  kind      : UnitKind
  name      : String
  path      : String
  signature : Option String
  docstring : Option String
  summary   : Option String
  codeHash  : String
  tags      : List String
  metadata  : List (String × Json)

structure KnowledgeUnit extends UnitRow where
  relations : List Relation

instance : Keyed UnitRow String where
  key := UnitRow.id

instance : Keyed Relation Relation where
  key := id

@[simp]
theorem key_unitRow {u : UnitRow} : key u = u.id :=
  rfl

@[simp]
theorem key_relation {r : Relation} : key r = r :=
  rfl

-- Python's truth value of an optional string.
def truthy : Option String → Bool
  | none   => false
  | some s => s ≠ ""
