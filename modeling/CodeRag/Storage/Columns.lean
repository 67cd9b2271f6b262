import CodeRag.Lib.Json
import CodeRag.Storage.DuckDB

-- How units and relations are written to the columns of their tables, and read from these.

-- A value of a column: NULL, a VARCHAR (which a JSON column takes and gives back) or a VARCHAR[].
inductive SqlValue
  | null
  | varchar (s : String)
  | list (l : List String)
  deriving DecidableEq, Repr

-- `UnitKind(value)`
def UnitKind.ofValue (s : String) : Except Exn UnitKind :=
  match [UnitKind.module, .klass, .function, .method].find? (·.value = s) with
  | some kind => .ok kind
  | none      => .error (.value s!"'{s}' is not a valid UnitKind")

def RelationType.value : RelationType → String
  | imports  => "imports"
  | calls    => "calls"
  | inherits => "inherits"
  | defines  => "defines"

-- `RelationType(value)`
def RelationType.ofValue (s : String) : Except Exn RelationType :=
  match [RelationType.imports, .calls, .inherits, .defines].find? (·.value = s) with
  | some type => .ok type
  | none      => .error (.value s!"'{s}' is not a valid RelationType")

def UNIT_COLUMNS : List String :=
  ["id", "kind", "name", "path", "signature", "docstring", "summary", "code_hash", "tags", "metadata"]

namespace SqlValue

def ofOption : Option String → SqlValue
  | none   => null
  | some s => varchar s

-- The validation of a field of a model: a string, a string that may be missing, a list of strings.

def validationError : Exn :=
  .value "validation error"

def string : SqlValue → Except Exn String
  | varchar s => .ok s
  | _         => .error validationError

def optionalString : SqlValue → Except Exn (Option String)
  | null      => .ok none
  | varchar s => .ok (some s)
  | list _    => .error validationError

def tags : SqlValue → Except Exn (List String)
  | null      => .ok []
  | list l    => .ok l
  | varchar s => if s = "" then .ok [] else .error validationError

-- `json.loads(value) if value else {}`, which has to be an object.
def metadata : SqlValue → Except Exn (List (String × Json))
  | null      => .ok []
  | list l    => if l = [] then .ok [] else .error (.other "the JSON object must be str")
  | varchar s =>
    if s = "" then
      .ok []
    else
      match Json.loads s with
      | some (.obj fields) => .ok fields
      | some _             => .error validationError
      | none               => .error (.value "Expecting value")

end SqlValue

-- The values of the columns, in the order of `UNIT_COLUMNS`.
def UnitRow.payload (unit : UnitRow) : List SqlValue := [
  .varchar unit.id,
  .varchar unit.kind.value,
  .varchar unit.name,
  .varchar unit.path,
  .ofOption unit.signature,
  .ofOption unit.docstring,
  .ofOption unit.summary,
  .varchar unit.codeHash,
  .list unit.tags,
  .varchar (Json.obj unit.metadata).dumps]

-- `dict(zip(UNIT_COLUMNS, row))[name]`
def column (row : List SqlValue) (name : String) : Except Exn SqlValue :=
  match (UNIT_COLUMNS.zip row).lookup name with
  | some value => .ok value
  | none       => .error (.other name)

def mapRowToUnit (row : List SqlValue) : Except Exn UnitRow := do
  return {
    id        := ← (← column row "id").string
    kind      := ← UnitKind.ofValue (← (← column row "kind").string)
    name      := ← (← column row "name").string
    path      := ← (← column row "path").string
    signature := ← (← column row "signature").optionalString
    docstring := ← (← column row "docstring").optionalString
    summary   := ← (← column row "summary").optionalString
    codeHash  := ← (← column row "code_hash").string
    tags      := ← (← column row "tags").tags
    metadata  := ← (← column row "metadata").metadata }

def Relation.payload (relation : Relation) : List SqlValue :=
  [.varchar relation.fromId, .varchar relation.toId, .varchar relation.type.value]

def mapRowToRelation : List SqlValue → Except Exn Relation
  | [fromId, toId, type] => do
    return {
      fromId := ← fromId.string
      toId   := ← toId.string
      type   := ← RelationType.ofValue (← type.string) }
  | _ => .error (.other "tuple index out of range")

namespace Db

variable {F : Floats} {db : Db F} {u : UnitRow} {i : String}

-- The rows of the `units` table as the database holds them.
def unitRows (db : Db F) : List (List SqlValue) :=
  db.units.rows.map UnitRow.payload

def relationRows (db : Db F) : List (List SqlValue) :=
  db.relations.rows.map Relation.payload

-- The first column has the given value.
def startsWith (i : String) (row : List SqlValue) : Bool :=
  row.head? = some (.varchar i)

-- SELECT columns FROM units WHERE id = ?
def selectUnit (db : Db F) (i : String) : Option (List SqlValue) :=
  db.unitRows.find? (startsWith i)

-- SELECT from_id, to_id, type FROM relations WHERE from_id = ?
def selectRelations (db : Db F) (i : String) : List (List SqlValue) :=
  db.relationRows.filter (startsWith i)

@[simp]
theorem startsWith_unit : startsWith i u.payload = decide (u.id = i) := by
  simp [startsWith, UnitRow.payload]

@[simp]
theorem startsWith_relation {r : Relation} : startsWith i r.payload = decide (r.fromId = i) := by
  simp [startsWith, Relation.payload]

theorem selectUnit_eq : db.selectUnit i = (db.units.find? i).map UnitRow.payload := by
  rw [selectUnit, unitRows, List.find?_map, Table.find?]
  congr 2
  funext u
  exact startsWith_unit

theorem selectRelations_eq : db.selectRelations i =
    (db.relations.rows.filter (·.fromId = i)).map Relation.payload := by
  rw [selectRelations, relationRows, List.filter_map]
  congr 2
  funext r
  exact startsWith_relation

end Db

section Decoding

theorem UnitKind.ofValue_value {kind : UnitKind} : ofValue kind.value = .ok kind := by
  cases kind <;> decide

theorem RelationType.ofValue_value {type : RelationType} : ofValue type.value = .ok type := by
  cases type <;> decide

@[simp]
theorem SqlValue.optionalString_ofOption {s : Option String} : (ofOption s).optionalString = .ok s := by
  cases s <;> rfl

@[simp]
theorem SqlValue.metadata_dumps {fields : List (String × Json)} (h : (Json.obj fields).WellFormed) :
    (varchar (Json.obj fields).dumps).metadata = .ok fields := by
  have hne : (Json.obj fields).dumps ≠ "" := by
    intro he
    have hl := congrArg (fun s => s.toList.length) he
    have hw := Json.length_write (j := .obj fields)
    simp [Json.dumps] at hl
    simp [hl] at hw
  rw [metadata, if_neg hne, Json.loads_dumps h]

-- A unit is read back from the columns that were written for it.
theorem mapRowToUnit_payload {u : UnitRow} (h : (Json.obj u.metadata).WellFormed) :
    mapRowToUnit u.payload = .ok u := by
  simp [mapRowToUnit, column, UnitRow.payload, UNIT_COLUMNS, List.lookup, SqlValue.string,
    SqlValue.tags, UnitKind.ofValue_value, h, bind, Except.bind, pure, Except.pure]

theorem mapRowToRelation_payload {r : Relation} : mapRowToRelation r.payload = .ok r := by
  obtain ⟨fromId, toId, type⟩ := r
  simp [mapRowToRelation, Relation.payload, SqlValue.string, RelationType.ofValue_value, bind,
    Except.bind, pure, Except.pure]

-- So are all relations.
theorem mapM_mapRowToRelation {rels : List Relation} :
    (rels.map Relation.payload).mapM mapRowToRelation = .ok rels := by
  induction rels
  case nil => rfl
  case cons r rels ih =>
    rw [List.map_cons, List.mapM_cons, mapRowToRelation_payload, ih]
    rfl

end Decoding

namespace Conn

open EStateM

variable {F : Floats} {w : World F} {i : String}

-- A Python expression that may raise.
def eval {α : Type} (r : Except Exn α) : Conn F α :=
  match r with
  | .ok a    => pure a
  | .error e => throw e

-- `get_unit`, over the rows as the database returns them.
def fetchUnit (i : String) : Conn F (Option KnowledgeUnit) := do
  match ← select (·.selectUnit i) with
  | none     => pure none
  | some row =>
    let unit      ← eval (mapRowToUnit row)
    let relations ← eval ((← select (·.selectRelations i)).mapM mapRowToRelation)
    pure (some { toUnitRow := unit, relations := relations })

private theorem select_of_fault {α : Type} {f : Db F → α} (h : w.faults 0) :
    select f w = .error (.database "statement failed") w.tick := by
  simp [select, statement, h]

private theorem select_of_not_fault {α : Type} {f : Db F → α} (h : w.faults 0 = false) :
    select f w = .ok (f w.db) w.tick := by
  simp [select, statement, h]

-- The columns hold what the tables of the model hold, whichever statement fails.
theorem fetchUnit_eq (h : ∀ u, w.db.units.find? i = some u → (Json.obj u.metadata).WellFormed) :
    fetchUnit i w = getUnit i w := by
  unfold fetchUnit getUnit
  cases hf : w.faults 0
  case true  => rw [bind_of_error (select_of_fault hf), bind_of_error (select_of_fault hf)]
  case false =>
    rw [bind_of_ok (select_of_not_fault hf), bind_of_ok (select_of_not_fault hf), Db.selectUnit_eq]
    cases hu : w.db.units.find? i
    case none   => rfl
    case some u =>
      have he : eval (F := F) (mapRowToUnit u.payload) = pure u := by
        rw [mapRowToUnit_payload (h u hu)]
        rfl
      dsimp only [Option.map_some]
      rw [he, pure_bind, getRelations]
      cases hf' : w.tick.faults 0
      case true  =>
        rw [bind_of_error (select_of_fault hf'), bind_of_error (select_of_fault hf')]
      case false =>
        rw [bind_of_ok (select_of_not_fault hf'), bind_of_ok (select_of_not_fault hf'),
          Db.selectRelations_eq, mapM_mapRowToRelation]
        rfl

end Conn
