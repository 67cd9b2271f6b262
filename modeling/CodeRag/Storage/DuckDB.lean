import CodeRag.Storage.Bind

-- The operations of an open storage.

-- Replaces the stored path `old` at the beginning of an id.
def rewriteId (old new i : String) : String :=
  if i.hasPrefix (old ++ ":") then new ++ i.substringFrom (old.length + 1) else i

def UnitRow.rewritePath (old new : String) (u : UnitRow) : UnitRow :=
  if u.path = old then { u with path := new, id := rewriteId old new u.id } else u

def Relation.rewritePath (old new : String) (r : Relation) : Relation :=
  { r with fromId := rewriteId old new r.fromId, toId := rewriteId old new r.toId }

namespace Db

variable {F : Floats}

-- id IN (SELECT id FROM units WHERE p)
def unitIdWhere (db : Db F) (p : UnitRow → Bool) (i : String) : Bool :=
  (db.units.find? i).any p

def insertUnit (db : Db F) (u : UnitRow) : Db F :=
  { db with units := db.units.insert u }

def deleteUnits (db : Db F) (p : UnitRow → Bool) : Db F :=
  { db with units := db.units.delete p }

def insertRelation (db : Db F) (r : Relation) : Db F :=
  { db with relations := db.relations.insert r }

def deleteRelations (db : Db F) (p : Relation → Bool) : Db F :=
  { db with relations := db.relations.delete p }

def deleteVectors (db : Db F) (p : String → Bool) : Db F :=
  { db with embeddings := db.embeddings.map (·.delete (p ·.id)) }

end Db

namespace Conn

variable {F : Floats}

def noSuchTable (name : String) : Exn :=
  .database s!"Table with name {name} does not exist!"

def constraintViolation : Exn :=
  .database "Duplicate key violates primary key constraint"

def insertVector (i : String) (vec : List F) : Conn F Unit :=
  execute fun db =>
    match db.embeddings with
    | none   => .error (noSuchTable "unit_embeddings")
    | some e =>
      if h : e.Fits (F.cast vec) then
        .ok { db with embeddings := some (e.insert { id := i, vec := F.cast vec } h) }
      else
        .error (.database "Cannot cast array to array of another size")

def deleteVectors (p : Db F → String → Bool) : Conn F Unit :=
  execute fun db =>
    if db.embeddings.isSome then
      .ok (db.deleteVectors (p db))
    else
      .error (noSuchTable "unit_embeddings")

def setDependencyPath (libName path : String) : Conn F Unit :=
  execute fun db => .ok {
    db with dependencies := db.dependencies.insert { name := libName, path := path } }

def getDependencyPath (libName : String) : Conn F (Option String) :=
  select fun db => (db.dependencies.find? libName).map DependencyRow.path

def upsertRelation (relation : Relation) : Conn F Unit :=
  execute fun db => .ok (db.insertRelation relation)

def upsertUnit (embedder : Embedder F) (unit : KnowledgeUnit) (vector : Option (List F)) :
    Conn F Unit := do
  (if vector.isSome then ensureEmbeddingsBound embedder else pure ())
  execute fun db => .ok (db.insertUnit unit.toUnitRow)
  (match vector with
    | some vec => insertVector unit.id vec
    | none     => pure ())
  unit.relations.forM upsertRelation

def hasEmbedding (embedder : Embedder F) (i : String) : Conn F Bool := do
  ensureEmbeddingsBound embedder
  select fun db => (db.vec? i).isSome

def listUnits : Conn F (List KnowledgeUnit) :=
  select fun db => db.units.rows.map fun u => { toUnitRow := u, relations := [] }

def markEmbeddingModelSynced (embedder : Embedder F) : Conn F Unit := do
  metaSet META_MODEL_KEY embedder.modelId
  modify fun w => { w with dirty := false }

-- The relations that start at a unit.
def getRelations (i : String) : Conn F (List Relation) :=
  select fun db => db.relations.rows.filter (·.fromId = i)

def getUnit (i : String) : Conn F (Option KnowledgeUnit) := do
  match ← select (·.units.find? i) with
  | none     => pure none
  | some row => pure (some { toUnitRow := row, relations := ← getRelations i })

-- The units joined with their vectors, in the order of the distances of these.
def closestUnits (closer : VecRow F → VecRow F → Bool) (queryLength dim limit : Nat) :
    Conn F (List UnitRow) :=
  statement fun w =>
    match w.db.embeddings with
    | none   => .error (noSuchTable "unit_embeddings") w
    | some e =>
      if queryLength ≠ dim ∨ e.width ≠ some dim then
        .error (.database "array_distance: Array arguments must be of the same size") w
      else
        .ok ((e.rows.rows.mergeSort closer).filterMap (w.db.units.find? ·.id) |>.take limit) w

-- `closer v r r'` states that the vector of `r` is at most as far from `v` as that of `r'`.
def searchUnits (embedder : Embedder F) (closer : List F → VecRow F → VecRow F → Bool)
    (query : String) (limit : Nat) : Conn F (List KnowledgeUnit) := do
  ensureEmbeddingsBound embedder
  let dim ← dimension
  match ← aembed embedder [query] with
  | []            => throw (.other "list index out of range")
  | queryVec :: _ =>
    let rows ← closestUnits (closer (F.cast queryVec)) queryVec.length dim limit
    if rows.isEmpty then
      pure []
    else
      let rels ← select fun db =>
        db.relations.rows.filter fun r => rows.any (·.id = r.fromId)
      pure <| rows.map fun u => { toUnitRow := u, relations := rels.filter (·.fromId = u.id) }

def isStale (filePath : String) (currentUnitIds : List String) (u : UnitRow) : Bool :=
  u.path = filePath ∧ u.id ∉ currentUnitIds

def deleteStaleUnits (embedder : Embedder F) (filePath : String) (currentUnitIds : List String) :
    Conn F Unit := do
  ensureEmbeddingsBound embedder
  let stale := isStale filePath currentUnitIds
  deleteVectors (·.unitIdWhere stale)
  execute fun db => .ok (db.deleteRelations (db.unitIdWhere stale ·.fromId))
  execute fun db => .ok (db.deleteUnits stale)

def pathsMigrationDone : Conn F Bool := do
  return (← metaGet PATHS_MIGRATED_KEY) = some "1"

def markPathsMigrated : Conn F Unit :=
  metaSet PATHS_MIGRATED_KEY "1"

def renameVectors (f : String → String) : Conn F Unit :=
  execute fun db =>
    match db.embeddings with
    | none   => .error (noSuchTable "unit_embeddings")
    | some e =>
      match e.rename f with
      | some e' => .ok { db with embeddings := some e' }
      | none    => .error constraintViolation

def rewritePathPrefix (old new : String) (hasEmbeddings : Bool) : Conn F Unit := do
  execute fun db =>
    match db.units.update (·.rewritePath old new) with
    | some units => .ok { db with units := units }
    | none       => .error constraintViolation
  (if hasEmbeddings then renameVectors (rewriteId old new) else pure ())
  execute fun db =>
    match db.relations.update (·.rewritePath old new) with
    | some relations => .ok { db with relations := relations }
    | none           => .error constraintViolation

-- Runs statements in one transaction, which is rolled back when one of them raises.
def transaction (body : Conn F Unit) : Conn F Unit := do
  beginTransaction
  tryCatch (do body; commit) fun e => do rollback; throw e

def commitRewrittenPath (old new : String) : Conn F Unit :=
  transaction do
    let hasEmbeddings ← embeddingsTableExists
    rewritePathPrefix old new hasEmbeddings

def deletePath (hasEmbeddings : Bool) (stored : String) : Conn F Unit := do
  let atPath := fun u : UnitRow => decide (u.path = stored)
  (if hasEmbeddings then deleteVectors (·.unitIdWhere atPath) else pure ())
  execute fun db => .ok <| db.deleteRelations fun r =>
    db.unitIdWhere atPath r.fromId || db.unitIdWhere atPath r.toId
  execute fun db => .ok (db.deleteUnits atPath)

def deleteAbsolutePaths (paths : List String) : Conn F Unit :=
  transaction do
    let hasEmbeddings ← embeddingsTableExists
    paths.forM (deletePath hasEmbeddings)

def commitPathMigration (mapping : List (String × String)) : Conn F Unit := do
  mapping.forM fun m => commitRewrittenPath m.1 m.2
  markPathsMigrated

section Open

-- A statement whose effect on the tables is not part of the model: the vector search extension is
-- loaded, or a table that every model of the tables has is created.
def prepare : Conn F Unit :=
  statement fun w => .ok () w

def ensureBaseTables : Conn F Unit := do
  prepare -- INSTALL vss
  prepare -- LOAD vss
  prepare -- CREATE TABLE IF NOT EXISTS units
  prepare -- CREATE TABLE IF NOT EXISTS relations
  prepare -- CREATE TABLE IF NOT EXISTS dependencies
  execute fun db => .ok { db with indexMeta := some (db.indexMeta.getD .empty) }

def wipeEmbeddings : Conn F Unit := do
  execute fun db => .ok { db with embeddings := none }
  execute fun db => .ok { db with
    indexMeta := db.indexMeta.map (·.delete (·.key ∈ [META_DIM_KEY, META_MODEL_KEY])) }

def applyRwSchema (wipe : Bool) : Conn F Unit := do
  ensureBaseTables
  if wipe then wipeEmbeddings else pure ()

-- `not (self._pending_wipe or not _table_exists(...))`
def vectorsExist : Conn F Bool := do
  if (← get).pendingWipe then pure false else embeddingsTableExists

def refreshDirtyFromMeta (embedder : Embedder F) : Conn F Unit := do
  if ← vectorsExist then
    let metaModel ← metaGet META_MODEL_KEY
    modify fun w => { w with
      dirty := metaModel.getD LOCAL_EMBEDDING_MODEL_ID ≠ embedder.modelId }
  else
    modify fun w => { w with dirty := false }

def finalizeRwOpen (embedder : Embedder F) (wipe : Bool) : Conn F Unit := do
  modify fun w => { w with pendingWipe := wipe }
  refreshDirtyFromMeta embedder

def openDbConnection (embedder : Embedder F) (wipe : Bool) : Conn F Unit := do
  if (← get).mode = .readWrite then
    applyRwSchema wipe
    finalizeRwOpen embedder wipe
  else if wipe then
    throw (.storage "wipe=True is not supported in read-only mode" none)
  else
    finalizeRwOpen embedder wipe

end Open
end Conn

-- A storage object as its constructor leaves it.
def World.connect {F : Floats} (db : Db F) (mode : AccessMode) (dimension : Option Nat)
    (faults llmFaults : Nat → Bool) : World F where
  db          := db
  saved       := none
  mode        := mode
  dirty       := false
  bound       := false
  pendingWipe := false
  dimension   := dimension
  faults      := faults
  llmFaults   := llmFaults
  calls       := []
