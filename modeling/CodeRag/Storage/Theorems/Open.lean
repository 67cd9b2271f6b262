import CodeRag.Storage.DuckDB

-- What opening an index for reading and writing leaves when no statement fails.

def noFaults : Nat → Bool :=
  fun _ => false

namespace Db

variable {F : Floats} {db : Db F} {k : String}

def ensureMeta (db : Db F) : Db F :=
  { db with indexMeta := some (db.indexMeta.getD .empty) }

-- DROP TABLE unit_embeddings, and the two keys that describe it.
def wipe (db : Db F) : Db F :=
  { db with
    embeddings := none
    indexMeta  := db.indexMeta.map (·.delete (·.key ∈ [META_DIM_KEY, META_MODEL_KEY])) }

@[simp] theorem ensureMeta_units : db.ensureMeta.units = db.units := rfl
@[simp] theorem ensureMeta_embeddings : db.ensureMeta.embeddings = db.embeddings := rfl
@[simp] theorem ensureMeta_vec? {i : String} : db.ensureMeta.vec? i = db.vec? i := rfl
@[simp] theorem ensureMeta_isSome : db.ensureMeta.indexMeta.isSome := rfl

@[simp]
theorem meta?_ensureMeta : db.ensureMeta.meta? k = db.meta? k := by
  unfold meta? ensureMeta
  cases db.indexMeta <;> rfl

@[simp] theorem wipe_units : db.wipe.units = db.units := rfl
@[simp] theorem wipe_embeddings : db.wipe.embeddings = none := rfl

@[simp]
theorem wipe_isSome : db.wipe.indexMeta.isSome = db.indexMeta.isSome := by
  simp [wipe]

theorem meta?_wipe :
    db.wipe.meta? k = if k ∈ [META_DIM_KEY, META_MODEL_KEY] then none else db.meta? k := by
  unfold meta? wipe
  cases db.indexMeta
  case none => simp
  case some t =>
    simp only [Option.map_some, Option.bind_some, Table.find?_delete]
    cases h : t.find? k
    case none => simp
    case some r =>
      have hk : r.key = k := Table.key_of_find? h
      simp only [Option.filter_some, hk]
      split <;> split <;> simp_all

-- Whether an index with these tables is found to hold the vectors of another model.
def isDirty (db : Db F) (model : String) : Bool :=
  db.embeddings.isSome && (db.meta? META_MODEL_KEY).getD LOCAL_EMBEDDING_MODEL_ID ≠ model

end Db

-- An index that is opened for reading and writing.
def World.opened {F : Floats} (embedder : Embedder F) (db : Db F) (wipe : Bool) (dimension : Option Nat)
    (llmFaults : Nat → Bool) : World F :=
  let db' := if wipe then db.ensureMeta.wipe else db.ensureMeta
  { World.connect db' .readWrite dimension noFaults llmFaults with
    dirty       := db'.isDirty embedder.modelId
    pendingWipe := wipe }

theorem openDbConnection_eq {F : Floats} {embedder : Embedder F} {db : Db F} {wipe : Bool}
    {dimension : Option Nat} {llmFaults : Nat → Bool} :
    Conn.openDbConnection embedder wipe (.connect db .readWrite dimension noFaults llmFaults) =
      .ok () (.opened embedder db wipe dimension llmFaults) := by
  cases wipe
  case true => rfl
  case false =>
    obtain ⟨units, embeddings, relations, dependencies, indexMeta⟩ := db
    cases embeddings <;> rfl
