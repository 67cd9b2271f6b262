import CodeRag.Lib.Strings
import CodeRag.Storage.Db

-- How the first vector operation of a session binds the embedder to the vectors in the index.

-- An embedding model. The calls of `aembed` may depend on the width it is bound to.
structure Embedder (F : Floats) where
  modelId : String
  aembed  : Option Nat → List String → Except Exn (List (List F))

def META_DIM_KEY : String := "embedding_dim"

def META_MODEL_KEY : String := "embedding_model"

def PATHS_MIGRATED_KEY : String := "paths_migrated"

def EMBEDDINGS_MISSING_MSG : String :=
  "Embeddings table is missing; run sync (CodeRAG.sync) before search."

-- The most digits that `int` reads.
def MAX_STR_DIGITS : Nat := 4300

-- The value of a nonempty string of decimal digits.
def parseDigits (s : String) : Option Nat :=
  if s ≠ "" ∧ s.toList.all Char.isDigit then some (Nat.ofDigitChars 10 s.toList 0) else none

theorem parseDigits_toString {n : Nat} : parseDigits (toString n) = some n := by
  have hne : toString n ≠ "" := by
    intro h
    have h' := congrArg String.toList h
    rw [Nat.toList_toString] at h'
    exact Nat.toDigits_ne_nil h'
  have hd : (toString n).toList.all Char.isDigit := List.all_eq_true.mpr Nat.isDigit_toString
  rw [parseDigits, if_pos ⟨hne, hd⟩, Nat.toList_toString, Nat.ofDigitChars_ten_toDigits]

theorem strip_toString {n : Nat} : (toString n).strip = toString n := by
  refine String.strip_of_not_blank fun c hc => ?_
  have hd := Nat.isDigit_toString c hc
  simp only [Char.isDigit, Bool.and_eq_true, decide_eq_true_eq, UInt32.le_iff_toNat_le,
    ge_iff_le] at hd
  have hl : 48 ≤ c.toNat := hd.left
  have hu : c.toNat ≤ 57 := hd.right
  simp only [String.isBlank, List.mem_cons, List.not_mem_nil, or_false, decide_eq_false_iff_not]
  omega

namespace Conn

variable {F : Floats}

def corruptMetadata : Exn :=
  .storage "Corrupt embedding metadata. Run rebuild." (some .storageCorrupt)

def dimensionMismatch (index embedder : Nat) : Exn :=
  .storage s!"Embedding dimension mismatch (index={index}, embedder={embedder}). Run rebuild."
    (some .embeddingMismatch)

def tooManyDigits (digits : Nat) : Exn :=
  .value (s!"Exceeds the limit ({MAX_STR_DIGITS} digits) for integer string conversion: " ++
    s!"value has {digits} digits; use sys.set_int_max_str_digits() to increase the limit")

def parsePositiveDim (raw : String) : Except Exn Nat :=
  match parseDigits raw.strip with
  | none   => .error corruptMetadata
  | some n =>
    if MAX_STR_DIGITS < raw.strip.length then
      .error (tooManyDigits raw.strip.length)
    else if n < 1 then
      .error corruptMetadata
    else
      .ok n

def embeddingsTableExists : Conn F Bool :=
  select (·.embeddings.isSome)

def indexMetaTableExists : Conn F Bool :=
  select (·.indexMeta.isSome)

def schemaVecWidth : Conn F (Option Nat) :=
  statement fun w =>
    match w.db.embeddings with
    | some e => .ok e.width w
    | none   => .error (.database "Table with name unit_embeddings does not exist!") w

def metaGet (k : String) : Conn F (Option String) := do
  if ← indexMetaTableExists then select (·.meta? k) else pure none

def metaSet (k v : String) : Conn F Unit :=
  execute fun db =>
    if db.indexMeta.isSome then
      .ok (db.setMeta k v)
    else
      .error (.database "Table with name index_meta does not exist!")

section Embedder

def dimension : Conn F Nat := fun w =>
  match w.dimension with
  | some n => .ok n w
  | none   => .error (.intelligence "Embedding dimension is not bound") w

def bindDimension (n : Nat) : Conn F Unit := fun w =>
  if n < 1 then
    .error (.intelligence "embedding dimension must be a positive int") w
  else
    match w.dimension with
    | none   => .ok () { w with dimension := some n }
    | some m =>
      if n ≠ m then
        .error (.intelligence s!"Cannot bind dimension {n}; embedder already bound to {m}") w
      else
        .ok () w

def aembed (embedder : Embedder F) (texts : List String) : Conn F (List (List F)) := fun w =>
  let w' := { w.tick with calls := w.calls ++ [.aembed texts] }
  if w.faults 0 then
    .error (.intelligence "Embedding request failed") w'
  else
    match embedder.aembed w.dimension texts with
    | .ok vectors => .ok vectors w'
    | .error e    => .error e w'

def probeOrBindDimension (embedder : Embedder F) : Conn F Nat :=
  tryCatch (do
    let already ← dimension
    bindDimension already
    pure already)
  fun _ => do
    match ← aembed embedder [EMBEDDING_PROBE_TEXT] with
    | [] | [] :: _ => throw (.intelligence "Embedding count mismatch")
    | row :: _     =>
      bindDimension row.length
      pure row.length

def bindEmbedderToTarget (target : Nat) : Conn F Nat := do
  let already := (← get).dimension
  if already.isSome ∧ already ≠ some target then
    throw (dimensionMismatch target (already.getD 0))
  else
    bindDimension target
    pure target

end Embedder

-- The recorded width and model and the width of the table, or none when there is no table.
def readState (wiped : Bool) : Conn F (Option (Option String × Option String × Option Nat)) := do
  if wiped then
    pure none
  else if ← embeddingsTableExists then
    let metaDimRaw ← metaGet META_DIM_KEY
    let metaModel  ← metaGet META_MODEL_KEY
    let schemaN    ← schemaVecWidth
    pure (some (metaDimRaw, metaModel, schemaN))
  else
    pure none

def writeInferred (inferred : Nat) : Conn F Unit := do
  metaSet META_DIM_KEY (toString inferred)
  metaSet META_MODEL_KEY LOCAL_EMBEDDING_MODEL_ID

def bindToRecorded (embedder : Embedder F) (dimRaw model : String) (schemaN : Option Nat) :
    Conn F Nat := do
  let metaN ← MonadExcept.ofExcept (parsePositiveDim dimRaw)
  if schemaN.isSome ∧ schemaN ≠ some metaN then
    throw corruptMetadata
  else if model = embedder.modelId then
    bindEmbedderToTarget (schemaN.getD metaN)
  else
    probeOrBindDimension embedder

def bindToInferred (embedder : Embedder F) (inferred : Nat) (readOnly : Bool) : Conn F Nat := do
  (if readOnly then pure () else writeInferred inferred)
  if embedder.modelId = LOCAL_EMBEDDING_MODEL_ID then
    bindEmbedderToTarget inferred
  else
    probeOrBindDimension embedder

def bindEmbedderDimension (embedder : Embedder F) (wiped readOnly : Bool) : Conn F Nat := do
  match ← readState wiped with
  | none                                    => probeOrBindDimension embedder
  | some (some dimRaw, some model, schemaN) => bindToRecorded embedder dimRaw model schemaN
  | some (_, _, schemaN)                    =>
    bindToInferred embedder (schemaN.getD EMBEDDING_DIM) readOnly

def arrayTooLarge : Exn :=
  .database s!"Arrays must have a size of at most {MAX_ARRAY_SIZE}"

-- CREATE TABLE IF NOT EXISTS unit_embeddings
def createEmbeddings (dim : Nat) : Conn F Unit :=
  if 0 < dim then
    execute fun db =>
      if h : ArraySize dim then
        match db.embeddings with
        | some _ => .ok db
        | none   => .ok { db with embeddings := some (.create dim h) }
      else
        .error arrayTooLarge
  else
    throw (.storage "embedding dimension must be a positive int" none)

-- The width of the table, if there is a table and its type has a width.
def tableWidth : Conn F (Option Nat) := do
  if ← embeddingsTableExists then schemaVecWidth else pure none

def createTableAndSyncMeta (embedder : Embedder F) (dim : Nat) : Conn F Unit := do
  let schemaN   ← tableWidth
  let metaModel ← metaGet META_MODEL_KEY
  if schemaN.isSome ∧ schemaN ≠ some dim then
    throw (dimensionMismatch (schemaN.getD 0) dim)
  else if (← get).mode = .readOnly then
    pure ()
  else
    createEmbeddings dim
    metaSet META_DIM_KEY (toString dim)
    if metaModel = none then metaSet META_MODEL_KEY embedder.modelId else pure ()

-- A read-only session cannot create the table.
def requireTable : Conn F Unit := do
  if (← get).mode = .readWrite then
    pure ()
  else if ← embeddingsTableExists then
    pure ()
  else
    throw (.storage EMBEDDINGS_MISSING_MSG (some .embeddingsMissing))

def bindEmbeddings (embedder : Embedder F) : Conn F Unit := do
  requireTable
  let w   ← get
  let dim ← bindEmbedderDimension embedder w.pendingWipe (w.mode = .readOnly)
  createTableAndSyncMeta embedder dim

def ensureEmbeddingsBound (embedder : Embedder F) : Conn F Unit := do
  if (← get).bound then
    pure ()
  else
    bindEmbeddings embedder
    modify fun w => { w with bound := true, pendingWipe := false }

end Conn
