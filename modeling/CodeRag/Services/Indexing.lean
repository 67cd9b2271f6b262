import CodeRag.Lib.Parallel
import CodeRag.Storage.DuckDB
import CodeRag.Parsers.TreeSitter

-- Indexing of one file or of a list of files into an open storage.

-- `summarize` is the call of the language model with a unit's code and name.
structure IndexStack (F : Floats) where
  embedder  : Embedder F
  parser    : MultiParser
  summarize : String → String → Except Exn String
  root      : Option String

-- The text of a unit without a summary.
def UnitRow.fallbackText (u : UnitRow) : String :=
  u.kind.value ++ " " ++ u.name ++ " " ++ u.signature.getD "" ++ " " ++ u.docstring.getD ""

def unitEmbeddingText (u : UnitRow) : String :=
  if truthy u.summary then u.summary.getD "" else u.fallbackText

-- Cuts a list into batches of `n` elements; the last one may be shorter.
def batches (n : Nat) (l : List α) : List (List α) :=
  go [] l
where
  go : List α → List α → List (List α)
    | batch, []      => if batch.isEmpty then [] else [batch]
    | batch, x :: xs =>
      if batch.length + 1 = n then (batch ++ [x]) :: go [] xs else go (batch ++ [x]) xs

theorem batches_flatten {n : Nat} {l : List α} : (batches n l).flatten = l := by
  have h : ∀ l batch : List α, (batches.go n batch l).flatten = batch ++ l := by
    intro l
    induction l
    case nil =>
      intro batch
      cases batch <;> simp [batches.go]
    case cons x xs ih =>
      intro batch
      unfold batches.go
      split <;> simp [ih]
  exact h l []

namespace KnowledgeUnit

-- `unit.metadata.pop("raw_code", "")`
def rawCode (u : KnowledgeUnit) : String :=
  match u.metadata.lookup "raw_code" with
  | some (.str s) => s
  | _             => ""

def popRawCode (u : KnowledgeUnit) : KnowledgeUnit :=
  { u with metadata := u.metadata.filter (·.1 ≠ "raw_code") }

@[simp] theorem popRawCode_id {u : KnowledgeUnit} : u.popRawCode.id = u.id := rfl

end KnowledgeUnit

namespace Coroutine

def ofExcept {σ ε α : Type} (r : Except ε α) : Coroutine σ ε α :=
  done r

end Coroutine

namespace IndexStack

open Conn Coroutine

variable {F : Floats} (stack : IndexStack F)

def reportWorkerFailure (failure : String × Exn) : String × String :=
  (failure.1, failure.2.message)

def upsertVectors (embedder : Embedder F) :
    List (KnowledgeUnit × List F) → Coroutine (World F) Exn Unit
  | []             => pure ()
  | (u, vec) :: us => do
    call (upsertUnit embedder u (some vec))
    upsertVectors embedder us

def embedBatches (embedder : Embedder F) : List (List KnowledgeUnit) → Coroutine (World F) Exn Unit
  | []              => pure ()
  | chunk :: chunks => do
    let vectors ← call (aembed embedder (chunk.map fun u => unitEmbeddingText u.toUnitRow))
    if vectors.length ≠ chunk.length then
      throw (.intelligence "Embedding count mismatch")
    else
      upsertVectors embedder (chunk.zip vectors)
      embedBatches embedder chunks

def embedAndUpsert (embedder : Embedder F) (units : List KnowledgeUnit) :
    Coroutine (World F) Exn Unit := do
  if units.isEmpty then
    pure ()
  else
    call (ensureEmbeddingsBound embedder)
    embedBatches embedder (batches EMBEDDING_BATCH_SIZE units)

def reembedAllUnits (embedder : Embedder F) : Coroutine (World F) Exn Unit := do
  let units ← call listUnits
  embedAndUpsert embedder units
  call (markEmbeddingModelSynced embedder)

def dirtyError : Exn :=
  .storage "Embedding model changed; run rebuild or sync --all" none

def rejectDirtyIncremental : Conn F Unit := fun w =>
  if w.dirty then .error dirtyError w else .ok () w

def shouldDistillUnit (existing : Option KnowledgeUnit) (unit : KnowledgeUnit) (force : Bool) :
    Bool :=
  match existing with
  | none   => true
  | some e => force || e.codeHash ≠ unit.codeHash || !truthy e.summary

-- One call of the summarizer. It may fail for a reason of its own.
def callSummarize (code name : String) : Conn F String := fun w =>
  let w' := fun summary => { w with
    llmFaults := fun n => w.llmFaults (n + 1)
    calls     := w.calls ++ [.summarize code name summary] }
  if w.llmFaults 0 then
    .error (.intelligence "Summarization failed") (w' none)
  else
    match stack.summarize code name with
    | .ok summary => .ok summary (w' (some summary))
    | .error e    => .error e (w' none)

-- The summary of a unit, or the one it had when the summarizer raises.
def distillUnitSummary (unit : KnowledgeUnit) (existing : Option KnowledgeUnit) (rawCode : String) :
    Conn F (Option String) :=
  tryCatch (some <$> stack.callSummarize rawCode unit.name)
    fun _ => pure (existing.bind (·.summary))

def unitNeedsEmbedding (unit : KnowledgeUnit) (existing : Option KnowledgeUnit) (hasVec : Bool) :
    Bool :=
  match existing with
  | none   => true
  | some e => ¬(e.codeHash = unit.codeHash ∧ e.summary = unit.summary ∧ hasVec)

def newSummary (force : Bool) (unit : KnowledgeUnit) (existing : Option KnowledgeUnit)
    (rawCode : String) : Coroutine (World F) Exn (Option String) :=
  if shouldDistillUnit existing unit force then
    call (stack.distillUnitSummary unit existing rawCode)
  else
    pure (existing.bind (·.summary))

-- Stores a unit, unless it has to be embedded first.
def processUnit (force : Bool) (parsed : KnowledgeUnit) :
    Coroutine (World F) Exn (Option KnowledgeUnit) := do
  let unit     := parsed.popRawCode
  let existing ← call (getUnit unit.id)
  let summary  ← stack.newSummary force unit existing parsed.rawCode
  let unit     := { unit with summary := summary }
  let hasVec   ← call (hasEmbedding stack.embedder unit.id)
  if unitNeedsEmbedding unit existing hasVec then
    pure (some unit)
  else
    call (upsertUnit stack.embedder unit none)
    pure none

-- The units that have to be embedded.
def processUnits (force : Bool) :
    List KnowledgeUnit → Coroutine (World F) Exn (List KnowledgeUnit)
  | []      => pure []
  | u :: us => do
    let here ← stack.processUnit force u
    let rest ← processUnits force us
    pure (here.toList ++ rest)

def syncFile (force : Bool) (filePath : String) (storedPath : Option String) :
    Coroutine (World F) Exn Unit := do
  call rejectDirtyIncremental
  let currentUnits ← ofExcept (stack.parser.distillFile filePath storedPath false)
  let pending      ← stack.processUnits force currentUnits
  embedAndUpsert stack.embedder pending
  call <| deleteStaleUnits stack.embedder (storedPath.getD filePath) (currentUnits.map (·.id))

def storedPath (path : String) : Except Exn (Option String) :=
  match stack.root with
  | none      => .ok none
  | some root => some <$> stack.parser.files.projectRelativePosix path root

-- What a worker does with one path.
def syncPath (force : Bool) (path : String) : Coroutine (World F) Exn PUnit := do
  let stored ← ofExcept (stack.storedPath path)
  stack.syncFile force path stored

-- What happens before the workers start.
def reembedIfDirty (indexAll : Bool) : Conn F Unit := do
  if (← get).dirty then
    if indexAll then (reembedAllUnits stack.embedder).run else throw dirtyError

def workerCount (paths : List String) (maxConcurrency : Nat) : Nat :=
  min paths.length maxConcurrency

-- What a call of `sync_project` may return, with the state it leaves.
inductive SyncProject (paths : List String) (force indexAll : Bool) (maxConcurrency : Nat)
    (w : World F) : Except Exn (List (String × String)) → World F → Prop
  | raised {e : Exn} {w' : World F} :
    stack.reembedIfDirty indexAll w = .error e w' →
    SyncProject paths force indexAll maxConcurrency w (.error e) w'
  | returned {w₁ w' : World F} {failures : List (String × Exn)} :
    stack.reembedIfDirty indexAll w = .ok () w₁ →
    Pool.Outcome (stack.syncPath force) paths (workerCount paths maxConcurrency) w₁ failures w' →
    SyncProject paths force indexAll maxConcurrency w (.ok (failures.map reportWorkerFailure)) w'

end IndexStack
