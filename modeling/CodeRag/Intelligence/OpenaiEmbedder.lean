import CodeRag.Storage.Bind

-- An embedder that sends its texts to a service with the interface of OpenAI.

-- The field `embedding` of an item of a response.
inductive EmbeddingField (F : Type)
  | vector (vec : List F)
  | vectors (vecs : List (List F))
  deriving DecidableEq

inductive EmbeddingItem (F : Type)
  | dict (index : Nat) (embedding : Option (EmbeddingField F))
  | object (index : Nat) (embedding : Option (EmbeddingField F))
  deriving DecidableEq

namespace EmbeddingItem

variable {F : Type}

-- The position of the text that the item belongs to.
def index : EmbeddingItem F → Nat
  | dict i _ | object i _ => i

def embedding : EmbeddingItem F → Option (EmbeddingField F)
  | dict _ e | object _ e => e

end EmbeddingItem

structure EmbeddingRequest where
  model    : String
  input    : List String
  apiBase  : String
  apiKey   : Option String
  provider : Option String

-- `service` is `litellm.aembedding` with the data of its response, and `normalize` divides a vector
-- by its length.
structure OpenAICompatEmbedder (F : Type) where
  apiBase          : String
  apiKey           : Option String
  provider         : Option String
  model            : String
  service          : EmbeddingRequest → Except Exn (List (EmbeddingItem F))
  normalize        : List F → List F
  normalize_length : ∀ vec, (normalize vec).length = vec.length

namespace OpenAICompatEmbedder

variable {F : Type}

def vectorFromItem (item : EmbeddingItem F) : Except Exn (List F) :=
  match item.embedding with
  | none                       => .error (.other "embedding item has no embedding")
  | some (.vector vec)         => .ok vec
  | some (.vectors [])         => .ok []
  | some (.vectors (vec :: _)) => .ok vec

variable (embedder : OpenAICompatEmbedder F)

def modelId : String :=
  if embedder.provider = some "ollama" ∧ ¬embedder.model.hasPrefix "ollama/" then
    "ollama/" ++ embedder.model
  else
    embedder.model

def request (texts : List String) : EmbeddingRequest where
  model    := embedder.modelId
  input    := texts
  apiBase  := embedder.apiBase
  apiKey   := embedder.apiKey
  provider := embedder.provider

-- except Exception as exc: raise IntelligenceError(...) from exc
def requestFailed {α : Type} : Except Exn α → Except Exn α
  | .ok a    => .ok a
  | .error e => .error (.intelligence s!"Embedding request failed: {e.message}")

def checkWidths (dim : Option Nat) (raw : List (List F)) : Except Exn Unit :=
  match dim with
  | none   => .ok ()
  | some n =>
    match raw.find? (·.length ≠ n) with
    | none     => .ok ()
    | some vec => .error (.intelligence
        s!"Embedding length {vec.length} does not match bound dimension {n}")

-- `l2_normalize_rows(np.asarray(raw, dtype=float)).tolist()`: vectors of different lengths do not
-- form an array, and the array of no vectors has no rows.
def normalizeRows : List (List F) → Except Exn (List (List F))
  | []         => .error (.value "axis 1 is out of bounds for array of dimension 1")
  | row :: raw =>
    if ∀ vec ∈ raw, vec.length = row.length then
      .ok ((row :: raw).map embedder.normalize)
    else
      .error (.value "setting an array element with a sequence.")

-- `dim` is the width that the embedder is bound to, and `count` the number of texts.
def receive (dim : Option Nat) (count : Nat) (data : List (EmbeddingItem F)) :
    Except Exn (List (List F)) := do
  let raw ← requestFailed (data.mapM vectorFromItem)
  if raw.length ≠ count then
    throw (.intelligence "Embedding count mismatch")
  else
    checkWidths dim raw
    embedder.normalizeRows raw

def aembed (dim : Option Nat) (texts : List String) : Except Exn (List (List F)) := do
  let data ← requestFailed (embedder.service (embedder.request texts))
  embedder.receive dim texts.length data

-- The embedder of a storage.
def toEmbedder {F : Floats} (embedder : OpenAICompatEmbedder F) : Embedder F where
  modelId := embedder.modelId
  aembed  := embedder.aembed

end OpenAICompatEmbedder
