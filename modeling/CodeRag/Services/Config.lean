import CodeRag.Lib.Json
import CodeRag.Lib.Strings
import CodeRag.Core.Exceptions
import CodeRag.Core.Models

-- The settings of the language models, the file that keeps them, and how a request changes them.

abbrev PositiveInt := { n : Int // 0 < n }

def LLM_REQUEST_TIMEOUT : PositiveInt := ⟨300, by decide⟩

def MAX_CONCURRENT_TASKS : PositiveInt := ⟨4, by decide⟩

-- `extra` are the fields of a file that have no name here.
structure DistillerConfig where
  model             : Option String := none
  apiBase           : Option String := none
  apiKey            : Option String := none
  provider          : Option String := none
  temperature       : FloatLiteral  := .zero
  timeout           : PositiveInt   := LLM_REQUEST_TIMEOUT
  maxConcurrency    : PositiveInt   := MAX_CONCURRENT_TASKS
  embeddingBase     : Option String := none
  embeddingKey      : Option String := none
  embeddingModel    : Option String := none
  embeddingProvider : Option String := none
  relativePaths     : Bool          := false
  extra             : List (String × Json) := []

-- The arguments of `config`.
structure ConfigRequest where
  url               : Option String := none
  key               : Option String := none
  model             : Option String := none
  provider          : Option String := none
  timeout           : Option Int    := none
  maxConcurrency    : Option Int    := none
  embeddingUrl      : Option String := none
  embeddingKey      : Option String := none
  embeddingModel    : Option String := none
  embeddingProvider : Option String := none
  clearEmbedding    : Bool          := false

namespace ConfigRequest

def embeddingFieldsRequested (r : ConfigRequest) : Bool :=
  r.embeddingUrl.isSome || r.embeddingKey.isSome || r.embeddingModel.isSome ||
    r.embeddingProvider.isSome || r.clearEmbedding

def distillFieldsRequested (r : ConfigRequest) : Bool :=
  r.url.isSome || r.key.isSome || r.model.isSome || r.provider.isSome || r.timeout.isSome ||
    r.maxConcurrency.isSome

def hasUpdates (r : ConfigRequest) : Bool :=
  r.embeddingFieldsRequested || r.distillFieldsRequested

end ConfigRequest

def validatePositiveInt (name : String) : Option Int → Except Exn (Option PositiveInt)
  | none   => .ok none
  | some n =>
    if h : 0 < n then .ok (some ⟨n, h⟩)
    else .error (.intelligence s!"{name} must be greater than 0")

def blankStringToNone (value : Option String) : Option String :=
  (value.map String.strip).filter (· ≠ "")

def embeddingPairError : Exn :=
  .intelligence "embedding_base and embedding_model must both be set or both unset"

namespace DistillerConfig

def blankStringsToNone (c : DistillerConfig) : DistillerConfig := { c with
  model             := blankStringToNone c.model
  apiBase           := blankStringToNone c.apiBase
  apiKey            := blankStringToNone c.apiKey
  provider          := blankStringToNone c.provider
  embeddingBase     := blankStringToNone c.embeddingBase
  embeddingKey      := blankStringToNone c.embeddingKey
  embeddingModel    := blankStringToNone c.embeddingModel
  embeddingProvider := blankStringToNone c.embeddingProvider }

def clearEmbedding (c : DistillerConfig) : DistillerConfig := { c with
  embeddingBase     := none
  embeddingKey      := none
  embeddingModel    := none
  embeddingProvider := none }

def applyConfigUpdates (c : DistillerConfig) (r : ConfigRequest) : Except Exn DistillerConfig := do
  let timeout        ← validatePositiveInt "timeout" r.timeout
  let maxConcurrency ← validatePositiveInt "max_concurrency" r.maxConcurrency
  let c := { c with
    apiBase        := r.url.or c.apiBase
    apiKey         := r.key.or c.apiKey
    model          := r.model.or c.model
    provider       := r.provider.or c.provider
    timeout        := timeout.getD c.timeout
    maxConcurrency := maxConcurrency.getD c.maxConcurrency }
  let c := if r.clearEmbedding then c.clearEmbedding else c
  let c := { c with
    embeddingBase     := r.embeddingUrl.or c.embeddingBase
    embeddingKey      := r.embeddingKey.or c.embeddingKey
    embeddingModel    := r.embeddingModel.or c.embeddingModel
    embeddingProvider := r.embeddingProvider.or c.embeddingProvider }
  let c := c.blankStringsToNone
  if c.embeddingBase.isSome ≠ c.embeddingModel.isSome then throw embeddingPairError
  return c

end DistillerConfig

-- The file `config.json` after `version` writes. It has no content when it is missing or broken: a
-- text that was cut off is no JSON document.
structure ConfigFile where
  content : Option DistillerConfig
  version : Nat

-- A configuration with the version of the file that it was read from.
structure Settings where
  config  : DistillerConfig
  version : Nat

-- What becomes of the file when the configuration is saved: its directory cannot be made, it cannot
-- be opened, the text breaks off after the file has been emptied, or the whole text is written.
inductive Saving
  | noDirectory
  | notOpened
  | broken
  | written

namespace ConfigFile

def load (f : ConfigFile) : Settings where
  config  := (f.content.map DistillerConfig.blankStringsToNone).getD {}
  version := f.version

-- The file afterwards, and its version when the configuration is in it. Errors of the file itself are
-- logged.
def save (f : ConfigFile) (c : DistillerConfig) (saving : Saving) :
    Except Exn (ConfigFile × Option Nat) :=
  if c.embeddingBase.isSome ≠ c.embeddingModel.isSome then
    .error embeddingPairError
  else
    match saving with
    | .noDirectory => .error (.other "cannot create the directory of the config file")
    | .notOpened   => .ok (f, none)
    | .broken      => .ok ({ content := none, version := f.version + 1 }, none)
    | .written     => .ok ({ content := c, version := f.version + 1 }, some (f.version + 1))

def loadOrUpdateConfig (f : ConfigFile) (r : ConfigRequest) (saving : Saving) :
    Except Exn (DistillerConfig × ConfigFile × Option Nat) := do
  let c := f.load.config
  if ¬r.hasUpdates then
    return (c, f, none)
  let c ← c.applyConfigUpdates r
  let saved ← f.save c saving
  return (c, saved)

theorem save_version {f : ConfigFile} {c : DistillerConfig} {saving : Saving}
    {saved : ConfigFile × Option Nat} (h : f.save c saving = .ok saved) :
    f.version ≤ saved.1.version ∧ ∀ v ∈ saved.2, v ≤ saved.1.version := by
  unfold save at h
  split at h
  case isTrue  => cases h
  case isFalse => cases saving <;> cases h <;> simp

theorem loadOrUpdateConfig_version {f f' : ConfigFile} {r : ConfigRequest} {saving : Saving}
    {c : DistillerConfig} {written : Option Nat}
    (h : f.loadOrUpdateConfig r saving = .ok (c, f', written)) :
    f.version ≤ f'.version ∧ (∀ v ∈ written, v ≤ f'.version) ∧ (written.isSome → r.hasUpdates) := by
  unfold loadOrUpdateConfig at h
  cases hr : r.hasUpdates <;> rw [hr] at h
  case false =>
    cases h
    exact ⟨le_rfl, nofun, nofun⟩
  case true =>
    rw [if_neg (by decide)] at h
    cases hc : f.load.config.applyConfigUpdates r <;> rw [hc] at h
    case error => cases h
    case ok c' =>
      cases hs : f.save c' saving
      case error e => simp [hs, bind, Except.bind] at h
      case ok saved =>
        simp only [hs, bind, Except.bind, pure, Except.pure, Except.ok.injEq, Prod.mk.injEq] at h
        obtain ⟨rfl, rfl⟩ := h
        have hv := save_version hs
        exact ⟨hv.left, hv.right, fun _ => rfl⟩

end ConfigFile
