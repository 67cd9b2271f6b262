import Mathlib

inductive ErrorCode
  | storageBusy
  | storageCorrupt
  | embeddingMismatch
  | embeddingsMissing
  deriving DecidableEq, Repr

-- `database` is an error of the database engine, `value` a `ValueError`, `other` any further
-- exception.
inductive Exn
  | storage (message : String) (code : Option ErrorCode)
  | intelligence (message : String)
  | grammarNotFound (message : String)
  | value (message : String)
  | database (message : String)
  | other (message : String)
  deriving DecidableEq, Repr

namespace Exn

-- `str(exc)`
def message : Exn → String
  | storage m _ | intelligence m | grammarNotFound m | value m | database m | other m => m

def IsGrammarNotFound : Exn → Prop
  | grammarNotFound _ => True
  | _                 => False

instance : DecidablePred IsGrammarNotFound := fun e => by
  cases e <;> unfold IsGrammarNotFound <;> infer_instance

end Exn

-- The embedding constants of the source.

def EMBEDDING_DIM : Nat := 384

def EMBEDDING_BATCH_SIZE : Nat := 32

def EMBEDDING_PROBE_TEXT : String := "probe"

def LOCAL_EMBEDDING_MODEL_ID : String := "local:mini-lm"
