import CodeRag.Services.Sync

-- Sessions on one index. Each opens the index with an embedder of its own.

structure Session (F : Floats) where
  embedder : Embedder F
  world    : World F

-- What a session can be asked to do. `reopen` ends the session, which rolls back an open transaction, and
-- starts the next one.
inductive Request (F : Floats)
  | reopen (embedder : Embedder F) (mode : AccessMode) (wipe : Bool) (dimension : Option Nat)
    (faults llmFaults : Nat → Bool)
  | syncFile (stack : IndexStack F) (force : Bool) (filePath : String) (storedPath : Option String)
  | syncProject (stack : IndexStack F) (paths : List String) (force indexAll : Bool)
    (maxConcurrency : Nat)
  | runSync (stack : IndexStack F) (project : Project) (options : SyncOptions)
  | search (closer : List F → VecRow F → VecRow F → Bool) (query : String) (limit : Nat)

def Request.IsReopen {F : Floats} : Request F → Prop
  | reopen ..                                    => True
  | syncFile .. | syncProject .. | runSync .. | search .. => False

-- What a request returns: an exception, or the failures that it reports.
abbrev Reply := Except Exn (List (String × String))

def EStateM.Result.reply {σ α : Type} (r : EStateM.Result Exn σ α) : Reply :=
  r.outcome.map fun _ => []

namespace Session

open Conn

variable {F : Floats}

-- `s.Step a r s'`: in session `s`, request `a` may return `r` and leave session `s'`.
inductive Step (s : Session F) : Request F → Reply → Session F → Prop
  | reopen {embedder : Embedder F} {mode : AccessMode} {wipe : Bool} {dimension : Option Nat}
    {faults llmFaults : Nat → Bool} {r : EStateM.Result Exn (World F) Unit} :
    openDbConnection embedder wipe (.connect s.world.committed mode dimension faults llmFaults) = r →
    Step s (.reopen embedder mode wipe dimension faults llmFaults) r.reply
      { embedder := embedder, world := r.state }
  | syncFile {stack : IndexStack F} {force : Bool} {filePath : String} {storedPath : Option String}
    {r : EStateM.Result Exn (World F) Unit} :
    stack.embedder = s.embedder → (stack.syncFile force filePath storedPath).run s.world = r →
    Step s (.syncFile stack force filePath storedPath) r.reply { s with world := r.state }
  | syncProject {stack : IndexStack F} {paths : List String} {force indexAll : Bool}
    {maxConcurrency : Nat} {r : Reply} {w' : World F} :
    stack.embedder = s.embedder →
    stack.SyncProject paths force indexAll maxConcurrency s.world r w' →
    Step s (.syncProject stack paths force indexAll maxConcurrency) r { s with world := w' }
  | runSync {stack : IndexStack F} {project : Project} {options : SyncOptions}
    {r : Except Exn SyncResult} {w' : World F} :
    stack.embedder = s.embedder → stack.RunSync project options s.world r w' →
    Step s (.runSync stack project options) (r.map (·.errors)) { s with world := w' }
  | search {closer : List F → VecRow F → VecRow F → Bool} {query : String} {limit : Nat}
    {r : EStateM.Result Exn (World F) (List KnowledgeUnit)} :
    searchUnits s.embedder closer query limit s.world = r →
    Step s (.search closer query limit) r.reply { s with world := r.state }

-- The sessions that requests with property `P` lead to, from an empty index on.
inductive Reachable (P : Session F → Request F → Reply → Prop) : Session F → Prop
  | start {s s' : Session F} {a : Request F} {r : Reply} :
    s.world.committed = .empty → a.IsReopen → P s a r → Step s a r s' → Reachable P s'
  | step {s s' : Session F} {a : Request F} {r : Reply} :
    Reachable P s → P s a r → Step s a r s' → Reachable P s'

-- What holds of every session on an empty index and is preserved by every step that is allowed holds
-- of every reachable session.
theorem Reachable.invariant {P : Session F → Request F → Reply → Prop} {I : Session F → Prop}
    {s : Session F} (h : Reachable P s)
    (start : ∀ s s' a r, s.world.committed = .empty → a.IsReopen → P s a r → Step s a r s' → I s')
    (step : ∀ s s' a r, I s → P s a r → Step s a r s' → I s') : I s := by
  induction h
  case start hdb ha hp hs => exact start _ _ _ _ hdb ha hp hs
  case step hp hs ih      => exact step _ _ _ _ ih hp hs

end Session
