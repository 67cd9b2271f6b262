import CodeRag.Services.Indexing
import CodeRag.Services.PathMigration

-- Syncs a single path, a directory tree, or the whole project into the index.

-- `path` is a file or a directory to sync instead of the whole project.
structure SyncOptions where
  root           : String
  path           : Option String
  indexAll       : Bool
  force          : Bool
  maxConcurrency : Nat

-- What a sync takes from its surroundings: the paths that the ignore patterns match, the paths that
-- are files, the check of a requested path, and the libraries that dependency discovery reports.
structure Project where
  ignored      : String → Bool
  isFile       : String → Bool
  validatePath : String → Except Exn String
  libraries    : List (String × String)

inductive SyncStatus
  | success
  | error
  deriving DecidableEq, Repr

structure SyncResult where
  status       : SyncStatus
  indexedFiles : Nat
  errors       : List (String × String)
  deriving DecidableEq, Repr

namespace IndexStack

open Conn

variable {F : Floats} (stack : IndexStack F) (project : Project) (options : SyncOptions)

def shouldIndex (path : String) : Bool :=
  match stack.parser.files.projectRelativePosix path options.root with
  | .error _ => false
  | .ok rel  =>
    ¬project.ignored rel ∧
      (EXTENSION_TO_LANGUAGE.lookup (stack.parser.runtime.lower (Path.suffix path))).isSome

def indexableUnder (walkRoot : String) : List String :=
  (stack.parser.files.files walkRoot).filter (stack.shouldIndex project options)

def resultFromFailures (indexedFiles : Nat) (failures : List (String × String)) : SyncResult where
  status       := if failures.isEmpty then .success else .error
  indexedFiles := indexedFiles
  errors       := failures

-- Failures of dependency discovery are logged.
def syncDependencies : Conn F Unit :=
  tryCatch (project.libraries.forM fun l => setDependencyPath l.1 l.2) fun _ => pure ()

def migrateIfNeeded : Conn F Unit := do
  if ¬(← pathsMigrationDone) then
    tryCatch
      (discard <| PathMigration.migrateAbsolutePaths stack.parser options.root
        (stack.indexableUnder project options options.root))
      fun _ => pure ()

-- The paths that a sync visits, or none when it has nothing to do.
def selectPaths (validated : Option String) : Option (List String) :=
  match validated with
  | none        => some (stack.indexableUnder project options options.root)
  | some target =>
    if project.isFile target then
      if stack.shouldIndex project options target then some [target] else none
    else
      let paths := stack.indexableUnder project options target
      if paths.isEmpty ∧ ¬options.indexAll then none else some paths

def prelude : Conn F (Option (List String)) := do
  let validated ←
    match options.path with
    | none | some "" => pure none
    | some p         =>
      match project.validatePath p with
      | .ok v    => pure (some v)
      | .error e => throw e
  syncDependencies project
  stack.migrateIfNeeded project options
  return stack.selectPaths project options validated

-- What a call of `run_sync` may return, with the state it leaves.
inductive RunSync (w : World F) : Except Exn SyncResult → World F → Prop
  | nothing :
    options.path = none → options.indexAll = false →
    RunSync w (.ok (resultFromFailures 0 [])) w
  | raised {e : Exn} {w' : World F} :
    options.path.isSome ∨ options.indexAll → stack.prelude project options w = .error e w' →
    RunSync w (.error e) w'
  | skipped {w' : World F} :
    options.path.isSome ∨ options.indexAll → stack.prelude project options w = .ok none w' →
    RunSync w (.ok (resultFromFailures 0 [])) w'
  | failed {w₁ w' : World F} {paths : List String} {e : Exn} :
    options.path.isSome ∨ options.indexAll → stack.prelude project options w = .ok (some paths) w₁ →
    SyncProject { stack with root := some options.root } paths options.force options.indexAll
      options.maxConcurrency w₁ (.error e) w' →
    RunSync w (.error e) w'
  | synced {w₁ w' : World F} {paths : List String} {failures : List (String × String)} :
    options.path.isSome ∨ options.indexAll → stack.prelude project options w = .ok (some paths) w₁ →
    SyncProject { stack with root := some options.root } paths options.force options.indexAll
      options.maxConcurrency w₁ (.ok failures) w' →
    RunSync w (.ok (resultFromFailures paths.length failures)) w'

end IndexStack
