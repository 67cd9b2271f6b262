import CodeRag.Storage.DuckDB
import CodeRag.Parsers.TreeSitter

-- One-time rewrite of absolute index paths onto project-relative posix paths.

namespace PathMigration

open Conn

variable {F : Floats}

-- The stored paths with the hashes of their units.
abbrev Groups := List (String × Multiset String)

-- groups.setdefault(path, Counter())[hash] += 1
def addHash : Groups → String → String → Groups
  | [], path, hash           => [(path, {hash})]
  | (p, hs) :: gs, path, hash =>
    if p = path then (p, hash ::ₘ hs) :: gs else (p, hs) :: addHash gs path hash

def groupsOf (units : List KnowledgeUnit) : Groups :=
  units.foldl
    (fun gs u => if Path.isAbsolute u.path then addHash gs u.path u.codeHash else gs) []

-- What `claim_relative_paths` has found so far. `mapping` maps old paths to new ones, and `pending`
-- are the groups that lie outside of the root.
structure Claims where
  mapping : List (String × String)
  taken   : List String
  pending : Groups

def Claims.addGroup (fs : FileSystem) (root : String) (c : Claims)
    (group : String × Multiset String) : Claims :=
  if Path.isAbsolute group.1 then
    match fs.projectRelativePosix group.1 root with
    | .error _ => { c with pending := c.pending ++ [group] }
    | .ok rel  =>
      if rel ∈ c.taken then c
      else { c with mapping := c.mapping ++ [(group.1, rel)], taken := rel :: c.taken }
  else
    { c with pending := c.pending ++ [group] }

-- The first pending group that is not claimed yet and has the hashes of the file.
def Claims.claimant (c : Claims) (hashes : Multiset String) : Option (String × Multiset String) :=
  c.pending.find? fun group => group.1 ∉ c.mapping.map Prod.fst ∧ group.2 = hashes

def Claims.addFile (fs : FileSystem) (root : String) (c : Claims)
    (file : String × Multiset String) : Claims :=
  match fs.projectRelativePosix file.1 root with
  | .error _ => c
  | .ok rel  =>
    if rel ∈ c.taken then c
    else
      match c.claimant file.2 with
      | none       => c
      | some group => { c with
        mapping := c.mapping ++ [(group.1, rel)], taken := rel :: c.taken }

def claimRelativePaths (fs : FileSystem) (groups : Groups) (root : String)
    (files : List (String × Multiset String)) : List (String × String) :=
  let claims := groups.foldl (Claims.addGroup fs root) { mapping := [], taken := [], pending := [] }
  (files.foldl (Claims.addFile fs root) claims).mapping

-- The hashes of the units of a file, or none when it cannot be parsed.
def parse (parser : MultiParser) (path : String) : Option (Multiset String) :=
  match parser.distillFile path none true with
  | .ok units => some (units.map (·.codeHash) : List String)
  | .error _  => none

def parsedFiles (parser : MultiParser) (files : List String) : List (String × Multiset String) :=
  files.filterMap fun path => (parse parser path).map (path, ·)

def suffixOf (parser : MultiParser) (path : String) : String :=
  parser.runtime.lower (Path.suffix path)

def skippedSuffixes (parser : MultiParser) (files : List String) : List String :=
  (files.filter (parse parser · |>.isNone)).map (suffixOf parser)

-- Commits every path on its own and returns the old paths whose commit raised.
def commitAll : List (String × String) → Conn F (List String)
  | []                => pure []
  | (old, new) :: ms => do
    let failed ← tryCatch (do commitRewrittenPath old new; pure []) fun _ => pure [old]
    let rest   ← commitAll ms
    pure (failed ++ rest)

def orphansOf (parser : MultiParser) (groups : Groups) (mapping : List (String × String))
    (failedCommits skipped : List String) : List String :=
  (groups.map Prod.fst).filter fun old =>
    old ∉ mapping.map Prod.fst ∧ old ∉ failedCommits ∧ suffixOf parser old ∉ skipped

def migrateAbsolutePaths (parser : MultiParser) (root : String) (files : List String) :
    Conn F Bool := do
  if ← pathsMigrationDone then
    return false
  let groups := groupsOf (← listUnits)
  if groups.isEmpty then
    commitPathMigration []
    return false
  let skipped := skippedSuffixes parser files
  let mapping := claimRelativePaths parser.files groups root (parsedFiles parser files)
  let failedCommits ← commitAll mapping
  let orphans := orphansOf parser groups mapping failedCommits skipped
  if ¬orphans.isEmpty then
    deleteAbsolutePaths orphans
  if skipped.isEmpty ∧ failedCommits.isEmpty then
    markPathsMigrated
  return true

end PathMigration
