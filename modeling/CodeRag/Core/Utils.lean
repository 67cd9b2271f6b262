import CodeRag.Core.Disk

-- Searches for a directory or a file upwards from a resolved path. `present` is `Path.exists`.
def findDirectoryUpwards (present : FilePath → Bool) (targetName : String) :
    Nat → FilePath → Option FilePath
  | 0, _             => none
  | levels + 1, curr =>
    if present (curr ++ [targetName]) then
      some (curr ++ [targetName])
    else if curr.parent = curr then
      none
    else
      findDirectoryUpwards present targetName levels curr.parent

-- The default of `max_levels`.
def MAX_LEVELS : Nat := 5

namespace FilePath

-- A directory and the directories above it.
def upwards : Nat → FilePath → List FilePath
  | 0, _          => []
  | n + 1, path => path :: if path.parent = path then [] else upwards n path.parent

end FilePath

theorem findDirectoryUpwards_eq {present : FilePath → Bool} {name : String} {n : Nat}
    {path : FilePath} : findDirectoryUpwards present name n path =
      ((path.upwards n).find? fun dir => present (dir ++ [name])).map (· ++ [name]) := by
  induction n generalizing path
  case zero => rfl
  case succ n ih =>
    unfold findDirectoryUpwards FilePath.upwards
    rw [List.find?_cons]
    cases present (path ++ [name])
    case true => rfl
    case false =>
      simp only [Bool.false_eq_true, if_false]
      split
      case isTrue  => rfl
      case isFalse => exact ih

-- What `validate_path` takes from the machine: the directories of the system for temporary files, of
-- the global data and of the user.
structure Machine where
  disk      : Disk
  tempDir   : String
  globalDir : String
  home      : String

namespace Machine

variable (m : Machine)

-- `Path.resolve`
def resolve (path : String) : Except Exn Location :=
  match m.disk.realpath path with
  | some ℓ => .ok ℓ
  | none   => .error (.other s!"Symlink loop from '{path}'")

def devCaches : List String :=
  [".m2", ".gradle", ".nuget", ".cargo"]

-- A location is in one of the caches. The first one that cannot be resolved ends the search.
def inDevCaches (check : Location) : List String → Location → Bool
  | [], _              => false
  | cache :: caches, home =>
    match m.resolve (home.path ++ "/" ++ cache) with
    | .error _ => false
    | .ok dir  => dir.isPrefixOf check || inDevCaches check caches home

-- A location is in the repository of the current directory.
def inGitRepo (check : Location) : Except Exn Bool :=
  let start := m.disk.cwd.map Subtype.val
  match findDirectoryUpwards (m.disk.present ·.str) ".git" MAX_LEVELS start with
  | none   => .ok false
  | some d => do return (← m.resolve d.parent.str).isPrefixOf check

-- The exceptions for paths outside of the root.
def permitted (check : Location) : Except Exn Bool := do
  if (← m.resolve m.tempDir).isPrefixOf check then
    return true
  if (← m.resolve m.globalDir).isPrefixOf check then
    return true
  let inCaches :=
    match m.resolve m.home with
    | .error _ => false
    | .ok home => m.inDevCaches check devCaches home
  if inCaches then return true else m.inGitRepo check

def validatePath (path root : String) : Except Exn String := do
  let rootPath     ← m.resolve root
  let resolvedPath ← m.resolve path
  let checkPath := if (m.disk.entry resolvedPath).isSome then resolvedPath else resolvedPath.dropLast
  if rootPath.isPrefixOf checkPath then
    return resolvedPath.path
  if ← m.permitted checkPath then
    return resolvedPath.path
  throw (.value
    s!"Security Risk: Path '{path}' is outside permitted directory '{rootPath.path}'")

variable {m} {path root v : String}

-- What is accepted is the place that the path leads to.
theorem validatePath_resolved (h : m.validatePath path root = .ok v) :
    ∃ ℓ, m.disk.realpath path = some ℓ ∧ v = ℓ.path := by
  unfold validatePath at h
  cases hr : m.resolve root
  case error e => rw [hr] at h; cases h
  case ok rootPath =>
    cases hp : m.disk.realpath path
    case none =>
      have he : ∃ e, m.resolve path = .error e := ⟨_, by rw [resolve, hp]⟩
      obtain ⟨e, he⟩ := he
      rw [hr, he] at h
      cases h
    case some ℓ =>
      have ho : m.resolve path = .ok ℓ := by rw [resolve, hp]
      refine ⟨ℓ, rfl, ?_⟩
      rw [hr, ho] at h
      simp only [bind, Except.bind] at h
      generalize (if (m.disk.entry ℓ).isSome then ℓ else ℓ.dropLast) = check at h
      split at h
      case isTrue  => exact (Except.ok.inj h).symm
      case isFalse =>
        split at h
        case h_1 => cases h
        case h_2 =>
          split at h
          case isTrue  => exact (Except.ok.inj h).symm
          case isFalse => cases h

end Machine
