import CodeRag.Core.Utils
import CodeRag.Discovery.Providers
import CodeRag.Discovery.Report

-- API discovery for C#.

-- The surroundings of the working directory `cwd`. `entries` lists the names in a directory,
-- `isFile` is `Path.is_file`, and `csFiles` is `rglob("*.cs")`.
structure Workspace where
  sources : Sources
  cwd     : FilePath
  entries : FilePath → List String
  isFile  : FilePath → Bool
  csFiles : FilePath → List FilePath

namespace Workspace

def present (ws : Workspace) (path : FilePath) : Bool :=
  path.getLast?.any (· ∈ ws.entries path.parent)

end Workspace

namespace CSharp

variable (ws : Workspace)

-- The directory of the project that is analysed.
def projectRoot : Option FilePath :=
  ((findDirectoryUpwards ws.present "*.sln" MAX_LEVELS ws.cwd).or
    (findDirectoryUpwards ws.present "*.csproj" MAX_LEVELS ws.cwd)).map FilePath.parent

def MAX_FILES : Nat := 10

def MAX_UNITS : Nat := 10

def isPublic (unit : KnowledgeUnit) : Bool :=
  (unit.signature.getD "").hasInfix "public"

-- Files that cannot be parsed are logged.
def fileReport (file : FilePath) : List String :=
  match ws.sources.distillFile file with
  | .error _  => []
  | .ok units =>
    let publicUnits := units.filter isPublic
    if publicUnits.isEmpty then
      []
    else
      heading (file.getLast?.getD "") :: (publicUnits.take MAX_UNITS).flatMap KnowledgeUnit.display

def filesReport (visited : List FilePath) : List FilePath → List String
  | []            => []
  | file :: files =>
    if file ∈ visited ∨ file.str.hasInfix "obj/" ∨ file.str.hasInfix "bin/" then
      filesReport visited files
    else
      fileReport ws file ++ filesReport (visited ++ [file]) files

def analyse (libraryName : String) (root : FilePath) : String :=
  joinReport <| s!"# Public API for CSharp Project '{libraryName}':" ::
    filesReport ws [] ((ws.csFiles root).take MAX_FILES)

def notFound (libraryName : String) : String :=
  s!"Error: Could not find Solution (*.sln) or Project (*.csproj) for '{libraryName}'."

def extractApi (libraryName : String) : String :=
  match projectRoot ws with
  | none      => notFound libraryName
  | some root => analyse ws libraryName root

end CSharp
