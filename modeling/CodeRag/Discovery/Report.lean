import CodeRag.Discovery.Providers

-- The text that a provider reports.

abbrev Groups := List (String × List KnowledgeUnit)

namespace KnowledgeUnit

-- `str.splitlines()[0]` of a text that is not empty.
def firstLine (s : String) : String :=
  .ofList (s.toList.takeWhile (¬String.isLineBreak ·))

-- An optional string within a formatted text.
def format (s : Option String) : String :=
  s.getD "None"

-- The lines of a report that show a unit.
def display (unit : KnowledgeUnit) : List String :=
  s!"- **{unit.kind.value.capitalize}: {unit.name}**" ::
    (if truthy unit.docstring then
      ["  *(" ++ firstLine (unit.docstring.getD "") ++ ")*"] else []) ++
    [s!"  `{format unit.signature}`"]

end KnowledgeUnit

def heading (name : String) : String :=
  s!"\n## From {name}:"

def REPORT_LINES : Nat := 150

def joinReport (output : List String) : String :=
  .joinWith "\n" (output.take REPORT_LINES)

namespace Report

def UNITS_PER_FILE : Nat := 20

-- `Path(unit.path).name`
def fileName (unit : KnowledgeUnit) : String :=
  .ofList (Path.name unit.path)

def addUnit (groups : Groups) (unit : KnowledgeUnit) : Groups :=
  if fileName unit ∈ groups.map Prod.fst then
    groups.map fun g => if g.1 = fileName unit then (g.1, g.2 ++ [unit]) else g
  else
    groups ++ [(fileName unit, [unit])]

-- The dictionary `units_by_file`.
def unitsByFile (units : List KnowledgeUnit) : Groups :=
  units.foldl addUnit []

-- The names of the headings with the units below them.
def sections (units : List KnowledgeUnit) : Groups :=
  (unitsByFile units).map fun g => (g.1, (g.2.take UNITS_PER_FILE).filter (·.kind ≠ .module))

-- The lines of a report, before the limit is applied.
def output (title : String) (units : List KnowledgeUnit) : List String :=
  title :: (sections units).flatMap fun s => heading s.1 :: s.2.flatMap KnowledgeUnit.display

end Report

namespace JavaScript

variable (src : Sources) (libraryName : String) (targetFiles : List FilePath)

def MAX_ENTRIES : Nat := 3

-- The units that `extract_api` collects from the target files.
def allUnits : List KnowledgeUnit :=
  ((provider src).extract (targetFiles.take MAX_ENTRIES)).results

-- The lines that it joins, before the limit is applied.
def output : List String :=
  Report.output s!"# Public API for JavaScript/TypeScript Library '{libraryName}':"
    (allUnits src targetFiles)

-- `extract_api` from the target files on.
def extractApi : String :=
  if (allUnits src targetFiles).isEmpty then
    s!"No public entities found for '{libraryName}'."
  else
    joinReport (output src libraryName targetFiles)

end JavaScript

namespace Rust

variable (src : Sources) (libraryName : String) (targetFiles : List FilePath)

def allUnits : List KnowledgeUnit :=
  ((provider src).extract targetFiles).results

def output : List String :=
  Report.output s!"# Public API for Rust Crate '{libraryName}':" (allUnits src targetFiles)

def extractApi : String :=
  if (allUnits src targetFiles).isEmpty then
    s!"No public entities found for crate '{libraryName}'."
  else
    joinReport (output src libraryName targetFiles)

end Rust
