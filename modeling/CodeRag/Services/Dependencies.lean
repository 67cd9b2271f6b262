import CodeRag.Core.Paths
import CodeRag.Storage.DuckDB

-- The libraries of a project, whose jars are cached under their names. `digit` is `str.isdigit` of a
-- single character.

namespace Dependencies

-- `Path(jar_path).stem`
def jarName (jarPath : String) : List Char :=
  (FilePath.stem (.ofList (Path.name jarPath))).toList

variable (digit : Char → Bool)

def libName (jarPath : String) : Except Exn String :=
  let parts := (jarName jarPath).splitOn '-'
  if 1 < parts.length then
    match parts.getLast?.getD [] with
    | []     => .error (.other "string index out of range")
    | c :: _ =>
      if digit c then
        .ok (.ofList (['-'].intercalate parts.dropLast))
      else
        .ok (.ofList (jarName jarPath))
  else
    .ok (.ofList (jarName jarPath))

variable {F : Floats}

def cacheJarPath (jarPath : String) : Conn F Unit := do
  match libName digit jarPath with
  | .error e => throw e
  | .ok name => Conn.setDependencyPath name jarPath

-- Errors are logged.
def cacheJars (jars : List String) : Conn F Unit :=
  tryCatch (jars.forM (cacheJarPath digit)) fun _ => pure ()

-- `os.pathsep`
def PATH_SEPARATOR : Char := ':'

def entriesOf (classpath : String) : List String :=
  (classpath.toList.splitOn PATH_SEPARATOR).map .ofList

def mavenJars (classpath : String) : List String :=
  (entriesOf classpath.strip).filter (· ≠ "")

-- The classpath that Maven writes, if it succeeds.
def syncMaven (classpath : Option String) : Conn F Unit :=
  match classpath with
  | none      => pure ()
  | some text => cacheJars digit (mavenJars text)

def GRADLE_MARK : String := "CODERAG_CP:"

def gradleJars (output : String) : List String :=
  (output.splitLines.filter (·.hasPrefix GRADLE_MARK)).flatMap fun line =>
    (entriesOf (line.substringFrom (GRADLE_MARK.length + 1)).strip).filter fun jar =>
      jar ≠ "" ∧ jar.hasSuffix ".jar"

-- The output of Gradle, if it succeeds.
def syncGradle (output : Option String) : Conn F Unit :=
  match output with
  | none      => pure ()
  | some text => cacheJars digit (gradleJars text)

end Dependencies
