import CodeRag.Discovery.CSharp
import CodeRag.Services.Theorems.Sample

-- Which project is discovered.

namespace CSharp

variable {ws : Workspace} {dir dir' : FilePath} {name ext : String}

def HasFile (ws : Workspace) (ext : String) (dir : FilePath) : Prop :=
  ∃ name ∈ ws.entries dir, name.hasSuffix ext ∧ ws.isFile (dir ++ [name])

instance {ws : Workspace} {ext : String} : DecidablePred (HasFile ws ext) := fun dir =>
  inferInstanceAs (Decidable (∃ name ∈ ws.entries dir, _))

-- The directories that the search may visit, from the nearest one on.
def searched (ws : Workspace) : List FilePath :=
  ws.cwd.upwards MAX_LEVELS

-- The nearest directory with a solution or, failing that, the nearest one with a project.
def nearestProject (ws : Workspace) : Option FilePath :=
  ((searched ws).find? (HasFile ws ".sln")).or ((searched ws).find? (HasFile ws ".csproj"))

-- The workspace with other C# files.
def withFiles (ws : Workspace) (sources : Sources) (csFiles : FilePath → List FilePath) : Workspace :=
  { ws with sources := sources, csFiles := csFiles }

-- What is reported is the analysis of this directory, whatever the C# files are.
def Analyses (ws : Workspace) (dir : FilePath) : Prop :=
  ∀ sources csFiles libraryName, extractApi (withFiles ws sources csFiles) libraryName =
    analyse (withFiles ws sources csFiles) libraryName dir

-- The directory of the nearest project is analysed, and none is reported only when there is none.
structure Discovers (ws : Workspace) : Prop where
  analyses : ∀ dir, nearestProject ws = some dir → Analyses ws dir
  notFound : ∀ libraryName, extractApi ws libraryName = notFound libraryName → nearestProject ws = none

-- The nearest directory with an entry of exactly this name.
def NearestEntry (ws : Workspace) (name : String) (dir : FilePath) : Prop :=
  ∃ nearer farther, searched ws = nearer ++ dir :: farther ∧ name ∈ ws.entries dir ∧
    ∀ d ∈ nearer, name ∉ ws.entries d

def NoEntry (ws : Workspace) (name : String) : Prop :=
  ∀ d ∈ searched ws, name ∉ ws.entries d

theorem present_append : ws.present (dir ++ [name]) = decide (name ∈ ws.entries dir) := by
  unfold Workspace.present FilePath.parent
  rw [List.getLast?_concat, List.dropLast_concat]
  rfl

section Entry

private theorem find?_eq_none_iff :
    ((searched ws).find? fun d => decide (name ∈ ws.entries d)) = none ↔ NoEntry ws name := by
  simp [NoEntry]

private theorem find?_eq_some_iff :
    ((searched ws).find? fun d => decide (name ∈ ws.entries d)) = some dir ↔
      NearestEntry ws name dir := by
  rw [List.find?_eq_some_iff_append]
  unfold NearestEntry
  constructor
  case mp =>
    rintro ⟨hd, nearer, farther, hs, hn⟩
    exact ⟨nearer, farther, hs, by simpa using hd, fun d h => by simpa using hn d h⟩
  case mpr =>
    rintro ⟨nearer, farther, hs, hd, hn⟩
    exact ⟨by simpa using hd, nearer, farther, hs, fun d h => by simpa using hn d h⟩

end Entry

-- The search looks for entries that are called like the patterns.
theorem projectRoot_eq : projectRoot ws =
    ((searched ws).find? fun d => decide ("*.sln" ∈ ws.entries d)).or
      ((searched ws).find? fun d => decide ("*.csproj" ∈ ws.entries d)) := by
  have hparent : ∀ name : String, FilePath.parent ∘ (· ++ [name]) = id :=
    fun name => funext fun dir => List.dropLast_concat
  unfold projectRoot searched
  simp only [findDirectoryUpwards_eq, present_append, Option.map_or, Option.map_map, hparent,
    Option.map_id, id_eq]

theorem projectRoot_eq_none_iff :
    projectRoot ws = none ↔ NoEntry ws "*.sln" ∧ NoEntry ws "*.csproj" := by
  rw [projectRoot_eq, Option.or_eq_none_iff, find?_eq_none_iff, find?_eq_none_iff]

theorem projectRoot_eq_some_iff : projectRoot ws = some dir ↔
    NearestEntry ws "*.sln" dir ∨ NoEntry ws "*.sln" ∧ NearestEntry ws "*.csproj" dir := by
  rw [projectRoot_eq, Option.or_eq_some_iff, find?_eq_some_iff, find?_eq_none_iff, find?_eq_some_iff]

section Analysis

variable {libraryName : String}

-- A report starts with its title.
theorem joinReport_cons (title : String) (lines : List String) :
    ∃ body, joinReport (title :: lines) = title ++ body ∧ (body = "" ↔ lines = []) := by
  unfold joinReport
  rw [List.take_cons (by decide)]
  cases lines
  case nil             => exact ⟨"", by simp [String.joinWith], by simp⟩
  case cons line lines =>
    rw [List.take_cons (by decide), String.joinWith_cons_cons]
    exact ⟨_, String.append_assoc, by simp⟩

theorem analyse_ne_notFound : analyse ws libraryName dir ≠ notFound libraryName := by
  unfold analyse CSharp.notFound
  intro h
  obtain ⟨body, hb, _⟩ := joinReport_cons s!"# Public API for CSharp Project '{libraryName}':"
    (filesReport ws [] ((ws.csFiles dir).take MAX_FILES))
  rw [hb] at h
  have hl := congrArg (fun s => s.toList.take 1) h
  simp [toString] at hl

theorem extractApi_of_root (h : projectRoot ws = some dir) :
    extractApi ws libraryName = analyse ws libraryName dir := by
  rw [extractApi, h]

theorem extractApi_of_no_root (h : projectRoot ws = none) :
    extractApi ws libraryName = notFound libraryName := by
  rw [extractApi, h]

-- Nothing is reported only when no entry is called like a pattern.
theorem extractApi_eq_notFound_iff : extractApi ws libraryName = notFound libraryName ↔
    NoEntry ws "*.sln" ∧ NoEntry ws "*.csproj" := by
  rw [←projectRoot_eq_none_iff]
  constructor
  case mp =>
    intro he
    by_contra hne
    obtain ⟨dir, hr⟩ := Option.ne_none_iff_exists'.mp hne
    exact analyse_ne_notFound ((extractApi_of_root hr).symm.trans he)
  case mpr => exact extractApi_of_no_root

-- The only C# file is one in the directory, with a public class.
private def publicFiles (dir : FilePath) : Workspace where
  sources := {
    runtime := { Sample.runtime with
      loadGrammar := fun _ => .ok fun _ =>
        .ok (Sample.leaf "class_declaration" (Sample.encode "public class A")) }
    files   := { Sample.fileSystem [] with read := fun _ => .ok [] }
    present := fun _ => true }
  cwd     := dir
  entries := fun _ => []
  isFile  := fun _ => true
  csFiles := fun d => if d = dir then [["A.cs"]] else []

private theorem filesReport_public {csFiles : FilePath → List FilePath} :
    filesReport (withFiles ws (publicFiles dir).sources csFiles) [] [["A.cs"]] ≠ [] := by
  have hreport : fileReport (withFiles ws (publicFiles dir).sources csFiles) ["A.cs"] =
      ["\n## From A.cs:", "- **Class: anonymous**", "  `public class A`"] := by
    show fileReport (publicFiles []) ["A.cs"] = _
    decide +kernel
  have hfiles : filesReport (withFiles ws (publicFiles dir).sources csFiles) [] [["A.cs"]] =
      fileReport (withFiles ws (publicFiles dir).sources csFiles) ["A.cs"] ++ [] :=
    if_neg (by decide)
  rw [hfiles, hreport]
  simp

-- What is reported depends on the directory that is analysed.
theorem analyse_ne (ws : Workspace) (libraryName : String) (hd : dir ≠ dir') :
    ∃ sources csFiles, analyse (withFiles ws sources csFiles) libraryName dir ≠
      analyse (withFiles ws sources csFiles) libraryName dir' := by
  let ws' := withFiles ws (publicFiles dir).sources (publicFiles dir).csFiles
  refine ⟨(publicFiles dir).sources, (publicFiles dir).csFiles, fun h => ?_⟩
  have hhere : ws'.csFiles dir = [["A.cs"]] := if_pos rfl
  have hthere : ws'.csFiles dir' = [] := if_neg (Ne.symm hd)
  change analyse ws' libraryName dir = analyse ws' libraryName dir' at h
  rw [analyse, analyse, hhere, hthere] at h
  obtain ⟨body, hb, he⟩ := joinReport_cons s!"# Public API for CSharp Project '{libraryName}':"
    (filesReport ws' [] ([["A.cs"]].take MAX_FILES))
  obtain ⟨body', hb', he'⟩ := joinReport_cons s!"# Public API for CSharp Project '{libraryName}':"
    (filesReport ws' [] ([].take MAX_FILES))
  rw [hb, hb', he'.mpr rfl] at h
  exact filesReport_public (he.mp (by simpa using h))

-- The directory that is found is the only one that is analysed.
theorem analyses_iff : Analyses ws dir ↔ projectRoot ws = some dir := by
  constructor
  case mp =>
    intro h
    cases hr : projectRoot ws
    case none =>
      have he := h ws.sources ws.csFiles ""
      rw [extractApi_of_no_root (show projectRoot (withFiles ws ws.sources ws.csFiles) = none from hr)] at he
      exact (analyse_ne_notFound he.symm).elim
    case some dir' =>
      by_contra hne
      obtain ⟨sources, csFiles, hn⟩ := analyse_ne ws ""
        (show dir' ≠ dir from fun he => hne (congrArg some he))
      refine hn ((extractApi_of_root ?_).symm.trans (h sources csFiles ""))
      exact hr
  case mpr =>
    intro hr sources csFiles libraryName
    refine extractApi_of_root ?_
    exact hr

end Analysis

-- The project is discovered iff there is none or the first entry that is called like a pattern is in
-- its directory.
theorem discovers_iff : Discovers ws ↔ ∀ dir, nearestProject ws = some dir →
    NearestEntry ws "*.sln" dir ∨ NoEntry ws "*.sln" ∧ NearestEntry ws "*.csproj" dir := by
  have hall : Discovers ws ↔ ∀ dir, nearestProject ws = some dir → projectRoot ws = some dir := by
    constructor
    case mp  => exact fun h dir hn => analyses_iff.mp (h.analyses dir hn)
    case mpr =>
      refine fun h => ⟨fun dir hn => analyses_iff.mpr (h dir hn), fun libraryName he => ?_⟩
      have hr : projectRoot ws = none := projectRoot_eq_none_iff.mpr (extractApi_eq_notFound_iff.mp he)
      by_contra hne
      obtain ⟨dir, hn⟩ := Option.ne_none_iff_exists'.mp hne
      cases hr.symm.trans (h dir hn)
  simp only [hall, projectRoot_eq_some_iff]

-- A working directory with a solution and its project.
def shop : Workspace where
  sources := {
    runtime := Sample.runtime
    files   := Sample.fileSystem []
    present := fun path => path = ["home", "shop", "Shop.cs"] }
  cwd     := ["home", "shop"]
  entries := fun dir => if dir = ["home", "shop"] then ["Shop.sln", "Shop.csproj", "Shop.cs"] else []
  isFile  := fun path => path.parent = ["home", "shop"]
  csFiles := fun dir => [dir ++ ["Shop.cs"]]

theorem shop_not_found : HasFile shop ".sln" shop.cwd ∧ nearestProject shop = some shop.cwd ∧
    extractApi shop "Shop" = notFound "Shop" ∧ ¬Discovers shop := by
  have hnear : nearestProject shop = some shop.cwd := by decide
  have hapi : extractApi shop "Shop" = notFound "Shop" := extractApi_of_no_root (by decide)
  refine ⟨by decide, hnear, hapi, fun h => ?_⟩
  cases hnear.symm.trans (h.notFound "Shop" hapi)

end CSharp
