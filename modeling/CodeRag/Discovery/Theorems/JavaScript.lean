import CodeRag.Lib.Except
import CodeRag.Discovery.Providers
import CodeRag.Services.Theorems.Sample

-- Which file an export leads to.

namespace JavaScript

variable {src : Sources} {base dir dir' : FilePath} {target name name' : String}

def resolveParts (src : Sources) (path : FilePath) : FilePath :=
  (src.files.resolve path.str).map Subtype.val

-- The components of a relative target.
def targetParts (target : String) : List String :=
  ((target.toList.splitOn '/').filter fun c => c ≠ [] ∧ c ≠ ['.']).map .ofList

def targetName (target : String) : String :=
  (targetParts target).getLast?.getD ""

-- The directory that the last component of a target is in.
def targetDir (src : Sources) (base : FilePath) (target : String) : FilePath :=
  resolveParts src (base ++ (targetParts target).dropLast)

-- Where the links of a target lead to.
def location (src : Sources) (base : FilePath) (target : String) : FilePath :=
  resolveParts src (base ++ [target])

def besideFile (src : Sources) (dir : FilePath) (name : String) : Option FilePath :=
  ([".d.ts", ".ts", ".js"].map fun ext => dir ++ [name ++ ext]).find? src.present

def indexFile (src : Sources) (dir : FilePath) : Option FilePath :=
  (["index.d.ts", "index.ts", "index.js"].map fun name => dir ++ [name]).find? src.present

-- The file that a target names: an extension is added to its last component.
def namedFile (src : Sources) (base : FilePath) (target : String) : Option FilePath :=
  (besideFile src (targetDir src base target) (targetName target)).or
    (indexFile src (location src base target))

def Resolves (src : Sources) (base : FilePath) (target : String) : Prop :=
  resolveLocalPath src base target = .ok (namedFile src base target)

-- The last component of the target is not a link.
def NoLink (src : Sources) (base : FilePath) (target : String) : Prop :=
  location src base target = targetDir src base target ++ [targetName target]

-- What comes after the last dot is not lost, or it makes no difference: `x.d` with `.ts` is `x` with
-- `.d.ts`.
def Undotted (src : Sources) (dir : FilePath) (name : String) : Prop :=
  Path.suffix name = "" ∨
  besideFile src dir (FilePath.stem name) = none ∧ besideFile src dir name = none ∨
  Path.suffix name = ".d" ∧ src.present (dir ++ [name ++ ".d.ts"]) = false ∧
    src.present (dir ++ [name ++ ".ts"])

-- `longer` is `shorter` with `.d`, and its first file is the one with `.ts`, which is `shorter` with
-- `.d.ts`.
def Declares (src : Sources) (dir : FilePath) (shorter longer : String) : Prop :=
  longer = shorter ++ ".d" ∧ src.present (dir ++ [longer ++ ".d.ts"]) = false ∧
    src.present (dir ++ [longer ++ ".ts"])

-- The two names are the same, or the first files of the two are.
def Alike (src : Sources) (dir : FilePath) (name : String) (dir' : FilePath) (name' : String) : Prop :=
  dir = dir' ∧ (name = name' ∨ Declares src dir name name' ∨ Declares src dir name' name)

-- The target `dir/name` of a link leads to the same file as the link itself: to none, to one beside both
-- of them, or to the index file of a directory in which the link has the name `index`.
def SameFiles (src : Sources) (base : FilePath) (target : String) (dir : FilePath) (name : String) :
    Prop :=
  besideFile src dir (FilePath.stem name) = none ∧
      besideFile src (targetDir src base target) (targetName target) = none ∨
    Alike src dir (FilePath.stem name) (targetDir src base target) (targetName target) ∨
    besideFile src dir (FilePath.stem name) = none ∧
      Alike src (dir ++ [name]) "index" (targetDir src base target) (targetName target)

theorem resolveLocalPath_of_location (h : location src base target = dir ++ [name]) :
    resolveLocalPath src base target =
      .ok ((besideFile src dir (FilePath.stem name)).or (indexFile src (dir ++ [name]))) := by
  have hl : (dir ++ [name]).getLast? = some name := List.getLast?_concat
  have hd : (dir ++ [name]).dropLast = dir := List.dropLast_concat
  have hs : [".d.ts", ".ts", ".js"].mapM (FilePath.withSuffix (dir ++ [name])) =
      .ok ([".d.ts", ".ts", ".js"].map fun ext => dir ++ [FilePath.stem name ++ ext]) := by
    rw [List.mapM_ok_iff, List.map_map]
    refine List.map_congr_left fun ext _ => ?_
    simp only [FilePath.withSuffix, FilePath.parent, hl, hd, Function.comp_apply]
  unfold resolveLocalPath
  rw [show (src.files.resolve (FilePath.str (base ++ [target]))).map Subtype.val = _ from h]
  simp only [hs, besideFile, indexFile, ←List.find?_append, List.map_cons, List.map_nil]
  rfl

theorem resolveLocalPath_of_root (h : location src base target = []) :
    ∃ e, resolveLocalPath src base target = .error e := by
  unfold resolveLocalPath
  rw [show (src.files.resolve (FilePath.str (base ++ [target]))).map Subtype.val = [] from h]
  exact ⟨_, rfl⟩

theorem besideFile_shape {file : FilePath} (h : besideFile src dir name = some file) :
    ∃ ext ∈ [".d.ts", ".ts", ".js"], file = dir ++ [name ++ ext] := by
  obtain ⟨ext, hext, rfl⟩ := List.mem_map.mp (List.mem_of_find?_eq_some h)
  exact ⟨ext, hext, rfl⟩

theorem besideFile_ne_indexFile {file : FilePath} (h : besideFile src dir name = some file) :
    indexFile src (dir ++ [name']) ≠ some file := by
  intro hi
  obtain ⟨ext, _, rfl⟩ := besideFile_shape h
  obtain ⟨index, _, hf⟩ := List.mem_map.mp (List.mem_of_find?_eq_some hi)
  have hl := congrArg List.length hf
  simp at hl

-- Of the two stages, the second one only counts where the first one fails.
theorem or_indexFile_iff {found : Option FilePath} :
    (besideFile src dir name).or (indexFile src (dir ++ [name'])) =
        found.or (indexFile src (dir ++ [name'])) ↔
      besideFile src dir name = found ∨
        besideFile src dir name = none ∧ found = indexFile src (dir ++ [name']) := by
  cases hb : besideFile src dir name <;> cases found
  case none.none => simp
  case none.some => simp [eq_comm]
  case some.none => simpa using (besideFile_ne_indexFile hb).symm
  case some.some => simp

theorem besideFile_eq (dir : FilePath) (name : String) : besideFile src dir name =
    if src.present (dir ++ [name ++ ".d.ts"]) then some (dir ++ [name ++ ".d.ts"])
    else if src.present (dir ++ [name ++ ".ts"]) then some (dir ++ [name ++ ".ts"])
    else if src.present (dir ++ [name ++ ".js"]) then some (dir ++ [name ++ ".js"]) else none := by
  simp only [besideFile, List.map_cons, List.map_nil, List.find?_cons, List.find?_nil]
  cases src.present (dir ++ [name ++ ".d.ts"]) <;> cases src.present (dir ++ [name ++ ".ts"]) <;>
    cases src.present (dir ++ [name ++ ".js"]) <;> rfl

-- An index file is a file of the name `index`.
theorem indexFile_eq : indexFile src dir = besideFile src dir "index" :=
  rfl

theorem file_injective {ext ext' : String} (h : dir ++ [name ++ ext] = dir' ++ [name' ++ ext']) :
    dir = dir' ∧ name ++ ext = name' ++ ext' := by
  obtain ⟨hd, hn⟩ := List.append_inj' h rfl
  exact ⟨hd, List.singleton_inj.mp hn⟩

theorem Declares.eq (h : Declares src dir name name') : besideFile src dir name = besideFile src dir name' := by
  obtain ⟨rfl, hn, hp⟩ := h
  have hx : name ++ ".d" ++ ".ts" = name ++ ".d.ts" := String.append_assoc'
  rw [besideFile_eq dir (name ++ ".d"), hn, hp, besideFile_eq dir name, ←hx, hp]
  rfl

theorem Alike.eq (h : Alike src dir name dir' name') : besideFile src dir name = besideFile src dir' name' := by
  obtain ⟨rfl, rfl | h | h⟩ := h
  · rfl
  · exact h.eq
  · exact h.eq.symm

-- A file that comes second of those of its name.
private theorem present_of_ts (h : besideFile src dir name = some (dir ++ [name ++ ".ts"])) :
    src.present (dir ++ [name ++ ".d.ts"]) = false ∧ src.present (dir ++ [name ++ ".ts"]) := by
  have hne : ∀ {ext : String}, ext ≠ ".ts" → some (dir ++ [name ++ ext]) ≠ some (dir ++ [name ++ ".ts"]) :=
    fun he h => he (String.append_left_cancel (file_injective (Option.some.inj h)).right)
  rw [besideFile_eq] at h
  split at h
  case isTrue => exact (hne (by decide) h).elim
  case isFalse hd =>
    split at h
    case isTrue ht => exact ⟨by simpa using hd, ht⟩
    case isFalse   => split at h <;> first | exact (hne (by decide) h).elim | cases h

private theorem declares_of_eq (h : besideFile src dir name' = some (dir ++ [name' ++ ".ts"]))
    (he : name ++ ".d.ts" = name' ++ ".ts") : Declares src dir name name' := by
  have hn : name ++ ".d" ++ ".ts" = name' ++ ".ts" := String.append_assoc'.trans he
  exact ⟨(String.append_left_inj _).mp hn.symm, present_of_ts h⟩

-- Files with the extensions of the two languages have different names.
private theorem ts_ne_js {s t : String} : s ++ ".ts" ≠ t ++ ".js" := by
  intro h
  have hs : (s ++ ".ts").toList.reverse = (t ++ ".js").toList.reverse := by rw [h]
  have ht : ".ts".toList = ['.', 't', 's'] := rfl
  have hj : ".js".toList = ['.', 'j', 's'] := rfl
  simp [String.toList_append, ht, hj] at hs

-- When the first files of two names are the same.
theorem besideFile_eq_iff : besideFile src dir name = besideFile src dir' name' ↔
    besideFile src dir name = none ∧ besideFile src dir' name' = none ∨ Alike src dir name dir' name' := by
  constructor
  case mpr => exact fun h => h.elim (fun h => h.left.trans h.right.symm) Alike.eq
  case mp =>
    intro h
    cases hb : besideFile src dir name
    case none => exact .inl ⟨rfl, h.symm.trans hb⟩
    case some file =>
      have hb' := h.symm.trans hb
      obtain ⟨ext, hext, rfl⟩ := besideFile_shape hb
      obtain ⟨ext', hext', hf⟩ := besideFile_shape hb'
      obtain ⟨rfl, hn⟩ := file_injective hf
      rw [hf] at hb'
      have hd : ∀ {s : String}, s ++ ".d" ++ ".ts" = s ++ ".d.ts" := String.append_assoc'
      refine .inr ⟨rfl, ?_⟩
      simp only [List.mem_cons, List.not_mem_nil, or_false] at hext hext'
      rcases hext with rfl | rfl | rfl <;> rcases hext' with rfl | rfl | rfl
      · exact .inl ((String.append_left_inj _).mp hn)
      · exact .inr (.inl (declares_of_eq hb' hn))
      · exact (ts_ne_js (hd.trans hn)).elim
      · exact .inr (.inr (declares_of_eq hb hn.symm))
      · exact .inl ((String.append_left_inj _).mp hn)
      · exact (ts_ne_js hn).elim
      · exact (ts_ne_js (hd.trans hn.symm)).elim
      · exact (ts_ne_js hn.symm).elim
      · exact .inl ((String.append_left_inj _).mp hn)

theorem resolves_iff_of_location (h : location src base target = dir ++ [name]) :
    Resolves src base target ↔ SameFiles src base target dir name := by
  unfold Resolves namedFile SameFiles
  rw [resolveLocalPath_of_location h, h, Except.ok.injEq, or_indexFile_iff, besideFile_eq_iff, indexFile_eq,
    eq_comm (b := besideFile src (dir ++ [name]) "index"), besideFile_eq_iff]
  tauto

-- A name and what is left of it without its suffix.
private theorem alike_iff {stem suffix : String} (h : stem ++ suffix = name) :
    Alike src dir stem dir name ↔ suffix = "" ∨ suffix = ".d" ∧
      src.present (dir ++ [name ++ ".d.ts"]) = false ∧ src.present (dir ++ [name ++ ".ts"]) := by
  subst h
  have hplain : stem = stem ++ suffix ↔ suffix = "" := by
    refine ⟨fun hs => ?_, fun hs => ?_⟩
    · exact String.append_left_cancel (hs.symm.trans String.append_empty.symm)
    · rw [hs, String.append_empty]
  have hlonger : stem ≠ stem ++ suffix ++ ".d" := by
    intro hl
    have hlen := congrArg String.length hl
    have hpos : 0 < ".d".length := by decide
    simp only [String.length_append] at hlen
    omega
  simp only [Alike, Declares, hplain, String.append_right_inj, hlonger, true_and, false_and, or_false]

theorem sameFiles_iff_undotted (hl : NoLink src base target) :
    SameFiles src base target (targetDir src base target) (targetName target) ↔
      Undotted src (targetDir src base target) (targetName target) := by
  have hmem : targetName target ∈ location src base target := by
    rw [hl]
    exact List.mem_append_right _ (.head _)
  obtain ⟨c, _, hc⟩ := List.mem_map.mp hmem
  have hname : Path.name (targetName target) = (targetName target).toList := by
    rw [←hc]
    exact Path.name_of_component c.property.left c.property.right.left c.property.right.right
  have hdir : targetDir src base target ++ [targetName target] ≠ targetDir src base target := by simp
  have hindex : ¬Alike src (targetDir src base target ++ [targetName target]) "index"
    (targetDir src base target) (targetName target) := fun h => hdir h.left
  unfold SameFiles Undotted
  rw [alike_iff (FilePath.stem_append_suffix hname)]
  simp only [hindex, and_false, or_false]
  exact or_left_comm

-- The file that the target names is found iff the last component of the target is no link and has no
-- suffix, or what is lost makes no difference.
theorem resolves_iff : Resolves src base target ↔
    (NoLink src base target ∧ Undotted src (targetDir src base target) (targetName target)) ∨
    (¬NoLink src base target ∧ ∃ dir name, location src base target = dir ++ [name] ∧
      SameFiles src base target dir name) := by
  by_cases hl : NoLink src base target
  case pos => simp only [hl, true_and, not_true, false_and, or_false,
    resolves_iff_of_location hl, sameFiles_iff_undotted hl]
  case neg =>
    simp only [hl, false_and, not_false_eq_true, true_and, false_or]
    obtain hloc | ⟨dir, name, hloc⟩ := (location src base target).eq_nil_or_concat'
    case inl =>
      obtain ⟨e, he⟩ := resolveLocalPath_of_root hloc
      refine ⟨fun h => ?_, fun ⟨dir, name, h, _⟩ => ?_⟩
      · cases he.symm.trans h
      · rw [hloc] at h
        exact (List.append_ne_nil_of_right_ne_nil _ (List.cons_ne_nil _ _) h.symm).elim
    case inr =>
      rw [resolves_iff_of_location hloc]
      refine ⟨fun h => ⟨dir, name, hloc, h⟩, fun ⟨dir', name', h, hs⟩ => ?_⟩
      obtain ⟨rfl, hn⟩ := List.append_inj' (hloc.symm.trans h) rfl
      cases hn
      exact hs

-- A directory with the files `button.component.ts` and `button.ts`.
def buttons : Sources where
  runtime := Sample.runtime
  files   := { Sample.fileSystem [] with resolve := fun path =>
    ((path.toList.splitOn '/').filter (· ≠ ['.'])).filterMap Sample.component }
  present := [["lib", "button.component.ts"], ["lib", "button.ts"]].contains

theorem buttons_not_resolved :
    resolveLocalPath buttons ["lib"] "./button.component" = .ok (some ["lib", "button.ts"]) ∧
    namedFile buttons ["lib"] "./button.component" = some ["lib", "button.component.ts"] ∧
    ¬Resolves buttons ["lib"] "./button.component" := by
  have hcode : resolveLocalPath buttons ["lib"] "./button.component" = .ok (some ["lib", "button.ts"]) := by
    decide +kernel
  have hname : namedFile buttons ["lib"] "./button.component" =
      some ["lib", "button.component.ts"] := by
    decide +kernel
  refine ⟨hcode, hname, ?_⟩
  rw [Resolves, hcode, hname]
  simp

end JavaScript
