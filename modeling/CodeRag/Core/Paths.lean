import CodeRag.Lib.Strings
import CodeRag.Core.Exceptions

-- POSIX paths and the files of a machine.

-- A component of a resolved path.
abbrev Component :=
  { s : String // s ≠ "" ∧ s ≠ "." ∧ '/' ∉ s.toList }

-- `resolve` is `Path.resolve`, `read` reads a file, and `files` lists the files below a directory in
-- the order in which `rglob` yields them.
structure FileSystem where
  resolve : String → List Component
  read    : String → Except Exn (List UInt8)
  files   : String → List String

namespace Path

def isAbsolute (path : String) : Bool :=
  path.hasPrefix "/"

def asPosix : List Component → String
  | []      => "."
  | [c]     => c.val
  | c :: cs => c.val ++ "/" ++ asPosix cs

-- The last component of a path.
def name (path : String) : List Char :=
  ((path.toList.splitOn '/').filter fun c => c ≠ [] ∧ c ≠ ['.']).getLast?.getD []

-- A leading dot and a trailing dot do not start a suffix.
def suffix (path : String) : String :=
  let ext := (name path).reverse.takeWhile (· ≠ '.')
  match (name path).reverse.dropWhile (· ≠ '.') with
  | [] | [_] => ""
  | _        => if ext = [] then "" else String.ofList ('.' :: ext.reverse)

-- The second part of `os.path.splitext`.
def splitext (path : String) : String :=
  let base := path.toList.reverse.takeWhile (· ≠ '/')
  match base.dropWhile (· ≠ '.') with
  | []        => ""
  | _ :: stem =>
    if stem.all (· = '.') then "" else String.ofList ('.' :: (base.takeWhile (· ≠ '.')).reverse)

end Path

def relativeTo : List Component → List Component → Option (List Component)
  | cs, []           => some cs
  | [], _ :: _       => none
  | c :: cs, r :: rs => if c = r then relativeTo cs rs else none

namespace FileSystem

def projectRelativePosix (fs : FileSystem) (path root : String) : Except Exn String :=
  match relativeTo (fs.resolve path) (fs.resolve root) with
  | some cs => .ok (Path.asPosix cs)
  | none    => .error (.value s!"'{path}' is not in the subpath of '{root}'")

end FileSystem

namespace Path

theorem asPosix_not_absolute {cs : List Component} : isAbsolute (asPosix cs) = false := by
  have hc : ∀ (c : Component) (s : String), isAbsolute (c.val ++ s) = false := by
    intro ⟨c, hne, _, hs⟩ s
    rw [Bool.eq_false_iff]
    intro h
    obtain ⟨q, hq⟩ := String.hasPrefix_iff.mp h
    have hq' := congrArg String.toList hq
    cases hl : c.toList
    case nil => exact hne (by rw [←String.toList_inj, hl]; rfl)
    case cons d l =>
      simp only [String.toList_append, hl, List.cons_append] at hq'
      have hd : d = '/' := (List.cons.inj hq').left
      exact hs (hl ▸ hd ▸ List.mem_cons_self)
  match cs with
  | []           => rfl
  | [c]          => simpa [asPosix] using hc c ""
  | c :: d :: cs => simpa only [asPosix, String.append_assoc'] using hc c _

end Path

namespace FileSystem

theorem projectRelativePosix_not_absolute {fs : FileSystem} {path root rel : String}
    (h : fs.projectRelativePosix path root = .ok rel) : Path.isAbsolute rel = false := by
  unfold projectRelativePosix at h
  split at h <;> cases h
  exact Path.asPosix_not_absolute

end FileSystem

-- An absolute path, as the list of its parts.
abbrev FilePath := List String

namespace FilePath

def str (path : FilePath) : String :=
  "/" ++ .joinWith "/" path

def parent (path : FilePath) : FilePath :=
  path.dropLast

def stem (name : String) : String :=
  .ofList (name.toList.take (name.length - (Path.suffix name).length))

def withSuffix (path : FilePath) (ext : String) : Except Exn FilePath :=
  match path.getLast? with
  | none      => .error (.value s!"PosixPath('{path.str}') has an empty name")
  | some name => .ok (path.parent ++ [stem name ++ ext])

end FilePath

namespace Path

theorem name_of_component {c : String} (hn : c ≠ "") (hd : c ≠ ".") (hs : '/' ∉ c.toList) :
    name c = c.toList := by
  have hn' : c.toList ≠ [] := fun h => hn (String.toList_inj.mp h)
  have hd' : c.toList ≠ ['.'] := fun h => hd (String.toList_inj.mp h)
  rw [name, List.splitOn_eq_singleton hs, List.filter_cons_of_pos (by simp [hn', hd'])]
  rfl

theorem name_eq_append_suffix (path : String) :
    ∃ stem, name path = stem ++ (suffix path).toList := by
  have hrev : (name path).reverse =
      (name path).reverse.takeWhile (· ≠ '.') ++ (name path).reverse.dropWhile (· ≠ '.') :=
    List.takeWhile_append_dropWhile.symm
  unfold suffix
  dsimp only
  split
  case h_1 => exact ⟨name path, by simp⟩
  case h_2 => exact ⟨name path, by simp⟩
  case h_3 h₁ h₂ =>
    split
    case isTrue => exact ⟨name path, by simp⟩
    case isFalse =>
      cases hrest : (name path).reverse.dropWhile (· ≠ '.')
      case nil => exact (h₁ hrest).elim
      case cons c rest =>
        have hc : c = '.' := by
          have hne : (name path).reverse.dropWhile (· ≠ '.') ≠ [] := by rw [hrest]; exact nofun
          have h := List.head_dropWhile_not (· ≠ '.') hne
          simp only [hrest, List.head_cons] at h
          simpa using h
        have hname := congrArg List.reverse hrev
        rw [List.reverse_reverse, hrest, hc, List.reverse_append, List.reverse_cons] at hname
        exact ⟨rest.reverse, by rw [String.toList_ofList]; simpa using hname⟩

end Path

theorem FilePath.stem_append_suffix {c : String} (h : Path.name c = c.toList) :
    stem c ++ Path.suffix c = c := by
  obtain ⟨l, hl⟩ := Path.name_eq_append_suffix c
  rw [h] at hl
  have hlen : c.length - (Path.suffix c).length = l.length := by
    rw [←String.length_toList, ←String.length_toList, hl, List.length_append]
    omega
  rw [←String.toList_inj, String.toList_append, stem, String.toList_ofList, hlen, hl, List.take_left]

namespace Path

theorem name_spec (path : String) :
    name path = [] ∨ name path ≠ [] ∧ name path ≠ ['.'] ∧ '/' ∉ name path := by
  unfold name
  cases h : ((path.toList.splitOn '/').filter fun c => c ≠ [] ∧ c ≠ ['.']).getLast?
  case none => exact .inl rfl
  case some c =>
    obtain ⟨hc, hp⟩ := List.mem_filter.mp (List.mem_of_getLast? h)
    have hp : c ≠ [] ∧ c ≠ ['.'] := by simpa using hp
    exact .inr ⟨hp.left, hp.right, List.not_mem_of_mem_splitOn hc⟩

theorem name_ofList_name (path : String) : name (.ofList (name path)) = name path := by
  obtain h | ⟨hn, hd, hs⟩ := name_spec path
  case inl => rw [h]; rfl
  case inr =>
    have htoList : (String.ofList (name path)).toList = name path := String.toList_ofList
    rw [name_of_component _ _ (htoList.symm ▸ hs), htoList]
    · exact fun h => hn (by rw [←htoList, h]; rfl)
    · exact fun h => hd (by rw [←htoList, h]; rfl)

theorem suffix_eq_of_name_eq {path path' : String} (h : name path = name path') :
    suffix path = suffix path' := by
  unfold suffix
  rw [h]

theorem suffix_of_name_eq_append {path : String} {l ext : List Char} (h : name path = l ++ '.' :: ext)
    (hl : l ≠ []) (he : ext ≠ []) (hd : '.' ∉ ext) : suffix path = .ofList ('.' :: ext) := by
  have hall : ∀ c ∈ ext.reverse, (decide (c ≠ '.')) = true := by
    intro c hc
    have hm := List.mem_reverse.mp hc
    simpa using fun h : c = '.' => hd (h ▸ hm)
  have hrev : (name path).reverse = ext.reverse ++ '.' :: l.reverse := by rw [h]; simp
  have htake : (name path).reverse.takeWhile (· ≠ '.') = ext.reverse := by
    rw [hrev, List.takeWhile_append_of_pos hall, List.takeWhile_cons_of_neg (by simp), List.append_nil]
  have hdrop : (name path).reverse.dropWhile (· ≠ '.') = '.' :: l.reverse := by
    rw [hrev, List.dropWhile_append_of_pos hall, List.dropWhile_cons_of_neg (by simp)]
  unfold suffix
  dsimp only
  rw [htake, hdrop]
  split
  case h_1 h => cases h
  case h_2 h =>
    have hr : l.reverse = [] := (List.cons.inj h).right
    exact (hl (List.reverse_eq_nil_iff.mp hr)).elim
  case h_3 => rw [if_neg (by simpa using he), List.reverse_reverse]

end Path
