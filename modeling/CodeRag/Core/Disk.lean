import CodeRag.Core.Paths

-- The files, directories and symbolic links of a machine, and where paths lead.

inductive Entry
  | file (content : List UInt8)
  | directory
  | link (text : String)
  deriving DecidableEq, Repr

-- The parts of an absolute path.
abbrev Location := List Component

namespace Path

def names (path : String) : List (List Char) :=
  path.toList.splitOn '/'

def component (name : List Char) : Option Component :=
  if h : String.ofList name ≠ "" ∧ String.ofList name ≠ "." ∧ '/' ∉ (String.ofList name).toList then
    some ⟨.ofList name, h⟩
  else
    none

-- A path joined with the parts of a relative one.
def join (path : String) (rel : Location) : String :=
  if path = "" ∨ path = "." then asPosix rel
  else if path = "/" then "/" ++ asPosix rel
  else path ++ "/" ++ asPosix rel

end Path

namespace Location

def path (ℓ : Location) : String :=
  FilePath.str (ℓ.map Subtype.val)

def names (ℓ : Location) : List (List Char) :=
  ℓ.map (·.val.toList)

end Location

-- The entries in the order in which directories list them. An entry is in a directory.
structure Disk where
  entries : List (Location × Entry)
  cwd     : Location
  nodup   : (entries.map Prod.fst).Nodup
  top     : entries.lookup [] = some .directory
  parent  : ∀ e ∈ entries, e.1 ≠ [] → entries.lookup e.1.dropLast = some .directory
  names   : ∀ e ∈ entries, ∀ c ∈ e.1, c.val ≠ ".."
  cwd_wf  : entries.lookup cwd = some .directory

namespace Disk

def entry (disk : Disk) (ℓ : Location) : Option Entry :=
  disk.entries.lookup ℓ

def IsLink (disk : Disk) (ℓ : Location) : Prop :=
  ∃ text, disk.entry ℓ = some (.link text)

section Resolve

variable (disk : Disk)

-- The way from a location through some names. `jump` resolves the text of a link.
def through (jump : Location → List (List Char) → Option Location) :
    Location → List (List Char) → Option Location
  | here, []            => some here
  | here, name :: names =>
    if name = ['.', '.'] then
      through jump here.dropLast names
    else
      match Path.component name with
      | none   => through jump here names
      | some c =>
        match disk.entry (here ++ [c]) with
        | some (.link text) =>
          (jump (if Path.isAbsolute text then [] else here) (Path.names text)).bind
            (through jump · names)
        | _                 => through jump (here ++ [c]) names

-- Links may be nested to the given depth.
def resolveFrom : Nat → Location → List (List Char) → Option Location
  | 0     => disk.through fun _ _ => none
  | n + 1 => disk.through (resolveFrom n)

-- `os.path.realpath`. A chain of nested links that is longer than the number of entries is a loop.
def realpath (path : String) : Option Location :=
  disk.resolveFrom disk.entries.length (if Path.isAbsolute path then [] else disk.cwd) (Path.names path)

def present (path : String) : Bool :=
  ((disk.realpath path).bind disk.entry).isSome

def isFile (path : String) : Bool :=
  match (disk.realpath path).bind disk.entry with
  | some (.file _) => true
  | _              => false

-- `rglob("*")` does not descend into linked directories.
def below (dir : Location) : List Location :=
  (disk.entries.map Prod.fst).filter fun ℓ => dir.isPrefixOf ℓ ∧ ℓ ≠ dir

def fileSystem : FileSystem where
  resolve path := (disk.realpath path).getD []
  read path    :=
    match (disk.realpath path).bind disk.entry with
    | some (.file content) => .ok content
    | _                    => .error (.other s!"No such file: '{path}'")
  files path   :=
    match disk.realpath path with
    | none     => []
    | some dir => ((disk.below dir).filter (disk.isFile ·.path)).map
      fun ℓ => Path.join path (ℓ.drop dir.length)

end Resolve

section Entries

variable {disk : Disk} {ℓ ℓ' : Location} {c : Component} {e : Entry}

theorem mem_entries (h : disk.entry ℓ = some e) : (ℓ, e) ∈ disk.entries := by
  obtain ⟨l₁, l₂, hl, _⟩ := List.lookup_eq_some_iff.mp h
  rw [hl]
  simp

theorem entry_isSome_iff : (disk.entry ℓ).isSome ↔ ℓ ∈ disk.entries.map Prod.fst := by
  rw [entry, List.lookup_isSome_iff, List.mem_map]
  constructor
  case mp  => rintro ⟨e, he, hl⟩; exact ⟨e, he, (eq_of_beq hl).symm⟩
  case mpr => rintro ⟨e, he, rfl⟩; exact ⟨e, he, by simp⟩

-- What is above an entry is a directory.
theorem entry_above (h : disk.entry (ℓ ++ ℓ') = some e) (hne : ℓ' ≠ []) :
    disk.entry ℓ = some .directory := by
  induction ℓ' using List.reverseRecOn generalizing e
  case nil => exact (hne rfl).elim
  case append_singleton ℓ' c ih =>
    have hp := disk.parent _ (mem_entries h) (by simp)
    have hd : (ℓ ++ (ℓ' ++ [c])).dropLast = ℓ ++ ℓ' := by
      rw [←List.append_assoc, List.dropLast_concat]
    dsimp only at hp
    rw [hd] at hp
    cases ℓ'
    case nil => rwa [List.append_nil] at hp
    case cons => exact ih hp (by simp)

-- No link is on the way to a location, and no part of it leads upwards.
structure Real (disk : Disk) (ℓ : Location) : Prop where
  noLink  : ∀ p, p <+: ℓ → ¬disk.IsLink p
  forward : ∀ c ∈ ℓ, c.val ≠ ".."

theorem Real.above (h : disk.Real ℓ) (hp : ℓ' <+: ℓ) : disk.Real ℓ' where
  noLink p hp' := h.noLink p (hp'.trans hp)
  forward c hc := h.forward c (hp.subset hc)

theorem Real.concat (h : disk.Real ℓ) (hc : c.val ≠ "..") (hl : ¬disk.IsLink (ℓ ++ [c])) :
    disk.Real (ℓ ++ [c]) where
  noLink p hp := by
    obtain rfl | hp := List.prefix_concat_iff.mp hp
    · exact hl
    · exact h.noLink p hp
  forward d hd := by
    obtain hd | hd := List.mem_append.mp hd
    · exact h.forward d hd
    · exact List.mem_singleton.mp hd ▸ hc

-- An entry that is no link is where it seems to be.
theorem real_of_entry (h : disk.entry ℓ = some e) (hl : ¬disk.IsLink ℓ) : disk.Real ℓ where
  noLink p hp := by
    obtain ⟨q, rfl⟩ := hp
    by_cases hq : q = []
    case pos => rwa [hq, List.append_nil] at hl
    case neg =>
      rintro ⟨text, ht⟩
      cases (entry_above h hq).symm.trans ht
  forward := disk.names _ (mem_entries h)

theorem real_nil : disk.Real [] :=
  real_of_entry disk.top fun ⟨_, h⟩ => by cases disk.top.symm.trans h

theorem real_cwd : disk.Real disk.cwd :=
  real_of_entry disk.cwd_wf fun ⟨_, h⟩ => by cases disk.cwd_wf.symm.trans h

end Entries

section Realpath

variable {disk : Disk} {here ℓ ℓ' rel : Location} {c : Component} {name : List Char} {n : Nat}
variable {jump : Location → List (List Char) → Option Location} {xs ys : List (List Char)}
variable {path : String}

theorem through_append : disk.through jump here (xs ++ ys) =
    (disk.through jump here xs).bind (disk.through jump · ys) := by
  induction xs generalizing here
  case nil => rfl
  case cons name xs ih =>
    simp only [List.cons_append, through]
    split
    case isTrue  => exact ih
    case isFalse =>
      split
      case h_1 => exact ih
      case h_2 =>
        split
        case h_1 => simp only [ih, Option.bind_assoc]
        case h_2 => exact ih

theorem component_toList : Path.component c.val.toList = some c := by
  rw [Path.component, dif_pos (by rw [String.ofList_toList]; exact c.property)]
  exact congrArg some (Subtype.ext String.ofList_toList)

theorem component_dot (h : name = [] ∨ name = ['.']) : Path.component name = none := by
  obtain rfl | rfl := h
  · exact dif_neg fun h => h.left rfl
  · exact dif_neg fun h => h.right.left rfl

theorem component_ne (h : Path.component name = some c) (hn : name ≠ ['.', '.']) : c.val ≠ ".." := by
  unfold Path.component at h
  split at h <;> cases h
  intro he
  have hl := congrArg String.toList he
  rw [String.toList_ofList] at hl
  exact hn hl

-- Empty names and dots lead nowhere.
theorem through_cons_dot (h : name = [] ∨ name = ['.']) :
    disk.through jump here (name :: xs) = disk.through jump here xs := by
  have hne : name ≠ ['.', '.'] := by rintro rfl; simp at h
  rw [through, if_neg hne, component_dot h]

theorem through_cons_of_not_link (hc : c.val ≠ "..") (hl : ¬disk.IsLink (here ++ [c])) :
    disk.through jump here (c.val.toList :: xs) = disk.through jump (here ++ [c]) xs := by
  have hne : c.val.toList ≠ ['.', '.'] := by
    intro h
    exact hc (String.toList_inj.mp h)
  rw [through, if_neg hne, component_toList]
  dsimp only
  split
  case h_1 text h => exact (hl ⟨text, h⟩).elim
  case h_2        => rfl

-- The names of a location that is not behind a link lead to it.
theorem through_names (h : disk.Real (here ++ ℓ)) :
    disk.through jump here ℓ.names = some (here ++ ℓ) := by
  induction ℓ generalizing here
  case nil => rw [List.append_nil]; rfl
  case cons c ℓ ih =>
    have hs : here ++ c :: ℓ = (here ++ [c]) ++ ℓ := by simp
    have hr : disk.Real (here ++ [c]) := (hs ▸ h).above (List.prefix_append _ _)
    rw [Location.names, List.map_cons,
      through_cons_of_not_link (hr.forward c (by simp)) (hr.noLink _ List.prefix_rfl), hs]
    exact ih (hs ▸ h)

theorem through_real (hj : ∀ here names r, disk.Real here → jump here names = some r → disk.Real r)
    (h : disk.Real here) (hr : disk.through jump here xs = some ℓ) : disk.Real ℓ := by
  induction xs generalizing here
  case nil => cases hr; exact h
  case cons name xs ih =>
    rw [through] at hr
    split at hr
    case isTrue  => exact ih (h.above (List.dropLast_prefix _)) hr
    case isFalse hn =>
      split at hr
      case h_1 => exact ih h hr
      case h_2 c hc =>
        split at hr
        case h_1 text _ =>
          obtain ⟨r, hjump, hr⟩ := Option.bind_eq_some_iff.mp hr
          refine ih (hj _ _ r ?_ hjump) hr
          split
          case isTrue  => exact real_nil
          case isFalse => exact h
        case h_2 hl => exact ih (h.concat (component_ne hc hn) fun ⟨text, ht⟩ => hl text ht) hr

theorem resolveFrom_real (h : disk.Real here) (hr : disk.resolveFrom n here xs = some ℓ) :
    disk.Real ℓ := by
  induction n generalizing here xs ℓ
  case zero      => exact through_real (fun _ _ _ _ h => by cases h) h hr
  case succ n ih => exact through_real (fun _ _ _ h hj => ih h hj) h hr

theorem resolveFrom_eq : ∃ jump, disk.resolveFrom n = disk.through jump := by
  cases n <;> exact ⟨_, rfl⟩

-- Where a path leads, there is no link on the way.
theorem realpath_real (h : disk.realpath path = some ℓ) : disk.Real ℓ := by
  refine resolveFrom_real ?_ h
  split
  case isTrue  => exact real_nil
  case isFalse => exact real_cwd

theorem names_cons_slash {p : String} : Path.names ("/" ++ p) = [] :: Path.names p := by
  rw [Path.names, String.toList_append]
  exact List.splitOn_append_cons_self [] p.toList

theorem names_append_slash {p p' : String} :
    Path.names (p ++ "/" ++ p') = Path.names p ++ Path.names p' := by
  rw [Path.names, String.toList_append, String.toList_append, List.append_assoc]
  exact List.splitOn_append_cons_self p.toList p'.toList

theorem names_joinWith (h : ℓ ≠ []) :
    Path.names (.joinWith "/" (ℓ.map Subtype.val)) = ℓ.names := by
  rw [Path.names, String.toList_joinWith (c := '/') rfl, List.splitOn_intercalate, List.map_map]
  · rfl
  · simp only [List.map_map, List.mem_map]
    rintro _ ⟨c, _, rfl⟩
    exact c.property.right.right
  · simp only [ne_eq, List.map_eq_nil_iff]
    exact h

theorem asPosix_eq (h : rel ≠ []) : Path.asPosix rel = .joinWith "/" (rel.map Subtype.val) := by
  induction rel
  case nil => exact (h rfl).elim
  case cons c rel ih =>
    cases rel
    case nil         => rfl
    case cons d rel' =>
      rw [Path.asPosix, ih (by simp)]
      · rfl
      · simp

theorem names_asPosix (h : rel ≠ []) : Path.names (Path.asPosix rel) = rel.names := by
  rw [asPosix_eq h, names_joinWith h]

theorem names_path (h : ℓ ≠ []) : Path.names ℓ.path = [] :: ℓ.names := by
  rw [Location.path, FilePath.str, names_cons_slash, names_joinWith h]

theorem isAbsolute_path : Path.isAbsolute ℓ.path :=
  String.hasPrefix_append

-- The names of a joined path are those of the relative one, after names that lead as far as the first
-- path does.
theorem names_join (h : rel ≠ []) : Path.isAbsolute (Path.join path rel) = Path.isAbsolute path ∧
    ∃ names, Path.names (Path.join path rel) = names ++ rel.names ∧
      ∀ here, disk.through jump here names = disk.through jump here (Path.names path) := by
  unfold Path.join
  split
  case isTrue hp =>
    refine ⟨?_, [], names_asPosix h, fun here => ?_⟩
    · rw [Path.asPosix_not_absolute]
      obtain rfl | rfl := hp <;> rfl
    · obtain rfl | rfl := hp
      · exact (through_cons_dot (.inl rfl)).symm
      · exact (through_cons_dot (.inr rfl)).symm
  case isFalse hne =>
    split
    case isTrue hp =>
      subst hp
      refine ⟨String.hasPrefix_append, [[]], ?_, fun here => ?_⟩
      · rw [names_cons_slash, names_asPosix h]
        rfl
      · have hn : Path.names "/" = [[], []] := rfl
        rw [hn]
        exact (through_cons_dot (.inl rfl)).symm
    case isFalse =>
      refine ⟨?_, Path.names path, ?_, fun _ => rfl⟩
      · cases hl : path.toList
        case nil      => exact (hne (.inl (String.toList_inj.mp hl))).elim
        case cons c l => simp [Path.isAbsolute, String.hasPrefix, hl, List.isPrefixOf]
      · rw [names_append_slash, names_asPosix h]

theorem realpath_path (h : disk.Real ℓ) : disk.realpath ℓ.path = some ℓ := by
  obtain ⟨jump, hj⟩ := resolveFrom_eq (n := disk.entries.length)
  rw [realpath, if_pos isAbsolute_path, hj]
  cases ℓ
  case nil      => rfl
  case cons c ℓ =>
    rw [names_path (by simp), through_cons_dot (.inl rfl)]
    exact through_names h

-- What a joined path leads to is found below the place that the first path leads to.
theorem realpath_join (h : rel ≠ []) (hp : disk.realpath path = some ℓ) :
    disk.realpath (Path.join path rel) = disk.realpath (ℓ ++ rel).path := by
  obtain ⟨jump, hj⟩ := resolveFrom_eq (n := disk.entries.length)
  have hr := realpath_real hp
  obtain ⟨ha, names, hn, hnames⟩ := names_join h
  have hl : (ℓ ++ rel).names = ℓ.names ++ rel.names := List.map_append
  rw [realpath, hj] at hp ⊢
  rw [realpath, hj, if_pos isAbsolute_path, names_path (by simp [h]), through_cons_dot (.inl rfl), ha,
    hn, through_append, hnames, hp, hl, through_append, through_names hr]
  rfl

end Realpath

end Disk

namespace Path

variable {path : String} {ℓ rel rel' : Location} {pre : List (List Char)}

-- The name of a path whose names end with those of a relative location.
theorem name_of_names (h : rel ≠ []) (hn : names path = pre ++ rel.names) :
    name path = (rel.getLast h).val.toList := by
  have hall : rel.names.filter (fun c => c ≠ [] ∧ c ≠ ['.']) = rel.names := by
    refine List.filter_eq_self.mpr fun name hname => ?_
    obtain ⟨c, _, rfl⟩ := List.mem_map.mp hname
    have he : c.val.toList ≠ [] := fun he => c.property.left (String.toList_inj.mp he)
    have hd : c.val.toList ≠ ['.'] := fun hd => c.property.right.left (String.toList_inj.mp hd)
    simp [he, hd]
  have hne : rel.names ≠ [] := fun he => h (List.map_eq_nil_iff.mp he)
  show (((names path).filter _).getLast?).getD [] = _
  rw [hn, List.filter_append, hall, List.getLast?_append_of_ne_nil _ hne, Location.names,
    List.getLast?_map, List.getLast?_eq_some_getLast h]
  rfl

theorem suffix_join (h : rel ≠ []) : suffix (join path rel) = suffix (ℓ ++ rel).path := by
  refine suffix_eq_of_name_eq ?_
  have hne : ℓ ++ rel ≠ [] := by simp [h]
  have hl : (ℓ ++ rel).names = ℓ.names ++ rel.names := List.map_append
  have hn : ∃ pre, names (join path rel) = pre ++ rel.names := by
    unfold join
    split
    case isTrue  => exact ⟨[], Disk.names_asPosix h⟩
    case isFalse =>
      split
      case isTrue  => exact ⟨[[]], by rw [Disk.names_cons_slash, Disk.names_asPosix h]; rfl⟩
      case isFalse => exact ⟨names path, by rw [Disk.names_append_slash, Disk.names_asPosix h]⟩
  obtain ⟨pre, hn⟩ := hn
  have hp : names (ℓ ++ rel).path = ([] :: ℓ.names) ++ rel.names := by
    rw [Disk.names_path hne, hl, List.cons_append]
  rw [name_of_names h hn, name_of_names h hp]

theorem asPosix_injective (h : asPosix rel = asPosix rel') : rel = rel' := by
  -- A single dot is no part of a location.
  have hdot : ∀ rel, rel ≠ [] → asPosix rel ≠ "." := by
    intro rel hne he
    have hn := Disk.names_asPosix hne
    rw [he] at hn
    cases rel
    case nil => exact hne rfl
    case cons c rel =>
      have hc : ['.'] = c.val.toList := (List.cons.inj hn).left
      exact c.property.right.left (String.toList_inj.mp hc.symm)
  by_cases hr : rel = []
  case pos =>
    by_contra hne
    exact hdot rel' (fun he => hne (hr.trans he.symm)) (by rw [←h, hr]; rfl)
  case neg =>
    by_cases hr' : rel' = []
    case pos => exact (hdot rel hr (by rw [h, hr']; rfl)).elim
    case neg =>
      have hn : rel.names = rel'.names := by
        rw [←Disk.names_asPosix hr, ←Disk.names_asPosix hr', h]
      refine List.map_injective_iff.mpr (fun c d hcd => ?_) hn
      exact Subtype.ext (String.toList_inj.mp hcd)

end Path

theorem relativeTo_eq_some_iff {cs rs rel : Location} : relativeTo cs rs = some rel ↔ cs = rs ++ rel := by
  induction rs generalizing cs
  case nil => cases cs <;> simp [relativeTo]
  case cons r rs ih =>
    cases cs
    case nil       => simp [relativeTo]
    case cons c cs =>
      rw [relativeTo]
      split
      case isTrue h  => simp [ih, h]
      case isFalse h => simp [h]
