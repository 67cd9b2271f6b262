import CodeRag.Core.Utils
import CodeRag.Services.Theorems.Requests
import CodeRag.Services.Theorems.Sample

-- Which files a sync of one path selects, and which the sync of the whole project does.

-- The surroundings of a sync on a machine.
def Machine.project (m : Machine) (root : String) (ignored : String → Bool)
    (libraries : List (String × String)) : Project where
  ignored           := ignored
  isFile            := m.disk.isFile
  validatePath path := m.validatePath path root
  libraries         := libraries

namespace IndexStack

open Conn

variable {F : Floats} {stack : IndexStack F} {project : Project} {options : SyncOptions}

-- The stack reads the files of the machine.
def on (stack : IndexStack F) (m : Machine) : IndexStack F :=
  { stack with parser := { stack.parser with files := m.disk.fileSystem } }

section Handed

variable (stack : IndexStack F) (project : Project) (options : SyncOptions)

-- The stored path that a worker hands to `sync_file` with a path.
def stored (path : String) : Option String :=
  match { stack with root := some options.root }.storedPath path with
  | .ok s    => s
  | .error _ => none

-- All stored paths that a sync hands to `sync_file`.
def handed : List String :=
  if options.path = none ∧ ¬options.indexAll then []
  else
    match validated project options with
    | .error _ => []
    | .ok v    => ((stack.selectPaths project options v).getD []).filterMap (stack.stored options)

end Handed

-- A sync comes to an end, whatever its workers find and however they take turns.
theorem exists_syncProject (stack : IndexStack F) (paths : List String) (force indexAll : Bool)
    (maxConcurrency : Nat) (w : World F) :
    ∃ result w', stack.SyncProject paths force indexAll maxConcurrency w result w' := by
  cases hr : stack.reembedIfDirty indexAll w
  case error e w' => exact ⟨_, w', .raised hr⟩
  case ok w₁ =>
    obtain ⟨_, w', ho⟩ := Pool.exists_outcome
    exact ⟨_, w', .returned hr ho⟩

theorem exists_runSync (stack : IndexStack F) (project : Project) (options : SyncOptions) (w : World F) :
    ∃ result w', stack.RunSync project options w result w' := by
  by_cases hsome : options.path.isSome ∨ options.indexAll
  case neg =>
    obtain ⟨hp, hi⟩ := not_or.mp hsome
    exact ⟨_, w, .nothing (by simpa using hp) (by simpa using hi)⟩
  case pos =>
    cases hpre : stack.prelude project options w
    case error e w' => exact ⟨_, w', .raised hsome hpre⟩
    case ok selected w₁ =>
      cases selected
      case none       => exact ⟨_, w₁, .skipped hsome hpre⟩
      case some paths =>
        obtain ⟨result, w', hs⟩ := exists_syncProject { stack with root := some options.root } paths
          options.force options.indexAll options.maxConcurrency w₁
        cases result
        case error => exact ⟨_, w', .failed hsome hpre hs⟩
        case ok    => exact ⟨_, w', .synced hsome hpre hs⟩

-- The workers of a sync that returns do the jobs whose stored paths are handed to `sync_file`, each once.
theorem handed_of_runSync {w w' : World F} {result : SyncResult} (hn : 0 < options.maxConcurrency)
    (h : stack.RunSync project options w (.ok result) w') : ∃ paths w₁ c,
      Pool.Steps (IndexStack.syncPath { stack with root := some options.root } options.force)
        (.start paths (workerCount paths options.maxConcurrency) w₁) c ∧ c.Final ∧ c.state = w' ∧
      ((c.returned.map Prod.fst).filterMap (stack.stored options)).Perm (stack.handed project options) := by
  have hnone : stack.handed project options = [] → ∃ paths w₁ c,
      Pool.Steps (IndexStack.syncPath { stack with root := some options.root } options.force)
        (.start paths (workerCount paths options.maxConcurrency) w₁) c ∧ c.Final ∧ c.state = w' ∧
      ((c.returned.map Prod.fst).filterMap (stack.stored options)).Perm (stack.handed project options) := by
    intro hh
    refine ⟨[], w', _, .refl, fun _ hw => ?_, rfl, by rw [hh]; rfl⟩
    simp [Pool.start, workerCount] at hw
  cases h
  case nothing hp hi => exact hnone (by simp [handed, hp, hi])
  case skipped hsome hpre =>
    obtain ⟨v, hv, hsel⟩ := prelude_selects hpre
    refine hnone ?_
    rw [handed, hv]
    dsimp only
    rw [←hsel]
    split <;> rfl
  case synced w₁ paths failures hsome hpre hsync =>
    obtain ⟨v, hv, hsel⟩ := prelude_selects hpre
    cases hsync
    case returned w₂ fs _ hout =>
      obtain ⟨c, hs, hf, _, hw⟩ := hout
      have hcount : paths ≠ [] → 0 < workerCount paths options.maxConcurrency := fun hne =>
        Nat.lt_min.mpr ⟨List.length_pos_iff.mpr hne, hn⟩
      refine ⟨paths, w₂, c, hs, hf, hw, ?_⟩
      have hh : stack.handed project options = paths.filterMap (stack.stored options) := by
        have hstart : ¬(options.path = none ∧ ¬options.indexAll) := by
          rintro ⟨hp, hi⟩
          simp [hp, hi] at hsome
        rw [handed, if_neg hstart, hv]
        dsimp only
        rw [←hsel, Option.getD_some]
      rw [hh]
      exact (Pool.final_returned hcount hs hf).right.filterMap _

end IndexStack

section Scope

variable {F : Floats} {stack : IndexStack F} {m : Machine} {options : SyncOptions}
variable {ignored : String → Bool} {libraries : List (String × String)} {root target dir ℓ t : Location}
variable {path s : String}

namespace IndexStack

-- The suffix of a path is one of those that are indexed.
def HasLanguage (stack : IndexStack F) (path : String) : Prop :=
  (EXTENSION_TO_LANGUAGE.lookup (stack.parser.runtime.lower (Path.suffix path))).isSome

-- A location below a directory, with an indexed suffix, leads to a place.
def Named (stack : IndexStack F) (m : Machine) (dir t : Location) : Prop :=
  ∃ ℓ ∈ m.disk.below dir, m.disk.realpath ℓ.path = some t ∧ stack.HasLanguage ℓ.path

end IndexStack

-- A file that is inside the root and not ignored.
structure Machine.Kept (m : Machine) (ignored : String → Bool) (root t : Location) : Prop where
  file   : ∃ content, m.disk.entry t = some (.file content)
  inside : ∃ rel, t = root ++ rel ∧ ignored (Path.asPosix rel) = false

-- The place that a stored path denotes.
def Denotes (root : Location) (s : String) (t : Location) : Prop :=
  ∃ rel, t = root ++ rel ∧ s = Path.asPosix rel

theorem Denotes.unique {t' : Location} (h : Denotes root s t) (h' : Denotes root s t') : t = t' := by
  obtain ⟨rel, rfl, hs⟩ := h
  obtain ⟨rel', rfl, hs'⟩ := h'
  rw [Path.asPosix_injective (hs.symm.trans hs')]

namespace Disk

variable {disk : Disk}

theorem mem_below : ℓ ∈ disk.below dir ↔ (disk.entry ℓ).isSome ∧ dir <+: ℓ ∧ ℓ ≠ dir := by
  rw [below, List.mem_filter, entry_isSome_iff]
  simp

theorem isFile_iff : disk.isFile path ↔
    ∃ t, disk.realpath path = some t ∧ ∃ content, disk.entry t = some (.file content) := by
  unfold isFile
  cases hp : disk.realpath path
  case none => simp
  case some t =>
    cases he : disk.entry t
    case none => simp [he]
    case some e => cases e <;> simp [he]

theorem isFile_of_realpath (h : disk.realpath path = some t) (hf : disk.isFile path) :
    ∃ content, disk.entry t = some (.file content) := by
  obtain ⟨_, h', hfile⟩ := isFile_iff.mp hf
  cases h.symm.trans h'
  exact hfile

-- An entry that is no link leads to itself.
theorem realpath_of_not_link (h : (disk.entry ℓ).isSome) (hl : ¬disk.IsLink ℓ) :
    disk.realpath ℓ.path = some ℓ := by
  obtain ⟨e, he⟩ := Option.isSome_iff_exists.mp h
  exact realpath_path (real_of_entry he hl)

-- Nothing is below a file.
theorem eq_of_prefix_of_file {content : List UInt8} {e : Entry} (h : disk.entry ℓ = some (.file content))
    (ht : disk.entry t = some e) (hp : ℓ <+: t) : t = ℓ := by
  obtain ⟨rel, rfl⟩ := hp
  by_contra hne
  have hd := entry_above ht fun hr => hne (by rw [hr, List.append_nil])
  cases h.symm.trans hd

end Disk

namespace IndexStack

theorem projectRelativePosix_of_append {rel : Location} (hr : m.disk.realpath options.root = some root)
    (hp : m.disk.realpath path = some (root ++ rel)) :
    (stack.on m).parser.files.projectRelativePosix path options.root = .ok (Path.asPosix rel) := by
  have hrel : relativeTo (root ++ rel) root = some rel := relativeTo_eq_some_iff.mpr rfl
  simp only [FileSystem.projectRelativePosix, on, Disk.fileSystem, hr, hp, Option.getD_some, hrel]

variable (stack) in
theorem projectRelativePosix_of_ne (hr : m.disk.realpath options.root = some root)
    (hp : m.disk.realpath path = some t) (hne : ∀ rel, t ≠ root ++ rel) :
    ∃ e, (stack.on m).parser.files.projectRelativePosix path options.root = .error e := by
  have hrel : relativeTo t root = none := by
    rw [Option.eq_none_iff_forall_ne_some]
    exact fun rel h => hne rel (relativeTo_eq_some_iff.mp h)
  simp only [FileSystem.projectRelativePosix, on, Disk.fileSystem, hr, hp, Option.getD_some, hrel]
  exact ⟨_, rfl⟩

-- What the filter of a sync comes to, for a path that leads somewhere.
theorem shouldIndex_iff (hr : m.disk.realpath options.root = some root)
    (hp : m.disk.realpath path = some t) :
    (stack.on m).shouldIndex (m.project options.root ignored libraries) options path ↔
      (∃ rel, t = root ++ rel ∧ ignored (Path.asPosix rel) = false) ∧ stack.HasLanguage path := by
  unfold shouldIndex
  by_cases h : ∃ rel, t = root ++ rel
  case neg =>
    obtain ⟨e, he⟩ := projectRelativePosix_of_ne stack hr hp (not_exists.mp h)
    rw [he]
    refine iff_of_false (by simp) ?_
    rintro ⟨⟨rel, hrel, _⟩, _⟩
    exact h ⟨rel, hrel⟩
  case pos =>
    obtain ⟨rel, rfl⟩ := h
    have hignored : (∃ rel', root ++ rel = root ++ rel' ∧ ignored (Path.asPosix rel') = false) ↔
        ignored (Path.asPosix rel) = false := by
      constructor
      case mp =>
        rintro ⟨rel', hrel', hi⟩
        cases List.append_cancel_left hrel'
        exact hi
      case mpr => exact fun hi => ⟨rel, rfl, hi⟩
    rw [projectRelativePosix_of_append hr hp, hignored, decide_eq_true_iff, Bool.not_eq_true]
    rfl

theorem stored_eq_some_iff (hr : m.disk.realpath options.root = some root)
    (hp : m.disk.realpath path = some t) :
    (stack.on m).stored options path = some s ↔ Denotes root s t := by
  unfold stored storedPath
  dsimp only
  constructor
  case mp =>
    intro h
    by_cases hrel : ∃ rel, t = root ++ rel
    case neg =>
      obtain ⟨e, he⟩ := projectRelativePosix_of_ne stack hr hp (not_exists.mp hrel)
      rw [he] at h
      cases h
    case pos =>
      obtain ⟨rel, rfl⟩ := hrel
      rw [projectRelativePosix_of_append hr hp] at h
      cases h
      exact ⟨rel, rfl, rfl⟩
  case mpr =>
    rintro ⟨rel, rfl, rfl⟩
    rw [projectRelativePosix_of_append hr hp]
    rfl

-- The stored paths of a walk are those of the places that it comes to by some name.
theorem mem_walked {walk : String} (hr : m.disk.realpath options.root = some root)
    (hw : m.disk.realpath walk = some dir) :
    s ∈ ((stack.on m).indexableUnder (m.project options.root ignored libraries) options walk).filterMap
        ((stack.on m).stored options) ↔
      ∃ t, m.Kept ignored root t ∧ stack.Named m dir t ∧ Denotes root s t := by
  have hfiles : (stack.on m).parser.files.files walk =
      ((m.disk.below dir).filter (m.disk.isFile ·.path)).map
        fun ℓ => Path.join walk (ℓ.drop dir.length) := by
    simp only [on, Disk.fileSystem, hw]
  -- The path that the walk yields for an entry leads where the entry does, and has its suffix.
  have hjoin : ∀ ℓ ∈ m.disk.below dir,
      m.disk.realpath (Path.join walk (ℓ.drop dir.length)) = m.disk.realpath ℓ.path ∧
        Path.suffix (Path.join walk (ℓ.drop dir.length)) = Path.suffix ℓ.path := by
    intro ℓ hℓ
    obtain ⟨_, ⟨rel, rfl⟩, hne⟩ := Disk.mem_below.mp hℓ
    have hrel : rel ≠ [] := fun he => hne (by rw [he, List.append_nil])
    rw [List.drop_left]
    exact ⟨Disk.realpath_join hrel hw, Path.suffix_join hrel⟩
  simp only [List.mem_filterMap, indexableUnder, hfiles, List.mem_filter, List.mem_map]
  constructor
  case mp =>
    rintro ⟨path, ⟨⟨ℓ, ⟨hℓ, hf⟩, rfl⟩, hi⟩, hs⟩
    obtain ⟨t, ht, hfile⟩ := Disk.isFile_iff.mp hf
    obtain ⟨hp, hsuffix⟩ := hjoin ℓ hℓ
    obtain ⟨hin, hl⟩ := (shouldIndex_iff hr (hp.trans ht)).mp hi
    refine ⟨t, ⟨hfile, hin⟩, ⟨ℓ, hℓ, ht, ?_⟩, (stored_eq_some_iff hr (hp.trans ht)).mp hs⟩
    rwa [HasLanguage, hsuffix] at hl
  case mpr =>
    rintro ⟨t, ⟨hfile, hin⟩, ⟨ℓ, hℓ, ht, hl⟩, hs⟩
    obtain ⟨hp, hsuffix⟩ := hjoin ℓ hℓ
    refine ⟨_, ⟨⟨ℓ, ⟨hℓ, Disk.isFile_iff.mpr ⟨t, ht, hfile⟩⟩, rfl⟩, ?_⟩,
      (stored_eq_some_iff hr (hp.trans ht)).mpr hs⟩
    refine (shouldIndex_iff hr (hp.trans ht)).mpr ⟨hin, ?_⟩
    rwa [HasLanguage, hsuffix]

section Requested

variable (stack : IndexStack F) (m : Machine) (options : SyncOptions) (ignored : String → Bool)
variable (libraries : List (String × String)) (root target : Location) (requested : String)

-- What a sync hands over when a path is requested, and when everything is.
def handedFor : List String :=
  (stack.on m).handed (m.project options.root ignored libraries) { options with path := some requested }

def handedForAll : List String :=
  (stack.on m).handed (m.project options.root ignored libraries)
    { options with path := none, indexAll := true }

-- The sync of a path that leads to the target hands over what the sync of the project hands over of
-- the files there, and only files in the project that are not ignored.
structure ScopesAgree : Prop where
  same   : ∀ s, s ∈ stack.handedFor m options ignored libraries requested ↔
    s ∈ stack.handedForAll m options ignored libraries ∧ ∃ t, Denotes root s t ∧ target <+: t
  inside : ∀ s ∈ stack.handedFor m options ignored libraries requested,
    ∃ t, Denotes root s t ∧ m.Kept ignored root t

-- The places that the sync of a path comes to. An empty path requests the whole project.
def Visits (t : Location) : Prop :=
  if requested = "" then stack.Named m root t
  else if m.disk.isFile target.path then t = target ∧ stack.HasLanguage target.path
  else stack.Named m target t

-- No link with an indexed suffix changes what belongs to the target:
-- a link to a target that is a file has no such suffix unless the target has one,
-- a link below a target that is a directory leads to a place below it that the project comes to as
-- well, and what a link in the project leads to below the target has such a name below the target.
-- A root that is a file is not walked.
def LinksAgree : Prop :=
  if requested = "" then
    ∀ t, m.Kept ignored root t → stack.Named m root t → target <+: t
  else if m.disk.isFile target.path then
    m.Kept ignored root target →
      (∀ ℓ ∈ m.disk.below root, m.disk.IsLink ℓ → m.disk.realpath ℓ.path = some target →
        stack.HasLanguage ℓ.path → stack.HasLanguage target.path) ∧
      (target = root → ¬stack.HasLanguage target.path)
  else
    ∀ ℓ t, m.disk.IsLink ℓ ∨ t = root → m.disk.realpath ℓ.path = some t → stack.HasLanguage ℓ.path →
      m.Kept ignored root t →
      (ℓ ∈ m.disk.below target → target <+: t ∧ stack.Named m root t) ∧
        (ℓ ∈ m.disk.below root → target <+: t → stack.Named m target t)

end Requested

variable {requested v : String} {project : Project}

theorem selectPaths_getD : (stack.selectPaths project options (some path)).getD [] =
    if project.isFile path then if stack.shouldIndex project options path then [path] else []
    else stack.indexableUnder project options path := by
  unfold selectPaths
  dsimp only
  split
  case isTrue => split <;> rfl
  case isFalse =>
    split
    case isTrue h => exact (List.isEmpty_iff.mp h.left).symm
    case isFalse  => rfl

theorem mem_handedForAll (hr : m.disk.realpath options.root = some root) :
    s ∈ stack.handedForAll m options ignored libraries ↔
      ∃ t, m.Kept ignored root t ∧ stack.Named m root t ∧ Denotes root s t :=
  mem_walked hr hr

theorem mem_handedFor (hr : m.disk.realpath options.root = some root)
    (hp : m.disk.realpath requested = some target)
    (hv : m.validatePath requested options.root = .ok v) :
    s ∈ stack.handedFor m options ignored libraries requested ↔
      ∃ t, m.Kept ignored root t ∧ stack.Visits m root target requested t ∧ Denotes root s t := by
  obtain ⟨_, hp', rfl⟩ := m.validatePath_resolved hv
  cases hp.symm.trans hp'
  have ht := Disk.realpath_path (Disk.realpath_real hp)
  unfold handedFor handed Visits
  rw [if_neg (by simp)]
  by_cases he : requested = ""
  case pos =>
    subst he
    simp only [if_true]
    exact mem_walked hr hr
  case neg =>
    have hvalid : validated (m.project options.root ignored libraries)
        { options with path := some requested } = .ok (some target.path) := by
      have hp : (m.project options.root ignored libraries).validatePath requested = .ok target.path := hv
      rw [validated_some rfl he, hp]
      rfl
    rw [hvalid]
    dsimp only
    rw [selectPaths_getD]
    by_cases hf : m.disk.isFile target.path
    case pos =>
      obtain ⟨t, hreal, hfile⟩ := Disk.isFile_iff.mp hf
      cases ht.symm.trans hreal
      have hi : (stack.on m).shouldIndex (m.project options.root ignored libraries)
          { options with path := some requested } target.path ↔ _ := shouldIndex_iff hr ht
      simp only [if_neg he, if_pos hf]
      rw [if_pos (show (m.project options.root ignored libraries).isFile target.path from hf)]
      by_cases hs : (stack.on m).shouldIndex (m.project options.root ignored libraries)
        { options with path := some requested } target.path
      case pos =>
        obtain ⟨hin, hl⟩ := hi.mp hs
        rw [if_pos hs, List.mem_filterMap]
        constructor
        case mp =>
          rintro ⟨path, hpath, hst⟩
          cases List.mem_singleton.mp hpath
          exact ⟨target, ⟨hfile, hin⟩, ⟨rfl, hl⟩, (stored_eq_some_iff hr ht).mp hst⟩
        case mpr =>
          rintro ⟨_, _, ⟨rfl, _⟩, hd⟩
          exact ⟨_, List.mem_singleton_self _, (stored_eq_some_iff hr ht).mpr hd⟩
      case neg =>
        rw [if_neg hs]
        refine iff_of_false List.not_mem_nil ?_
        rintro ⟨_, hk, ⟨rfl, hl⟩, _⟩
        exact hs (hi.mpr ⟨hk.inside, hl⟩)
    case neg =>
      simp only [if_neg he, if_neg hf]
      rw [if_neg (show ¬(m.project options.root ignored libraries).isFile target.path from hf)]
      exact mem_walked hr ht

-- The agreement of the stored paths is an agreement of places.
theorem scopesAgree_iff_places (hr : m.disk.realpath options.root = some root)
    (hp : m.disk.realpath requested = some target)
    (hv : m.validatePath requested options.root = .ok v) :
    stack.ScopesAgree m options ignored libraries root target requested ↔
      ∀ t, m.Kept ignored root t →
        (stack.Visits m root target requested t ↔ stack.Named m root t ∧ target <+: t) := by
  have hfor : ∀ s, s ∈ stack.handedFor m options ignored libraries requested ↔ _ :=
    fun _ => mem_handedFor hr hp hv
  have hall : ∀ s, s ∈ stack.handedForAll m options ignored libraries ↔ _ :=
    fun _ => mem_handedForAll hr
  constructor
  case mp =>
    intro h t hk
    obtain ⟨rel, ht, _⟩ := hk.inside
    have hd : Denotes root (Path.asPosix rel) t := ⟨rel, ht, rfl⟩
    constructor
    case mp =>
      intro hvis
      obtain ⟨hin, t', hd', hpre⟩ := (h.same _).mp ((hfor _).mpr ⟨t, hk, hvis, hd⟩)
      obtain ⟨t'', _, hn, hd''⟩ := (hall _).mp hin
      cases hd.unique hd'
      cases hd.unique hd''
      exact ⟨hn, hpre⟩
    case mpr =>
      rintro ⟨hn, hpre⟩
      have hin := (h.same _).mpr ⟨(hall _).mpr ⟨t, hk, hn, hd⟩, t, hd, hpre⟩
      obtain ⟨t', _, hvis, hd'⟩ := (hfor _).mp hin
      cases hd.unique hd'
      exact hvis
  case mpr =>
    intro h
    refine ⟨fun s => ?_, fun s hs => ?_⟩
    · rw [hfor, hall]
      constructor
      case mp =>
        rintro ⟨t, hk, hvis, hd⟩
        obtain ⟨hn, hpre⟩ := (h t hk).mp hvis
        exact ⟨⟨t, hk, hn, hd⟩, t, hd, hpre⟩
      case mpr =>
        rintro ⟨⟨t, hk, hn, hd⟩, t', hd', hpre⟩
        cases hd.unique hd'
        exact ⟨t, hk, (h t hk).mpr ⟨hn, hpre⟩, hd⟩
    · obtain ⟨t, hk, _, hd⟩ := (hfor s).mp hs
      exact ⟨t, hd, hk⟩

-- A name that is no link names itself.
theorem eq_of_not_link (hl : ¬m.disk.IsLink ℓ) (hℓ : ℓ ∈ m.disk.below dir)
    (ht : m.disk.realpath ℓ.path = some t) : ℓ = t := by
  have h := Disk.realpath_of_not_link (Disk.mem_below.mp hℓ).left hl
  exact Option.some.inj (h.symm.trans ht)

-- A kept file is below the root, unless it is the root.
theorem kept_below (hk : m.Kept ignored root t) (hne : t ≠ root) : t ∈ m.disk.below root := by
  obtain ⟨content, he⟩ := hk.file
  obtain ⟨rel, ht, _⟩ := hk.inside
  exact Disk.mem_below.mpr ⟨by rw [he]; rfl, ⟨rel, ht.symm⟩, hne⟩

-- A file leads to itself.
theorem kept_realpath (hk : m.Kept ignored root t) : m.disk.realpath t.path = some t := by
  obtain ⟨content, he⟩ := hk.file
  refine Disk.realpath_of_not_link (by rw [he]; rfl) ?_
  rintro ⟨text, hl⟩
  cases he.symm.trans hl

-- A root that is a file has nothing below it.
theorem not_named_of_kept (hk : m.Kept ignored root root) : ¬stack.Named m root t := by
  rintro ⟨ℓ, hℓ, _⟩
  obtain ⟨content, he⟩ := hk.file
  obtain ⟨hs, hpre, hne⟩ := Disk.mem_below.mp hℓ
  obtain ⟨e, hℓe⟩ := Option.isSome_iff_exists.mp hs
  exact hne (Disk.eq_of_prefix_of_file he hℓe hpre)

theorem linksAgree_file_iff (hf : ∃ content, m.disk.entry target = some (.file content)) :
    (m.Kept ignored root target →
      (∀ ℓ ∈ m.disk.below root, m.disk.IsLink ℓ → m.disk.realpath ℓ.path = some target →
        stack.HasLanguage ℓ.path → stack.HasLanguage target.path) ∧
      (target = root → ¬stack.HasLanguage target.path)) ↔
    ∀ t, m.Kept ignored root t →
      (t = target ∧ stack.HasLanguage target.path ↔ stack.Named m root t ∧ target <+: t) := by
  constructor
  case mp =>
    intro h t hk
    constructor
    case mp =>
      rintro ⟨rfl, hl⟩
      have hne : t ≠ root := fun hroot => (h hk).right hroot hl
      exact ⟨⟨t, kept_below hk hne, kept_realpath hk, hl⟩, List.prefix_rfl⟩
    case mpr =>
      rintro ⟨⟨ℓ, hℓ, hreal, hl⟩, hpre⟩
      obtain ⟨content, hfile⟩ := hk.file
      obtain ⟨_, hf⟩ := hf
      cases Disk.eq_of_prefix_of_file hf hfile hpre
      refine ⟨rfl, ?_⟩
      by_cases hlink : m.disk.IsLink ℓ
      case pos => exact (h hk).left ℓ hℓ hlink hreal hl
      case neg => exact eq_of_not_link hlink hℓ hreal ▸ hl
  case mpr =>
    intro h hk
    refine ⟨fun ℓ hℓ _ hreal hl => ?_, fun hroot hl => ?_⟩
    · exact ((h target hk).mpr ⟨⟨ℓ, hℓ, hreal, hl⟩, List.prefix_rfl⟩).right
    · have hn := ((h target hk).mp ⟨rfl, hl⟩).left
      subst hroot
      exact not_named_of_kept hk hn

theorem linksAgree_directory_iff (hf : ¬∃ content, m.disk.entry target = some (.file content)) :
    (∀ ℓ t, m.disk.IsLink ℓ ∨ t = root → m.disk.realpath ℓ.path = some t → stack.HasLanguage ℓ.path →
      m.Kept ignored root t →
      (ℓ ∈ m.disk.below target → target <+: t ∧ stack.Named m root t) ∧
        (ℓ ∈ m.disk.below root → target <+: t → stack.Named m target t)) ↔
    ∀ t, m.Kept ignored root t →
      (stack.Named m target t ↔ stack.Named m root t ∧ target <+: t) := by
  constructor
  case mp =>
    intro h t hk
    constructor
    case mp =>
      rintro ⟨ℓ, hℓ, hreal, hl⟩
      by_cases hlink : m.disk.IsLink ℓ ∨ t = root
      case pos => exact ((h ℓ t hlink hreal hl hk).left hℓ).symm
      case neg =>
        obtain ⟨hlink, hne⟩ := not_or.mp hlink
        cases eq_of_not_link hlink hℓ hreal
        exact ⟨⟨t, kept_below hk hne, hreal, hl⟩, (Disk.mem_below.mp hℓ).right.left⟩
    case mpr =>
      rintro ⟨⟨ℓ, hℓ, hreal, hl⟩, hpre⟩
      by_cases hlink : m.disk.IsLink ℓ ∨ t = root
      case pos => exact (h ℓ t hlink hreal hl hk).right hℓ hpre
      case neg =>
        obtain ⟨hlink, _⟩ := not_or.mp hlink
        cases eq_of_not_link hlink hℓ hreal
        have hne : t ≠ target := fun he => hf (he ▸ hk.file)
        exact ⟨t, Disk.mem_below.mpr ⟨(Disk.mem_below.mp hℓ).left, hpre, hne⟩, hreal, hl⟩
  case mpr =>
    intro h ℓ t _ hreal hl hk
    refine ⟨fun hℓ => ?_, fun hℓ hpre => ?_⟩
    · exact ((h t hk).mp ⟨ℓ, hℓ, hreal, hl⟩).symm
    · exact (h t hk).mpr ⟨⟨ℓ, hℓ, hreal, hl⟩, hpre⟩

theorem linksAgree_iff (ht : m.disk.realpath target.path = some target) :
    stack.LinksAgree m ignored root target requested ↔
      ∀ t, m.Kept ignored root t →
        (stack.Visits m root target requested t ↔ stack.Named m root t ∧ target <+: t) := by
  unfold LinksAgree Visits
  by_cases he : requested = ""
  case pos =>
    simp only [if_pos he]
    exact forall₂_congr fun _ _ => iff_self_and.symm
  case neg =>
    simp only [if_neg he]
    by_cases hf : m.disk.isFile target.path
    case pos =>
      simp only [if_pos hf]
      exact linksAgree_file_iff (Disk.isFile_of_realpath ht hf)
    case neg =>
      simp only [if_neg hf]
      exact linksAgree_directory_iff fun h => hf (Disk.isFile_iff.mpr ⟨target, ht, h⟩)

-- When the sync of a path selects what the sync of the project selects there.
theorem scopesAgree_iff (hr : m.disk.realpath options.root = some root)
    (hp : m.disk.realpath requested = some target)
    (hv : m.validatePath requested options.root = .ok v) :
    stack.ScopesAgree m options ignored libraries root target requested ↔
      stack.LinksAgree m ignored root target requested := by
  rw [scopesAgree_iff_places hr hp hv, linksAgree_iff (Disk.realpath_path (Disk.realpath_real hp))]

end IndexStack

end Scope

namespace IndexStack

section Sample

-- A link with an indexed suffix in a project, and a text that it leads to.
private def linkedText : Disk where
  entries := [([], .directory), ([⟨"r", by decide⟩], .directory),
    ([⟨"r", by decide⟩, ⟨"l.py", by decide⟩], .link "x.txt"),
    ([⟨"r", by decide⟩, ⟨"x.txt", by decide⟩], .file [])]
  cwd     := []
  nodup   := by decide +kernel
  top     := rfl
  parent  := by decide +kernel
  names   := by decide +kernel
  cwd_wf  := rfl

private def machine : Machine where
  disk      := linkedText
  tempDir   := "/tmp"
  globalDir := "/g"
  home      := "/h"

private def wholeProject : SyncOptions where
  root           := "/r"
  path           := none
  indexAll       := true
  force          := false
  maxConcurrency := 1

private def projectRoot : Location :=
  [⟨"r", by decide⟩]

private def text : Location :=
  [⟨"r", by decide⟩, ⟨"x.txt", by decide⟩]

private def reader : IndexStack naturals :=
  Sample.stack "m" [] "" none

theorem scopesAgree_iff_sample :
    reader.ScopesAgree machine wholeProject (fun _ => false) [] projectRoot text "/r/l.py" ↔
      reader.LinksAgree machine (fun _ => false) projectRoot text "/r/l.py" :=
  scopesAgree_iff (v := text.path) (by decide +kernel) (by decide +kernel) (by decide +kernel)

-- The sync of the link skips the file that the sync of the project takes by the name of the link.
theorem linked_text_skipped : machine.validatePath "/r/l.py" "/r" = .ok text.path ∧
    ¬reader.ScopesAgree machine wholeProject (fun _ => false) [] projectRoot text "/r/l.py" := by
  refine ⟨by decide +kernel, fun h => ?_⟩
  have hall : "x.txt" ∈ reader.handedForAll machine wholeProject (fun _ => false) [] := by decide +kernel
  have hfor : "x.txt" ∉ reader.handedFor machine wholeProject (fun _ => false) [] "/r/l.py" := by
    decide +kernel
  exact hfor ((h.same "x.txt").mpr ⟨hall, text, ⟨[⟨"x.txt", by decide⟩], rfl, rfl⟩, List.prefix_rfl⟩)

end Sample

end IndexStack
