import CodeRag.Services.Theorems.Migration
import CodeRag.Storage.Theorems.Tidy

-- What becomes of the units when their paths are migrated, whichever files and paths fail.

namespace PathMigration

open Conn EStateM World

variable {F : Floats} {w w' : World F} {db db' : Db F} {u : UnitRow} {parser : MultiParser}
variable {root : String} {files : List String} {mapping done : List (String × String)}

section Commits

-- A unit is as it was, or its path and its id are those that its path is mapped to.
def Carried (mapping : List (String × String)) (db' : Db F) (u : UnitRow) : Prop :=
  u ∈ db'.units ∨ ∃ new, (u.path, new) ∈ mapping ∧
    { u with path := new, id := rewriteId u.path new u.id } ∈ db'.units

-- A path that a unit has been moved to is not moved once more.
theorem carried_of_run (absolute : ∀ m ∈ mapping, Path.isAbsolute m.1)
    (relative : ∀ m ∈ mapping, Path.isAbsolute m.2 = false) (hd : ∀ m ∈ done, m ∈ mapping)
    (h : Action.Run (fun m => Db.RewritesTo m.1 m.2) done db db') (hu : u ∈ db.units) :
    Carried mapping db' u := by
  induction done generalizing db u
  case nil =>
    cases h
    exact .inl hu
  case cons m ms ih =>
    obtain ⟨db₁, hm, h⟩ := h
    have hmem : m ∈ mapping := hd m (.head _)
    have ih := fun {u} => ih (u := u) (fun m' hm' => hd m' (.tail _ hm')) h
    have hu₁ : u.rewritePath m.1 m.2 ∈ db₁.units := (Table.mem_update hm.units).mpr ⟨u, hu, rfl⟩
    unfold UnitRow.rewritePath at hu₁
    split at hu₁
    case isFalse => exact ih hu₁
    case isTrue hp =>
      obtain hr | ⟨new, hnew, _⟩ := ih hu₁
      case inl => exact .inr ⟨m.2, hp ▸ hmem, hp ▸ hr⟩
      case inr =>
        have ha := absolute _ hnew
        rw [show Path.isAbsolute _ = false from relative m hmem] at ha
        cases ha

theorem indexMeta_of_commits (h : Action.Run (fun m => Db.RewritesTo m.1 m.2) done db db') :
    db'.indexMeta = db.indexMeta :=
  (h.imp (S := fun _ _ _ => True) (I := fun s => s.indexMeta = db.indexMeta)
    (fun _ _ _ _ hs hr => ⟨trivial, hr.indexMeta.trans hs⟩) rfl).right

-- Each path is committed or not, and no commit that fails keeps the next one from being tried.
theorem commitAll_post : (commitAll mapping).post (fun r w' => (∃ failed, r = .ok failed) ∧
    ∃ done, (∀ m ∈ done, m ∈ mapping) ∧
      Action.Run (fun m => Db.RewritesTo m.1 m.2) done w.committed w'.committed) w := by
  induction mapping generalizing w
  case nil => exact post_pure ⟨⟨_, rfl⟩, [], nofun, rfl⟩
  case cons m ms ih =>
    have hone : (tryCatch (do commitRewrittenPath m.1 m.2; pure []) fun _ => pure [m.1] :
        Conn F (List String)).post (fun r w₁ => (∃ failed, r = .ok failed) ∧
          (w₁.committed = w.committed ∨ w.committed.RewritesTo m.1 m.2 w₁.committed)) w := by
      refine post_tryCatch (P := fun r w₁ => (∀ e, r = .error e → w₁.committed = w.committed) ∧
        ((∃ l, r = .ok l) → w.committed.RewritesTo m.1 m.2 w₁.committed)) ?_
        (fun l _ h => ⟨⟨l, rfl⟩, .inr (h.right ⟨l, rfl⟩)⟩)
        fun e _ h => post_pure ⟨⟨_, rfl⟩, .inl (h.left e rfl)⟩
      refine post_bind commitRewrittenPath_post (fun _ w₁ h => post_pure ⟨nofun, fun _ => ?_⟩)
        fun e _ h => ⟨fun _ _ => h.left e rfl, nofun⟩
      obtain ⟨hs, hs₁, _, hw⟩ := h.right rfl
      rwa [committed_eq hs, committed_eq hs₁]
    refine post_bind hone (fun _ w₁ ⟨_, h₁⟩ => ?_) fun e _ ⟨⟨_, h⟩, _⟩ => by cases h
    refine post_bind ih (fun rest w₂ ⟨_, done, hd, hrun⟩ => post_pure ⟨⟨_, rfl⟩, ?_⟩)
      fun e _ ⟨⟨_, h⟩, _⟩ => by cases h
    have htail : ∀ m' ∈ done, m' ∈ m :: ms := fun m' hm' => .tail _ (hd m' hm')
    obtain h₁ | h₁ := h₁
    case inl => exact ⟨done, htail, h₁ ▸ hrun⟩
    case inr => exact ⟨m :: done, List.forall_mem_cons.mpr ⟨.head _, htail⟩, w₁.committed, h₁, hrun⟩

end Commits

section Outcome

-- The mapping that a migration of the tables follows.
def mappingOf (parser : MultiParser) (root : String) (files : List String) (db : Db F) :
    List (String × String) :=
  claimRelativePaths parser.files (groupsOf (listed db.units.rows)) root (parsedFiles parser files)

-- The files that are parsed. There are none when no unit has an absolute path.
def parsedOf (files : List String) (db : Db F) : List String :=
  if (groupsOf (listed db.units.rows)).isEmpty then [] else files

-- What the commits of the paths return: the old paths whose commit raised.
def commitsOf (parser : MultiParser) (root : String) (files : List String) (w : World F) :
    Except Exn (List String) :=
  (commitAll (mappingOf parser root files w.db) (listUnits (pathsMigrationDone w).state).state).outcome

-- A unit is gone only if its path is absolute, no file has claimed it, and no file with its suffix
-- has failed to be parsed.
def MayGo (parser : MultiParser) (root : String) (files : List String) (db : Db F) (u : UnitRow) : Prop :=
  Path.isAbsolute u.path ∧ u.path ∉ (mappingOf parser root files db).map Prod.fst ∧
    ∀ file ∈ files, (parse parser file).isNone → suffixOf parser file ≠ suffixOf parser u.path

structure Unlost (parser : MultiParser) (root : String) (files : List String) (w w' : World F) : Prop where
  mapping : Migration w.db (mappingOf parser root files w.db)
  units   : ∀ u ∈ w.committed.units,
    Carried (mappingOf parser root files w.db) w'.committed u ∨ MayGo parser root files w.db u
  mark    : w.committed.meta? PATHS_MIGRATED_KEY ≠ some "1" → w'.committed.meta? PATHS_MIGRATED_KEY = some "1" →
    (∀ file ∈ parsedOf files w.db, (parse parser file).isSome) ∧ commitsOf parser root files w = .ok []

theorem mappingOf_migration : Migration db (mappingOf parser root files db) := by
  refine claimRelativePaths_migration fun u hu => ?_
  obtain ⟨row, hr, rfl⟩ := List.mem_map.mp hu
  exact hr

theorem unlost_of_committed (h : w'.committed = w.committed) : Unlost parser root files w w' where
  mapping        := mappingOf_migration
  units _ hu     := .inl (.inl (h ▸ hu))
  mark hmark hm' := absurd (h ▸ hm') hmark

theorem committed_of_reads (h : w.Reads w') : w'.committed = w.committed := by
  obtain ⟨f, rfl⟩ := h
  rfl

-- The statement that sets the mark changes nothing else.
theorem markPathsMigrated_post : (markPathsMigrated (F := F)).post
    (fun _ w' => w'.committed.units = w.committed.units) w := by
  refine post_mono metaSet_post fun _ w' h => ?_
  obtain ⟨hr, _⟩ | ⟨fs, _, rfl, _⟩ := h
  case inl => rw [committed_of_reads hr]
  case inr =>
    unfold committed
    cases w.saved <;> rfl

theorem deleteOrphans_post {orphans : List String} : (deleteAbsolutePaths orphans).post
    (fun _ w' => (∀ u ∈ w.committed.units, u.path ∉ orphans → u ∈ w'.committed.units) ∧
      w'.committed.indexMeta = w.committed.indexMeta) w := by
  refine post_mono deleteAbsolutePaths_post fun r w' h => ?_
  cases r
  case error e =>
    rw [h.left e rfl]
    exact ⟨fun _ hu _ => hu, rfl⟩
  case ok =>
    obtain ⟨hs, hs', hd⟩ := h.right rfl
    rw [committed_eq hs, committed_eq hs']
    exact ⟨fun u hu hp => (hd.units u).mpr ⟨hu, hp⟩, hd.indexMeta⟩

-- The paths whose units are deleted.
abbrev deletedOf (parser : MultiParser) (root : String) (files : List String) (db : Db F)
    (failed : List String) : List String :=
  orphansOf parser (groupsOf (listed db.units.rows)) (mappingOf parser root files db) failed
    (skippedSuffixes parser files)

theorem carried_or_mayGo {failed : List String} {db'' : Db F}
    (hc : Carried (mappingOf parser root files db) db' u)
    (hd : ∀ u ∈ db'.units, u.path ∉ deletedOf parser root files db failed → u ∈ db''.units) :
    Carried (mappingOf parser root files db) db'' u ∨ MayGo parser root files db u := by
  have habsolute : ∀ path ∈ deletedOf parser root files db failed, Path.isAbsolute path :=
    fun path hp => (groupsOf_paths.right path (List.mem_of_mem_filter hp)).left
  obtain hu | ⟨new, hm, hu⟩ := hc
  case inr =>
    refine .inl (.inr ⟨new, hm, hd _ hu fun ho => ?_⟩)
    have hrel : Path.isAbsolute new = false := mappingOf_migration.relative _ hm
    exact Bool.false_ne_true (hrel.symm.trans (habsolute new ho))
  case inl =>
    by_cases ho : u.path ∈ deletedOf parser root files db failed
    case neg => exact .inl (.inl (hd u hu ho))
    case pos =>
      have hfilter := (List.mem_filter.mp ho).right
      simp only [decide_eq_true_eq] at hfilter
      refine .inr ⟨habsolute _ ho, hfilter.left, fun file hf hn he => hfilter.right.right ?_⟩
      exact List.mem_map.mpr ⟨file, List.mem_filter.mpr ⟨hf, hn⟩, he⟩

theorem isSome_of_skippedSuffixes (h : (skippedSuffixes parser files).isEmpty) :
    ∀ file ∈ files, (parse parser file).isSome := by
  intro file hf
  have hn := List.filter_eq_nil_iff.mp (List.map_eq_nil_iff.mp (List.isEmpty_iff.mp h)) file hf
  rwa [Option.isNone_iff_eq_none, ←Option.ne_none_iff_isSome] at *

theorem mappingOf_of_isEmpty (h : (groupsOf (listed db.units.rows)).isEmpty) :
    mappingOf parser root files db = [] := by
  have hown : Owners parser.files root (groupsOf (listed db.units.rows)) _ := owners_foldl
    (fun group hg => (groupsOf_paths.right group.1 (List.mem_map_of_mem hg)).left) groupsOf_paths.left
  refine List.eq_nil_iff_forall_not_mem.mpr fun m hm => ?_
  obtain ⟨group, hg, _⟩ := ((claimed_foldl hown).follows hown).stored m hm
  rw [List.isEmpty_iff.mp h] at hg
  cases hg

theorem mark_unlost {b : Bool} {w₃ : World F}
    (hu : ∀ u ∈ w.committed.units,
      Carried (mappingOf parser root files w.db) w₃.committed u ∨ MayGo parser root files w.db u)
    (hall : (∀ file ∈ parsedOf files w.db, (parse parser file).isSome) ∧
      commitsOf parser root files w = .ok []) :
    (do markPathsMigrated; return b).post (fun _ w' => Unlost parser root files w w') w₃ := by
  have hdone : ∀ w' : World F, w'.committed.units = w₃.committed.units → Unlost parser root files w w' := by
    intro w' h
    refine ⟨mappingOf_migration, fun u hm => ?_, fun _ _ => hall⟩
    have hu := hu u hm
    unfold Carried at hu ⊢
    rwa [h]
  exact post_bind markPathsMigrated_post (fun _ w' h => post_pure (hdone w' h)) fun _ w' h => hdone w' h

theorem migrateAbsolutePaths_unlost :
    (migrateAbsolutePaths parser root files).post (fun _ w' => Unlost parser root files w w') w := by
  refine post_bind (P := fun r w₁ => w₁ = (pathsMigrationDone w).state ∧ w.Reads w₁)
    ⟨rfl, (pathsMigrationDone_post (w := w)).left⟩ ?_ fun _ _ h => unlost_of_committed (committed_of_reads h.right)
  rintro finished w₁ ⟨hw₁, hr₁⟩
  split
  case isTrue => exact post_pure (unlost_of_committed (committed_of_reads hr₁))
  have hlist : listUnits.post (fun r w₂ => w₂ = (listUnits w₁).state ∧ w₁.Reads w₂ ∧
      ∀ units, r = .ok units → units = listed w₁.db.units.rows) w₁ :=
    ⟨rfl, (select_post (w := w₁)).left, (select_post (w := w₁)).right⟩
  refine post_bind hlist ?_ fun _ _ h => unlost_of_committed (committed_of_reads (hr₁.trans h.right.left))
  rintro _ w₂ ⟨hw₂, hr₂, hunits⟩
  have hc₂ := committed_of_reads (hr₁.trans hr₂)
  have hdb : w₁.db = w.db := by
    obtain ⟨f, rfl⟩ := hr₁
    rfl
  rw [hunits _ rfl, hdb]
  dsimp only
  split
  case isTrue he =>
    -- No unit has an absolute path, so no file is parsed and no path is committed.
    have hall : (∀ file ∈ parsedOf files w.db, (parse parser file).isSome) ∧
        commitsOf parser root files w = .ok [] := by
      unfold parsedOf commitsOf
      rw [if_pos he, mappingOf_of_isEmpty he]
      exact ⟨nofun, rfl⟩
    exact mark_unlost (fun u hu => .inl (.inl (hc₂ ▸ hu))) hall
  case isFalse he =>
    have hcommit : (commitAll (mappingOf parser root files w.db)).post (fun r w₃ =>
        r = commitsOf parser root files w ∧ (∃ failed, r = .ok failed) ∧
        ∃ done, (∀ m ∈ done, m ∈ mappingOf parser root files w.db) ∧
          Action.Run (fun m => Db.RewritesTo m.1 m.2) done w₂.committed w₃.committed) w₂ := by
      unfold commitsOf
      rw [←hw₁, ←hw₂]
      exact ⟨rfl, commitAll_post⟩
    refine post_bind hcommit ?_ fun _ _ ⟨_, ⟨_, h⟩, _⟩ => by cases h
    rintro failed w₃ ⟨hfailed, _, done, hd, hrun⟩
    rw [hc₂] at hrun
    have hcarried : ∀ u ∈ w.committed.units, Carried (mappingOf parser root files w.db) w₃.committed u :=
      fun u hu => carried_of_run mappingOf_migration.absolute mappingOf_migration.relative hd hrun hu
    have hmeta := indexMeta_of_commits hrun
    have hlast : ∀ w₄ : World F,
        (∀ u ∈ w₃.committed.units, u.path ∉ deletedOf parser root files w.db failed → u ∈ w₄.committed.units) →
        w₄.committed.indexMeta = w₃.committed.indexMeta →
        Unlost parser root files w w₄ ∧
        (do
          if (skippedSuffixes parser files).isEmpty ∧ failed.isEmpty then
            markPathsMigrated
          return true : Conn F Bool).post (fun _ w' => Unlost parser root files w w') w₄ := by
      intro w₄ hu hm
      have hunits := fun u hmem => carried_or_mayGo (hcarried u hmem) hu
      have hplain : Unlost parser root files w w₄ := by
        refine ⟨mappingOf_migration, hunits, fun hn h => absurd ?_ hn⟩
        unfold Db.meta? at h ⊢
        rwa [hm, hmeta] at h
      refine ⟨hplain, ?_⟩
      split
      case isFalse => exact post_pure hplain
      case isTrue hc =>
        refine mark_unlost hunits ⟨?_, ?_⟩
        · unfold parsedOf
          rw [if_neg he]
          exact isSome_of_skippedSuffixes hc.left
        · rw [←hfailed, List.isEmpty_iff.mp hc.right]
    split
    case isFalse => exact (hlast w₃ (fun _ hu _ => hu) rfl).right
    case isTrue =>
      exact post_bind deleteOrphans_post (fun _ w₄ h => (hlast w₄ h.left h.right).right)
        fun _ w₄ h => (hlast w₄ h.left h.right).left

end Outcome
end PathMigration
