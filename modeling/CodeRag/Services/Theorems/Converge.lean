import CodeRag.Lib.Updates
import CodeRag.Services.Theorems.Project
import CodeRag.Services.Theorems.Unlost
import CodeRag.Storage.Theorems.Transaction

-- When a migration of the stored paths gets done with all of them.

namespace Db

variable {F : Floats} {db db' : Db F} {m : String × String} {mapping : List (String × String)}

def rewriteRow (m : String × String) (r : VecRow F) : VecRow F :=
  { r with id := rewriteId m.1 m.2 r.id }

-- The rewrites of the claimed paths give no two units, vectors or relations the same key.
structure Collisionless (mapping : List (String × String)) (db : Db F) : Prop where
  units     : db.units.Free (fun m => UnitRow.rewritePath m.1 m.2) mapping
  vectors   : ∀ e ∈ db.embeddings, e.rows.Free rewriteRow mapping
  relations : db.relations.Free (fun m => Relation.rewritePath m.1 m.2) mapping

theorem collisionless_nil : db.Collisionless [] :=
  ⟨Table.free_nil, fun _ _ => Table.free_nil, Table.free_nil⟩

theorem collisionless_cons :
    db.Collisionless (m :: mapping) ↔ ∃ db', db.RewritesTo m.1 m.2 db' ∧ db'.Collisionless mapping := by
  constructor
  case mp =>
    intro h
    obtain ⟨units, hu, hu'⟩ := Table.free_cons.mp h.units
    obtain ⟨relations, hr, hr'⟩ := Table.free_cons.mp h.relations
    obtain ⟨embeddings, he, he'⟩ : ∃ embeddings : Option (Embeddings F),
        db.embeddings.map (·.rename (rewriteId m.1 m.2)) = embeddings.map some ∧
        ∀ e ∈ embeddings, e.rows.Free rewriteRow mapping := by
      cases hdb : db.embeddings
      case none   => exact ⟨none, rfl, nofun⟩
      case some e =>
        obtain ⟨rows, hrows, hfree⟩ := Table.free_cons.mp (h.vectors e hdb)
        have hs : (e.rename (rewriteId m.1 m.2)).isSome := by
          unfold Embeddings.rename
          split
          case h_1 hn => cases hn.symm.trans hrows
          case h_2    => rfl
        obtain ⟨e', he⟩ := Option.isSome_iff_exists.mp hs
        obtain rfl := Option.some.inj ((Embeddings.rename_eq_some_iff.mp he).left.symm.trans hrows)
        refine ⟨some e', congrArg some he, ?_⟩
        rintro _ ⟨⟩
        exact hfree
    exact ⟨{ db with units := units, embeddings := embeddings, relations := relations },
      ⟨hu, he, hr, rfl, rfl⟩, hu', he', hr'⟩
  case mpr =>
    rintro ⟨db', hw, h⟩
    refine ⟨Table.free_cons.mpr ⟨_, hw.units, h.units⟩, fun e he => ?_,
      Table.free_cons.mpr ⟨_, hw.relations, h.relations⟩⟩
    have hemb := hw.embeddings
    rw [he] at hemb
    obtain ⟨e', he', hr⟩ := Option.map_eq_some_iff.mp hemb.symm
    exact Table.free_cons.mpr
      ⟨_, (Embeddings.rename_eq_some_iff.mp hr.symm).left, h.vectors e' he'⟩

-- All paths can be rewritten, one after the other.
theorem collisionless_iff : db.Collisionless mapping ↔
    ∃ db', Action.Run (fun m => Db.RewritesTo m.1 m.2) mapping db db' := by
  induction mapping generalizing db
  case nil => exact ⟨fun _ => ⟨db, rfl⟩, fun _ => collisionless_nil⟩
  case cons m mapping ih =>
    rw [collisionless_cons]
    constructor
    case mp =>
      rintro ⟨db₁, hw, h⟩
      obtain ⟨db', hrun⟩ := ih.mp h
      exact ⟨db', db₁, hw, hrun⟩
    case mpr =>
      rintro ⟨db', db₁, hw, hrun⟩
      exact ⟨db₁, hw, ih.mpr ⟨db', hrun⟩⟩

end Db

namespace PathMigration

open Conn EStateM World

variable {F : Floats} {w : World F} {db db' : Db F} {parser : MultiParser} {root : String}
variable {files : List String} {mapping : List (String × String)} {u : UnitRow}

section Paths

-- The path of a unit has been replaced by a relative one, or it is none of those that are replaced.
theorem path_after (relative : ∀ m ∈ mapping, Path.isAbsolute m.2 = false) :
    Path.isAbsolute (Table.after (fun m => UnitRow.rewritePath m.1 m.2) mapping u).path = false ∨
      (Table.after (fun m => UnitRow.rewritePath m.1 m.2) mapping u).path = u.path ∧
        u.path ∉ mapping.map Prod.fst := by
  induction mapping generalizing u
  case nil => exact .inr ⟨rfl, List.not_mem_nil⟩
  case cons m mapping ih =>
    have ih := fun u => ih (u := u) fun m' hm' => relative m' (.tail _ hm')
    show Path.isAbsolute (Table.after _ mapping (u.rewritePath m.1 m.2)).path = false ∨
      (Table.after _ mapping (u.rewritePath m.1 m.2)).path = u.path ∧ _
    by_cases hp : u.path = m.1
    case pos =>
      rw [UnitRow.rewritePath_eq hp]
      obtain h | ⟨h, _⟩ := ih { u with path := m.2, id := rewriteId m.1 m.2 u.id }
      · exact .inl h
      · exact .inl (h ▸ relative m (.head _))
    case neg =>
      rw [UnitRow.rewritePath_of_ne hp]
      exact (ih u).imp_right fun ⟨h, hn⟩ => ⟨h, by simpa [hp] using hn⟩

theorem mem_of_run (h : Action.Run (fun m => Db.RewritesTo m.1 m.2) mapping db db') (hu : u ∈ db'.units) :
    ∃ u₀ ∈ db.units, Table.after (fun m => UnitRow.rewritePath m.1 m.2) mapping u₀ = u := by
  induction mapping generalizing db
  case nil =>
    cases h
    exact ⟨u, hu, rfl⟩
  case cons m mapping ih =>
    obtain ⟨db₁, hm, h⟩ := h
    obtain ⟨u₁, hu₁, rfl⟩ := ih h
    obtain ⟨u₀, hu₀, rfl⟩ := (Table.mem_update hm.units).mp hu₁
    exact ⟨u₀, hu₀, rfl⟩

theorem mem_groupsOf {units : List KnowledgeUnit} {u : KnowledgeUnit} (hu : u ∈ units)
    (ha : Path.isAbsolute u.path) : u.path ∈ (groupsOf units).map Prod.fst := by
  induction units using List.reverseRecOn
  case nil => cases hu
  case append_singleton units last ih =>
    unfold groupsOf at ih ⊢
    rw [List.foldl_append, List.foldl_cons, List.foldl_nil]
    obtain hu | hu := List.mem_append.mp hu
    case inl =>
      split
      case isFalse => exact ih hu
      case isTrue  =>
        rw [addHash_paths]
        split
        · exact ih hu
        · exact List.mem_append_left _ (ih hu)
    case inr =>
      obtain rfl := List.mem_singleton.mp hu
      rw [if_pos ha, addHash_paths]
      split
      · assumption
      · simp

end Paths

section Run

theorem pathsMigrationDone_of_faultFree (hf : w.FaultFree) :
    pathsMigrationDone w = .ok (decide (w.db.meta? PATHS_MIGRATED_KEY = some "1")) w := by
  unfold pathsMigrationDone
  rw [bind_of_ok (metaGet_of_faultFree hf)]
  rfl

theorem migrateAbsolutePaths_of_done (hf : w.FaultFree) (h : w.db.meta? PATHS_MIGRATED_KEY = some "1") :
    migrateAbsolutePaths parser root files w = .ok false w := by
  unfold migrateAbsolutePaths
  rw [bind_of_ok (pathsMigrationDone_of_faultFree hf), h]
  rfl

-- The commits of a migration, none of which fails unless two rows get the same key.
theorem commitAll_of_faultFree (mapping : List (String × String)) (hf : w.FaultFree) (hs : w.saved = none) (hm : w.mode = .readWrite) :
    ∃ failed db, commitAll mapping w = .ok failed { w with db := db } ∧
      db.indexMeta = w.db.indexMeta ∧
      (failed = [] → Action.Run (fun m => Db.RewritesTo m.1 m.2) mapping w.db db) ∧
      (w.db.Collisionless mapping → failed = []) := by
  induction mapping generalizing w
  case nil => exact ⟨[], w.db, rfl, rfl, fun _ => rfl, fun _ => rfl⟩
  case cons m mapping ih =>
    obtain ⟨db₁, hw, hx⟩ | ⟨hno, e, hx⟩ :=
      (commitRewrittenPath_cases hf hs : _ ∨ _ ∧ ∃ e, commitRewrittenPath m.1 m.2 w = .error e w)
    case inl =>
      obtain ⟨failed, db, h, hi, hrun, hc⟩ := ih (w := { w with db := db₁ }) hf hs hm
      have hone : (tryCatch (do commitRewrittenPath m.1 m.2; pure []) fun _ => pure [m.1] :
          Conn F (List String)) w = .ok [] { w with db := db₁ } :=
        tryCatch_of_ok (bind_of_ok hx)
      refine ⟨failed, db, ?_, hi.trans hw.indexMeta, fun hn => ⟨db₁, hw, hrun hn⟩, fun hfree => hc ?_⟩
      · unfold commitAll
        rw [bind_of_ok hone, bind_of_ok h]
        rfl
      · obtain ⟨db₁', hw', hfree⟩ := Db.collisionless_cons.mp hfree
        rwa [hw.unique hw']
    case inr =>
      obtain ⟨failed, db, h, hi, -, -⟩ := ih hf hs hm
      have hone : (tryCatch (do commitRewrittenPath m.1 m.2; pure []) fun _ => pure [m.1] :
          Conn F (List String)) w = .ok [m.1] w :=
        tryCatch_of_error (bind_of_error hx)
      refine ⟨m.1 :: failed, db, ?_, hi, nofun, fun hfree => ?_⟩
      · unfold commitAll
        rw [bind_of_ok hone, bind_of_ok h]
        rfl
      · obtain ⟨db₁, hw, _⟩ := Db.collisionless_cons.mp hfree
        exact (hno hm db₁ hw).elim

-- The rest of a migration, after its commits.
private theorem finish_of_faultFree (orphans failed : List String) (h : w.Ready) (hs : w.saved = none) :
    ∃ db, w.db.Drop orphans db ∧
      (do
        if ¬orphans.isEmpty then
          deleteAbsolutePaths orphans
        if failed.isEmpty then
          markPathsMigrated
        return true : Conn F Bool) w =
          .ok true { w with db := if failed = [] then db.setMeta PATHS_MIGRATED_KEY "1" else db } := by
  have hmark : ∀ w : World F, w.Ready →
      (do if failed.isEmpty then markPathsMigrated
          return true : Conn F Bool) w =
        .ok true { w with db := if failed = [] then w.db.setMeta PATHS_MIGRATED_KEY "1" else w.db } := by
    intro w h
    cases failed
    case nil  => exact bind_of_ok (metaSet_of_ready h)
    case cons => rfl
  cases orphans
  case nil => exact ⟨w.db, ⟨by simp, fun _ _ => rfl, rfl, rfl⟩, hmark w h⟩
  case cons orphan orphans =>
    obtain ⟨db, hd, hx⟩ : ∃ db, w.db.Drop (orphan :: orphans) db ∧ _ = _ :=
      deleteAbsolutePaths_of_faultFree h.faultFree hs h.mode
    have hr : ({ w with db := db } : World F).Ready := h.of_db (hd.indexMeta ▸ h.indexMeta)
    exact ⟨db, hd, (bind_of_ok hx).trans (hmark _ hr)⟩

theorem skippedSuffixes_of_parsed (h : ∀ file ∈ files, (parse parser file).isSome) :
    skippedSuffixes parser files = [] := by
  refine List.map_eq_nil_iff.mpr (List.filter_eq_nil_iff.mpr fun file hf => ?_)
  rw [Option.isNone_iff_eq_none, ←ne_eq, Option.ne_none_iff_isSome]
  exact h file hf

-- A migration that is not done yet, in which every file can be parsed.
theorem migrateAbsolutePaths_of_faultFree (root : String) (h : w.Ready) (hs : w.saved = none)
    (hn : w.db.meta? PATHS_MIGRATED_KEY ≠ some "1") (hp : ∀ file ∈ files, (parse parser file).isSome) :
    ∃ (b : Bool) (failed : List String) (db : Db F), migrateAbsolutePaths parser root files w = .ok b { w with
        db := if failed = [] then db.setMeta PATHS_MIGRATED_KEY "1" else db } ∧
      db.indexMeta = w.db.indexMeta ∧
      (failed = [] → w.db.Collisionless (mappingOf parser root files w.db) ∧
        ∀ u ∈ db.units, Path.isAbsolute u.path = false) ∧
      (w.db.Collisionless (mappingOf parser root files w.db) → failed = []) := by
  have hdone : pathsMigrationDone w = .ok false w := by
    rw [pathsMigrationDone_of_faultFree h.faultFree, decide_eq_false hn]
  have hlist : listUnits w = .ok (listed w.db.units.rows) w := select_of_faultFree h.faultFree
  have hgroup : ∀ u ∈ w.db.units, Path.isAbsolute u.path →
      u.path ∈ (groupsOf (listed w.db.units.rows)).map Prod.fst :=
    fun u hu ha => mem_groupsOf (u := { toUnitRow := u, relations := [] }) (List.mem_map_of_mem hu) ha
  unfold migrateAbsolutePaths
  rw [bind_of_ok hdone, if_neg (by decide), bind_of_ok hlist]
  dsimp only
  split
  case isTrue he =>
    -- No unit has an absolute path.
    have hmark : commitPathMigration [] w = .ok () { w with db := w.db.setMeta PATHS_MIGRATED_KEY "1" } :=
      metaSet_of_ready h
    refine ⟨false, [], w.db, bind_of_ok hmark, rfl, fun _ => ⟨?_, fun u hu => ?_⟩, fun _ => rfl⟩
    · rw [mappingOf_of_isEmpty he]
      exact Db.collisionless_nil
    · rw [Bool.eq_false_iff]
      intro ha
      have hm := hgroup u hu ha
      rw [List.isEmpty_iff.mp he] at hm
      cases hm
  case isFalse =>
    obtain ⟨failed, db₁, hc, hi, hrun, hfree⟩ := commitAll_of_faultFree
      (mappingOf parser root files w.db) h.faultFree hs h.mode
    have h₁ : ({ w with db := db₁ } : World F).Ready := h.of_db (hi ▸ h.indexMeta)
    obtain ⟨db₂, hd, hx⟩ := finish_of_faultFree (deletedOf parser root files w.db failed) failed h₁ hs
    refine ⟨true, failed, db₂, ?_, hd.indexMeta.trans hi, fun hnil => ⟨?_, fun u hu => ?_⟩, hfree⟩
    · show (commitAll (mappingOf parser root files w.db) >>= _) w = _
      rw [bind_of_ok hc]
      simp only [deletedOf, skippedSuffixes_of_parsed hp, List.isEmpty_nil, true_and] at hx ⊢
      exact hx
    · exact Db.collisionless_iff.mpr ⟨db₁, hrun hnil⟩
    · obtain ⟨hu₁, ho⟩ := (hd.units u).mp hu
      obtain ⟨u₀, hu₀, rfl⟩ := mem_of_run (hrun hnil) hu₁
      obtain ha | ⟨ha, hm⟩ := path_after mappingOf_migration.relative (u := u₀)
      · exact ha
      · -- A path that is not mapped is deleted.
        rw [ha] at ho ⊢
        rw [Bool.eq_false_iff]
        intro habs
        refine ho (List.mem_filter.mpr ⟨hgroup u₀ hu₀ habs, ?_⟩)
        rw [hnil, skippedSuffixes_of_parsed hp]
        simpa using hm

end Run

-- After a call of the migration no unit has an absolute path, and no later call does anything.
def Converges (parser : MultiParser) (root : String) (files : List String) (w : World F) : Prop :=
  ∃ b w', migrateAbsolutePaths parser root files w = .ok b w' ∧
    (∀ u ∈ w'.db.units, Path.isAbsolute u.path = false) ∧
    w'.db.meta? PATHS_MIGRATED_KEY = some "1" ∧
    ∀ parser' root' files', migrateAbsolutePaths parser' root' files' w' = .ok false w'

theorem Converges.mark (h : Converges parser root files w) :
    (migrateAbsolutePaths parser root files w).state.db.meta? PATHS_MIGRATED_KEY = some "1" := by
  obtain ⟨b, w', hx, _, hm, _⟩ := h
  rw [hx]
  exact hm

-- A migration that is done has left no absolute path, and one that is not finds room for every unit.
def Migratable (parser : MultiParser) (root : String) (files : List String) (db : Db F) : Prop :=
  if db.meta? PATHS_MIGRATED_KEY = some "1" then ∀ u ∈ db.units, Path.isAbsolute u.path = false
  else db.Collisionless (mappingOf parser root files db)

theorem converges_iff (h : w.Ready) (hs : w.saved = none)
    (hp : ∀ file ∈ files, (parse parser file).isSome) :
    Converges parser root files w ↔ Migratable parser root files w.db := by
  unfold Migratable
  split
  case isTrue hm =>
    have hdone : migrateAbsolutePaths parser root files w = .ok false w :=
      migrateAbsolutePaths_of_done h.faultFree hm
    constructor
    case mp =>
      rintro ⟨b, w', hx, hu, _⟩
      cases hdone.symm.trans hx
      exact hu
    case mpr => exact fun hu => ⟨false, w, hdone, hu, hm, fun _ _ _ => migrateAbsolutePaths_of_done h.faultFree hm⟩
  case isFalse hn =>
    obtain ⟨b, failed, db, hx, hi, hnil, hfree⟩ := migrateAbsolutePaths_of_faultFree root h hs hn hp
    constructor
    case mp =>
      rintro ⟨b', w', hx', -, hmark, -⟩
      cases hx.symm.trans hx'
      by_cases hf : failed = []
      case pos => exact (hnil hf).left
      case neg =>
        dsimp only at hmark
        rw [if_neg hf] at hmark
        unfold Db.meta? at hmark hn
        exact (hn (hi ▸ hmark)).elim
    case mpr =>
      intro hc
      have hf := hfree hc
      rw [if_pos hf] at hx
      have hmark : (db.setMeta PATHS_MIGRATED_KEY "1").meta? PATHS_MIGRATED_KEY = some "1" := by
        rw [Db.meta?_setMeta (hi ▸ h.indexMeta), if_pos rfl]
      exact ⟨b, _, hx, (hnil hf).right, hmark,
        fun _ _ _ => migrateAbsolutePaths_of_done (w := { w with db := _ }) h.faultFree hmark⟩

section Sample

open Session IndexStack

-- A request to sync files, in sessions that meet no faults.
def Syncs : Request F → Prop
  | .reopen _ mode wipe _ faults llmFaults =>
    mode = .readWrite ∧ wipe = false ∧ faults = noFaults ∧ llmFaults = noFaults
  | .syncFile .. | .syncProject .. | .runSync .. => True
  | .search ..                                   => False

private def tree (files : List (String × String)) : IndexStack naturals :=
  Sample.stack "m" files "" none

private def everything : SyncOptions where
  root           := "/r"
  path           := none
  indexAll       := true
  force          := false
  maxConcurrency := 1

-- A file that was synced under its absolute path, before the project was moved.
private def before : World naturals :=
  (((tree [("/old/a.py", "f=1")]).syncFile false "/old/a.py" none).run
    (.opened (Sample.embedder "m") .empty false none noFaults)).state

-- The file has been changed, and another one cannot be read.
private def edited : List (String × String) :=
  [("/r/a.py", "f=2"), ("/r/b.py", "!")]

private def started : World naturals :=
  ((tree edited).prelude Sample.project everything before).state

private def incomplete : World naturals :=
  (Pool.sequential (({ tree edited with root := some "/r" } : IndexStack naturals).syncPath false)
    ["/r/a.py", "/r/b.py"] started).2

private theorem runSync_edited : ∃ failures, (tree edited).RunSync Sample.project everything before
    (.ok (resultFromFailures 2 failures)) incomplete := by
  have hsel : ((tree edited).prelude Sample.project everything before).outcome =
      .ok (some ["/r/a.py", "/r/b.py"]) := by decide +kernel
  have hd : started.dirty = false := by decide +kernel
  have hout : Pool.Outcome (({ tree edited with root := some "/r" } : IndexStack naturals).syncPath false)
      ["/r/a.py", "/r/b.py"] 1 started _ _ := Pool.sequential_outcome
  exact ⟨_, .synced (.inr rfl) (EStateM.eq_ok_of_outcome hsel) (.returned (reembedIfDirty_of_clean hd) hout)⟩

private theorem reachable_incomplete :
    Reachable (fun _ a _ => Syncs a) ⟨Sample.embedder "m", incomplete⟩ := by
  have hopen : Reachable (fun _ a _ => Syncs a)
      ⟨Sample.embedder "m", .opened (Sample.embedder "m") .empty false none noFaults⟩ :=
    .start (s := ⟨Sample.embedder "m", .connect .empty .readWrite none noFaults noFaults⟩)
      (a := .reopen (Sample.embedder "m") .readWrite false none noFaults noFaults)
      rfl trivial ⟨rfl, rfl, rfl, rfl⟩ (.reopen openDbConnection_eq)
  -- A state that is reached is not evaluated here.
  have hrun : ∀ w w' : World naturals, Reachable (fun _ a _ => Syncs a) ⟨Sample.embedder "m", w⟩ →
      ∀ r, (tree edited).RunSync Sample.project everything w r w' →
        Reachable (fun _ a _ => Syncs a) ⟨Sample.embedder "m", w'⟩ := by
    intro w w' hw r hr
    have ha : Syncs (.runSync (tree edited) Sample.project everything) := trivial
    exact .step hw ha (.runSync rfl hr)
  have ha : Syncs (.syncFile (tree [("/old/a.py", "f=1")]) false "/old/a.py" none) := trivial
  obtain ⟨failures, hr⟩ := runSync_edited
  exact hrun before incomplete (.step hopen ha (.syncFile rfl rfl)) _ hr

private def reverted : MultiParser :=
  (tree [("/r/a.py", "f=1"), ("/r/b.py", "g=3")]).parser

private theorem parsed_reverted : ∀ file ∈ ["/r/a.py", "/r/b.py"], (parse reverted file).isSome := by
  decide +kernel

theorem converges_iff_sample : Converges reverted "/r" ["/r/a.py", "/r/b.py"] before ↔
    Migratable reverted "/r" ["/r/a.py", "/r/b.py"] before.db :=
  converges_iff (usable_syncFile usable_opened).toReady (by decide +kernel) parsed_reverted

private theorem not_converges_of {w : World naturals}
    (hw : Reachable (fun _ a _ => Syncs a) ⟨Sample.embedder "m", w⟩)
    (hm : (migrateAbsolutePaths reverted "/r" ["/r/a.py", "/r/b.py"] w).state.db.meta?
      PATHS_MIGRATED_KEY ≠ some "1") :
    ¬∀ s : Session naturals, Reachable (fun _ a _ => Syncs a) s →
      ∀ (parser : MultiParser) (root : String) (files : List String),
        (∀ file ∈ files, (parse parser file).isSome) → Converges parser root files s.world :=
  fun h => hm (h _ hw reverted "/r" _ parsed_reverted).mark

-- The unit of the changed file is in the way of the one with the absolute path.
theorem not_converges : ¬∀ s : Session naturals, Reachable (fun _ a _ => Syncs a) s →
    ∀ (parser : MultiParser) (root : String) (files : List String),
      (∀ file ∈ files, (parse parser file).isSome) → Converges parser root files s.world :=
  not_converges_of reachable_incomplete (by decide +kernel)

end Sample

end PathMigration
