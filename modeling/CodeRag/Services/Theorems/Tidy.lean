import CodeRag.Services.Theorems.Requests
import CodeRag.Services.Theorems.Sample

-- Whatever fails in a session, other sessions find an index in which every row has its place.

namespace Conn

open EStateM World

variable {F : Floats} {α : Type} {w w' : World F} {embedder : Embedder F} {T : Rely (Db F)} {u : KnowledgeUnit}
variable {vector : Option (List F)} {old new : String} {paths : List String}

theorem sealing_of_guarded (h : guarded w w') : sealing w w' :=
  fun _ => h.left

theorem publishes_of_reads (h : w.Reads w') : publishes T w w' := by
  obtain ⟨f, rfl⟩ := h
  exact publishes_of_guarded ⟨rfl, rfl, fun _ => rfl⟩ fun _ => T.refl _

-- The tables that other sessions find stay tidy.
abbrev tidily : Rely (World F) :=
  publishes (.keeps Db.Tidy)

theorem ensure_tidily : (ensureEmbeddingsBound embedder).Within tidily := fun w =>
  publishes_of_guarded (ensureEmbeddingsBound_built.guarded w) fun _ h =>
    h.binds ensureEmbeddingsBound_post.left.db

theorem aembed_tidily {texts : List String} : (aembed embedder texts).Within tidily := by
  intro w
  refine publishes_of_guarded (aembed_built.guarded w) fun _ h => ?_
  obtain ⟨f, hw⟩ := (aembed_post : (aembed embedder texts).post _ w).left
  rw [hw]
  exact h

theorem upsertUnit_tidily (hu : u.toUnitRow.Tidy) : (upsertUnit embedder u vector).Within tidily := by
  intro w
  refine publishes_of_guarded (upsertUnit_built.guarded w) fun _ h => ?_
  obtain ⟨w₁, hx⟩ := (upsertUnit_post : (upsertUnit embedder u vector).post _ w)
  exact (h.binds hx.binds.db).stores hu hx.stores

-- A statement after which every row has its place again.
theorem execute_tidily {f : Db F → Except Exn (Db F)}
    (h : ∀ db db', f db = .ok db' → db.Tidy → db'.Tidy) : (execute f).Within tidily := by
  intro w
  refine publishes_of_guarded (execute_built.guarded w) fun _ hw => ?_
  have hp : (execute f).post _ w := execute_post
  obtain ⟨⟨fs, he⟩, _⟩ | ⟨db, fs, hf, _, he, _⟩ := hp
  · rw [he]
    exact hw
  · rw [he]
    exact h _ _ hf hw

theorem metaSet_tidily {k v : String} : (metaSet (F := F) k v).Within tidily := by
  refine execute_tidily fun db db' hf h => ?_
  split at hf <;> cases hf
  exact h.of_eq rfl fun _ => rfl

theorem setDependencyPath_tidily {lib path : String} : (setDependencyPath (F := F) lib path).Within tidily := by
  refine execute_tidily fun db db' hf h => ?_
  cases hf
  exact h.of_eq rfl fun _ => rfl

theorem modify_tidily {f : World F → World F} (h : ∀ w, guarded w (f w) ∧ (f w).db = w.db) :
    (modify f : Conn F Unit).Within tidily :=
  fun w => publishes_of_guarded (h w).left fun _ hw => (h w).right ▸ hw

theorem commitRewrittenPath_tidily (ho : ':' ∉ old.toList) (hn : ':' ∉ new.toList) :
    (commitRewrittenPath (F := F) old new).Within tidily := fun _ =>
  publishes_of_transaction (post_mono commitRewrittenPath_post fun _ _ h => ⟨h.left, fun hr =>
    have ⟨hs, hs', _, hrw⟩ := h.right hr
    ⟨hs, hs', fun ht => ht.rewritesTo ho hn hrw⟩⟩) transaction_refused

theorem deleteAbsolutePaths_tidily : (deleteAbsolutePaths (F := F) paths).Within tidily := by
  intro w
  by_cases ho : w.Held Db.Owned
  case pos =>
    have hheld : (deleteAbsolutePaths paths).post (fun _ w' => w'.Held Db.Owned ∧ w.db.NoneLeft w'.db) w :=
      deleteAbsolutePaths_held ho
    have hp := post_and deleteAbsolutePaths_post hheld
    refine publishes_of_transaction (post_mono hp fun _ _ h => ⟨h.left.left, fun hr => ?_⟩)
      transaction_refused
    obtain ⟨hs, hs', hd⟩ := h.left.right hr
    exact ⟨hs, hs', fun ht => ⟨fun u hu => ht.units u ((hd.units u).mp hu).left, h.right.left.left⟩⟩
  case neg =>
    refine publishes_of_transaction (post_mono deleteAbsolutePaths_post fun _ _ h => ⟨h.left, fun hr => ?_⟩)
      transaction_refused
    obtain ⟨hs, hs', _⟩ := h.right hr
    exact ⟨hs, hs', fun ht => (ho ⟨ht.owned, by rw [hs]; exact fun _ h => by cases h⟩).elim⟩

theorem openDbConnection_tidily {wipe : Bool} : (openDbConnection embedder wipe).Within tidily := by
  refine openDbConnection_within (fun _ _ => publishes_of_reads) (execute_tidily fun db db' hf h => ?_) ?_ ?_
  · cases hf
    exact h.of_eq rfl fun _ => rfl
  · refine .bind (execute_tidily fun db db' hf h => ?_) fun _ => execute_tidily fun db db' hf h => ?_
    · cases hf
      exact ⟨h.units, fun i hi => by cases hi⟩
    · cases hf
      exact h.of_eq rfl fun _ => rfl
  · intro f hf
    refine modify_tidily fun w => ?_
    have ⟨_, hd, hs, hm⟩ := hf w
    exact ⟨⟨hs, hm, fun _ => hd⟩, hd⟩

end Conn

namespace IndexStack

open Conn Coroutine World

variable {F : Floats} {stack : IndexStack F} {w w' : World F} {units : List KnowledgeUnit}
variable {filePath : String} {stored : Option String} {embedder : Embedder F}

theorem within_tidily (hp : stack.parser.distillFile filePath stored false = .ok units)
    (hc : ':' ∉ (stored.getD filePath).toList) : Within tidily stack units (stored.getD filePath) := by
  have hparsed := MultiParser.parsed_of_distillFile hp
  refine within_publishes (within_comap hparsed (fun _ _ hb h => h.binds hb) ?_ fun _ _ hd h => h.deletes hd)
  intro u hu summary vector d d' hs h
  refine h.stores ⟨?_, ?_⟩ hs
  · show ':' ∉ u.path.toList
    rw [(hparsed u hu).path]
    exact hc
  · obtain ⟨q, hq⟩ := (hparsed u hu).id
    exact ⟨q, by rw [←(hparsed u hu).path] at hq; exact hq⟩

-- The units that are stored anew have been stored before, unless this is not to be found by others.
theorem reembedAllUnits_tidily : tidily w ((reembedAllUnits embedder).run w).state := by
  have hmark : ∀ {S : Rely (World F)}, (metaSet META_MODEL_KEY embedder.modelId).Within S →
      (modify fun w => { w with dirty := false } : Conn F Unit).Within S →
      (markEmbeddingModelSynced embedder).Within S := fun h h' => .bind h fun _ => h'
  by_cases hs : w.saved.isSome
  case pos =>
    refine publishes_of_sealing hs (reembedAllUnits_rel ?_ ?_ ?_ ?_ (hmark ?_ ?_))
    · rintro w _ ⟨f, rfl⟩ _
      exact fun _ => rfl
    · exact fun w => sealing_of_guarded (ensureEmbeddingsBound_built.guarded w)
    · exact fun texts w => sealing_of_guarded (aembed_built.guarded w)
    · exact fun u _ vector w => sealing_of_guarded (upsertUnit_built.guarded w)
    · exact fun w => sealing_of_guarded (metaSet_built.guarded w)
    · exact fun w _ => rfl
  case neg =>
    by_cases ht : w.db.Tidy
    case pos =>
      exact reembedAllUnits_rel (fun _ _ h _ => publishes_of_reads h) ensure_tidily (fun _ => aembed_tidily)
        (fun u hu _ => upsertUnit_tidily (ht.units _ hu))
        (hmark metaSet_tidily (modify_tidily fun w => ⟨⟨rfl, rfl, fun _ => rfl⟩, rfl⟩))
    case neg =>
      have hw : w.committed = w.db := committed_eq (by simpa using hs)
      exact ⟨fun h => (ht (hw ▸ h)).elim, fun h => (hs h).elim⟩

theorem migrateAbsolutePaths_tidily {root : String} {files : List String}
    (hc : ∀ path, path ∈ files ∨ (∃ u ∈ w.db.units, u.path = path) → ∀ rel,
      stack.parser.files.projectRelativePosix path root = .ok rel → ':' ∉ rel.toList) :
    tidily w (PathMigration.migrateAbsolutePaths stack.parser root files w).state := by
  by_cases hs : w.saved.isSome
  case pos =>
    refine publishes_of_sealing hs (PathMigration.migrateAbsolutePaths_rel ?_ ?_ ?_ ?_)
    · rintro w _ ⟨f, rfl⟩ _
      exact fun _ => rfl
    · exact fun m _ w => transaction_refused
    · exact fun paths w => transaction_refused
    · exact fun w => sealing_of_guarded (metaSet_built.guarded w)
  case neg =>
    by_cases ht : w.db.Tidy
    case pos =>
      refine PathMigration.migrateAbsolutePaths_rel (fun _ _ h _ => publishes_of_reads h) ?_
        (fun _ => deleteAbsolutePaths_tidily) metaSet_tidily
      rintro m ⟨⟨u, hu, hp⟩, path, hpath, hr⟩
      refine commitRewrittenPath_tidily (hp ▸ (ht.units u hu).path) (hc path ?_ _ hr)
      exact hpath.symm.imp_right fun he => ⟨u, hu, hp.trans he.symm⟩
    case neg =>
      have hw : w.committed = w.db := committed_eq (by simpa using hs)
      exact ⟨fun h => (ht (hw ▸ h)).elim, fun h => (hs h).elim⟩

end IndexStack

-- No path under which a request stores units contains a colon. A sync of the project stores them under
-- the relative paths of what it looks at.
def Request.Colonless {F : Floats} (s : Session F) : Request F → Prop
  | syncFile _ _ filePath storedPath => ':' ∉ (storedPath.getD filePath).toList
  | syncProject stack paths _ _ _    =>
    ∀ p ∈ paths, ∀ stored, stack.storedPath p = .ok stored → ':' ∉ (stored.getD p).toList
  | runSync stack project options    => ∀ path, stack.LooksAt project options s.world path → ∀ rel,
    stack.parser.files.projectRelativePosix path options.root = .ok rel → ':' ∉ rel.toList
  | reopen .. | search ..            => True

namespace Session

open Conn World

variable {F : Floats} {s s' : Session F} {a : Request F} {r : Reply}

theorem Step.tidy (h : Step s a r s') (hc : a.Colonless s) (hs : s.world.committed.Tidy) :
    s'.world.committed.Tidy := by
  cases h
  case reopen embedder mode wipe dimension faults llmFaults r hopen =>
    have hrel : (openDbConnection embedder wipe).Within tidily := openDbConnection_tidily
    have ho := hrel (.connect s.world.committed mode dimension faults llmFaults)
    rw [hopen] at ho
    exact ho.left hs
  case syncFile stack force filePath storedPath r he hrun =>
    have ho : tidily s.world ((stack.syncFile force filePath storedPath).run s.world).state :=
      IndexStack.syncFile_rel fun units hp => IndexStack.within_tidily hp hc
    rw [hrun] at ho
    exact ho.left hs
  case syncProject stack paths force indexAll n w' he h =>
    have ho := IndexStack.syncProject_rel (S := tidily) (fun _ _ => IndexStack.reembedAllUnits_tidily)
      (fun p hm stored units hp => IndexStack.within_tidily hp.right (hc p hm stored hp.left)) h
    exact ho.left hs
  case runSync stack project options result w' he h =>
    refine (IndexStack.runSync_rel (S := tidily) (fun _ _ => setDependencyPath_tidily) (fun w₁ h₁ => ?_)
      (fun _ _ _ _ _ => IndexStack.reembedAllUnits_tidily)
      (fun paths w₁ hpre p hm stored units hp => ?_) h).left hs
    · refine IndexStack.migrateIfNeeded_rel (fun _ _ h _ => publishes_of_reads h)
        fun w₂ h₂ => IndexStack.migrateAbsolutePaths_tidily fun path hpath => hc path ?_
      exact hpath.imp_right fun ⟨u, hu, he⟩ => .inl ⟨u, h₁ ▸ h₂ ▸ hu, he⟩
    · refine IndexStack.within_tidily hp.right ?_
      have hst := hp.left
      unfold IndexStack.storedPath at hst
      obtain ⟨rel, hrel, rfl⟩ : ∃ rel, stack.parser.files.projectRelativePosix p options.root = .ok rel ∧
          some rel = stored := by
        dsimp only at hst
        cases hrel : stack.parser.files.projectRelativePosix p options.root <;> rw [hrel] at hst
        case error => cases hst
        case ok rel => exact ⟨rel, rfl, Except.ok.inj hst⟩
      exact hc p (.inr (.inr ⟨paths, w₁, hpre, hm⟩)) rel hrel
  case search closer query limit r hsearch =>
    have hrel : (searchUnits s.embedder closer query limit).Within tidily :=
      searchUnits_within ensure_tidily (fun _ => aembed_tidily) fun _ _ h _ => publishes_of_reads h
    have ho := hrel s.world
    rw [hsearch] at ho
    exact ho.left hs

-- In every session, whatever has failed in it and in the sessions before it: other sessions find no
-- vector without its unit, and no unit that is not named by its path.
theorem tidy_of_reachable (h : Reachable (fun s a _ => a.Colonless s) s) : s.world.committed.Tidy := by
  refine h.invariant (I := fun s => s.world.committed.Tidy) ?_ fun s s' a r hs hc h => h.tidy hc hs
  intro s s' a r hdb _ hc h
  refine h.tidy hc ?_
  rw [hdb]
  exact .empty

section Sample

private def pair : IndexStack naturals :=
  Sample.stack "m" [("/r/a.py", "f=1\ng=2")] "" none

-- The next session on an index, in which certain statements fail.
private def reopened (w : World naturals) (faults : Nat → Bool) : Session naturals where
  embedder := Sample.embedder "m"
  world    := (openDbConnection (Sample.embedder "m") false
    (.connect w.committed .readWrite none faults noFaults)).state

private def failing : Session naturals :=
  reopened (.connect .empty .readWrite none noFaults noFaults) (23 ≤ ·)

-- The second of two units has been stored, but not its vector.
private def interrupted : Session naturals :=
  { failing with world := ((pair.syncFile false "/r/a.py" none).run failing.world).state }

-- The migration of the path has failed after it has renamed the units, and its transaction is open.
private def torn : Session naturals where
  embedder := Sample.embedder "m"
  world    := Sample.ran pair ["/r/a.py"] (reopened interrupted.world (17 ≤ ·)).world

private def recovered : Session naturals where
  embedder := Sample.embedder "m"
  world    := Sample.ran pair ["/r/a.py"] (reopened torn.world noFaults).world

private theorem colonless_runSync {s : Session naturals} (h : s.world.db.units.rows.all (·.path = "/r/a.py")) :
    Request.Colonless s (.runSync pair Sample.project Sample.everything) := by
  have hfiles : pair.indexableUnder Sample.project Sample.everything "/r" = ["/r/a.py"] := by decide +kernel
  have hrel : pair.parser.files.projectRelativePosix "/r/a.py" "/r" = .ok "a.py" := by decide +kernel
  intro path hpath rel hr
  suffices path = "/r/a.py" by
    subst this
    cases hrel.symm.trans hr
    decide
  obtain hpath | ⟨u, hu, rfl⟩ | ⟨paths, w', hpre, hpath⟩ := hpath
  · exact List.mem_singleton.mp (hfiles ▸ hpath)
  · simpa using List.all_eq_true.mp h u (Table.mem_rows.mpr hu)
  · obtain ⟨v, hv, hsel⟩ := IndexStack.prelude_selects hpre
    rw [IndexStack.validated_none (.inl rfl)] at hv
    cases hv
    rw [show paths = ["/r/a.py"] from (Option.some.inj hsel).trans hfiles] at hpath
    exact List.mem_singleton.mp hpath

private theorem reachable_ran {s : Session naturals} {faults : Nat → Bool}
    (h : Reachable (fun s a _ => a.Colonless s) s)
    (hu : (reopened s.world faults).world.db.units.rows.all (·.path = "/r/a.py"))
    (hsel : (pair.prelude Sample.project Sample.everything (reopened s.world faults).world).outcome =
      .ok (some ["/r/a.py"]))
    (hre : (IndexStack.reembedIfDirty { pair with root := some "/r" } true
      (pair.prelude Sample.project Sample.everything (reopened s.world faults).world).state).outcome = .ok ()) :
    Reachable (fun s a _ => a.Colonless s)
      ⟨Sample.embedder "m", Sample.ran pair ["/r/a.py"] (reopened s.world faults).world⟩ := by
  have hopen : Reachable (fun s a _ => a.Colonless s) (reopened s.world faults) :=
    .step h (a := .reopen (Sample.embedder "m") .readWrite false none faults noFaults) trivial (.reopen rfl)
  obtain ⟨result, hrun⟩ := Sample.runSync_ran hsel hre
  exact .step hopen (colonless_runSync hu) (.runSync rfl hrun)

-- In the torn session a vector has lost its unit, which the next session does not find.
theorem tidy_of_reachable_sample :
    torn.world.db.units.find? "/r/a.py:f" = none ∧ (torn.world.db.vec? "/r/a.py:f").isSome ∧
      torn.world.committed.Tidy ∧ (recovered.world.db.units.find? "a.py:g").isSome ∧
      recovered.world.committed.Tidy := by
  have hfailing : Reachable (fun s a _ => a.Colonless s) failing :=
    .start (s := ⟨Sample.embedder "m", .connect .empty .readWrite none noFaults noFaults⟩)
      (a := .reopen (Sample.embedder "m") .readWrite false none (23 ≤ ·) noFaults) rfl trivial trivial
      (.reopen rfl)
  have hc : Request.Colonless failing (.syncFile pair false "/r/a.py" none) :=
    (by decide : ':' ∉ "/r/a.py".toList)
  have hinterrupted : Reachable (fun s a _ => a.Colonless s) interrupted :=
    .step hfailing hc (.syncFile rfl rfl)
  have htorn : Reachable (fun s a _ => a.Colonless s) torn :=
    reachable_ran hinterrupted (by decide +kernel) (by decide +kernel) (by decide +kernel)
  have hrecovered : Reachable (fun s a _ => a.Colonless s) recovered :=
    reachable_ran htorn (by decide +kernel) (by decide +kernel) (by decide +kernel)
  exact ⟨by decide +kernel, by decide +kernel, tidy_of_reachable htorn, by decide +kernel,
    tidy_of_reachable hrecovered⟩

end Sample
end Session
